import DiagramTint.Yaml.Scalar.Write

/-!
# Characters that are written as themselves

What a reader makes of printable characters: all of them are allowed in a text, the only blank among
them is the space, and a line break among them stands for itself.
-/

namespace DiagramTint.Yaml

/-- The codes of characters leave a hole. -/
theorem toNat_cases (c : Char) :
    c.toNat < 0xD800 ∨ (0xDFFF < c.toNat ∧ c.toNat < 0x110000) :=
  c.valid

theorem isBreak_iff {c : Char} :
    isBreak c = true ↔ c = '\n' ∨ c = '\r' ∨ c = '\u0085' ∨ c = '\u2028' ∨ c = '\u2029' := by
  simp [isBreak, or_assoc]

theorem isWhite_iff {c : Char} : isWhite c = true ↔ c = ' ' ∨ c = '\t' := by
  simp [isWhite]

theorem not_isWhite_of_isBreak {c : Char} (h : isBreak c = true) : isWhite c = false := by
  rcases isBreak_iff.mp h with rfl | rfl | rfl | rfl | rfl <;> rfl

theorem takeBreak_of_not_isBreak {c : Char} (h : isBreak c = false) (cs : List Char) :
    takeBreak (c :: cs) = none := by
  unfold takeBreak
  split
  · rfl
  · rename_i heq
    cases heq
    cases h
  · rename_i heq
    cases heq
    have hls : c ≠ '\u2028' := by
      rintro rfl
      cases h
    have hps : c ≠ '\u2029' := by
      rintro rfl
      cases h
    simp [hls, hps, h]

/-- A text that starts with something that counts, or is empty: readers that skip blanks and
comments stop in front of it. -/
def Solid (cs : List Char) : Prop :=
  ∀ c ∈ cs.head?, isWhite c = false ∧ isBreak c = false ∧ c ≠ '#' ∧ c ≠ byteOrderMark

theorem solid_nil : Solid [] := by
  simp [Solid]

theorem solid_cons {c : Char} {cs : List Char} :
    Solid (c :: cs) ↔ isWhite c = false ∧ isBreak c = false ∧ c ≠ '#' ∧ c ≠ byteOrderMark := by
  simp [Solid]

/-- The end of a line, and the first `k` columns of the next one, which are blank. -/
def lineGap (k : Nat) : List Char :=
  '\n' :: List.replicate k ' '

theorem atGap_append_lineGap (cs : List Char) (k : Nat) (rest : List Char) :
    atGap (cs ++ (lineGap k ++ rest)) = atGap cs := by
  cases cs <;> rfl

namespace Scalar

theorem isAllowed_of_isPrintable {c : Char} (h : isPrintable c = true) : isAllowed c = true := by
  have hcode := toNat_cases c
  simp only [isPrintable, isAllowed, Bool.or_eq_true, Bool.and_eq_true, decide_eq_true_eq,
    beq_iff_eq, bne_iff_ne, ne_eq] at *
  omega

theorem takeBreak_of_isPrintable {c : Char} (h : isPrintable c = true) (hb : isBreak c = true)
    (cs : List Char) : takeBreak (c :: cs) = some ([c], cs) := by
  rcases isBreak_iff.mp hb with rfl | rfl | rfl | rfl | rfl
  · rfl
  · cases h
  · cases h
  · rfl
  · rfl

/-- A line that is written below another one starts with nothing but spaces. -/
theorem eq_space_of_mem_indentation {fresh : Bool} {d : Char}
    (h : d ∈ (if fresh then continuation else [])) : d = ' ' := by
  cases fresh with
  | false => cases h
  | true => simpa [continuation] using h

theorem eq_space_of_isWhite {c : Char} (h : isPrintable c = true) (hw : isWhite c = true) :
    c = ' ' := by
  rcases isWhite_iff.mp hw with rfl | rfl
  · rfl
  · cases h

end Scalar

end DiagramTint.Yaml
