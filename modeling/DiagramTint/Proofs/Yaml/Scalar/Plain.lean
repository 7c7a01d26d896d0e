import DiagramTint.Proofs.Yaml.Break

/-!
# Plain scalars read back

A text that may be written plain is read back from its line, whatever is on the next line as long
as that is not indented further than what surrounds the scalar.
-/

namespace DiagramTint.Yaml.Scalar

/-! ## One character -/

theorem plain_nil (flow : Bool) (indent col : Nat) (gap : Gap) :
    plain flow indent col gap [] = .ok ⟨[], [], gap.isBroken⟩ := by
  rw [plain]

theorem plain_space (flow : Bool) (indent col : Nat) (gap : Gap) (cs : List Char) :
    plain flow indent col gap (' ' :: cs) = plain flow indent (col + 1) (gap.addWhite ' ') cs := by
  rw [plain, if_pos (by decide), if_neg (by simp)]

theorem plain_newline (flow : Bool) (indent col : Nat) (gap : Gap) (cs : List Char) :
    plain flow indent col gap ('\n' :: cs) = plain flow indent 0 (gap.addBreak ['\n']) cs := by
  rw [plain, if_neg (by decide)]
  rfl

theorem plain_other {c : Char} (hwhite : isWhite c = false) (hbreak : isBreak c = false)
    (indent col : Nat) (gap : Gap) (cs : List Char) :
    plain false indent col gap (c :: cs) =
      if plainStops false indent col gap c cs || plainIndicator false c cs then
        .ok ⟨[], c :: cs, gap.isBroken⟩
      else Plain.prepend (gap.text ++ [c]) (plain false indent (col + 1) .none cs) := by
  rw [plain, if_neg (by simp [hwhite])]
  split
  · rename_i h
    rw [takeBreak_of_not_isBreak hbreak] at h
    cases h
  · cases plainStops false indent col gap c cs <;> simp

/-! ## One line -/

/-- The blanks in front of a line that is not indented far enough end a plain scalar. -/
theorem plain_breaks {indent : Nat} {rest : List Char} (first more : List Char)
    (hrest : Solid rest) (n col : Nat) (hcol : col + n < indent) :
    plain false indent col (.breaks first more) (List.replicate n ' ' ++ rest) =
      .ok ⟨[], rest, true⟩ := by
  induction n generalizing col with
  | zero =>
      rw [List.replicate_zero, List.nil_append]
      cases rest with
      | nil => rw [plain_nil, Gap.isBroken]
      | cons c cs =>
          obtain ⟨hwhite, hbreak, -, -⟩ := solid_cons.mp hrest
          have hlt : col < indent := by omega
          rw [plain_other hwhite hbreak, if_pos (by simp [plainStops, Gap.isBroken, hlt])]
          rfl
  | succ n ih =>
      rw [List.replicate_succ, List.cons_append, plain_space]
      exact ih (col + 1) (by omega)

/-- Reading a plain scalar to the end of its line, when the blanks `ws` are read but not yet
counted; they have to be followed by something else. -/
theorem plain_line {indent k : Nat} {rest : List Char} (hrest : Solid rest) (hk : k < indent)
    (cs ws : List Char) (col : Nat) (hcol : 0 < col)
    (hprintable : ∀ c ∈ cs, isPrintable c = true) (hbreak : ∀ c ∈ cs, isBreak c = false)
    (hinner : hasInnerIndicator (!ws.isEmpty) cs = false)
    (hlast : cs.getLast? ≠ some ' ') (hws : cs = [] → ws = []) :
    plain false indent col (.blanks ws) (cs ++ (lineGap k ++ rest)) =
      .ok ⟨ws ++ cs, rest, true⟩ := by
  induction cs generalizing ws col with
  | nil =>
      rw [hws rfl, List.nil_append, lineGap, List.cons_append, plain_newline]
      exact plain_breaks ['\n'] [] hrest k 0 (by omega)
  | cons c cs ih =>
      have hprint := hprintable c List.mem_cons_self
      have hcbreak := hbreak c List.mem_cons_self
      have hprintable' := fun d hd => hprintable d (List.mem_cons_of_mem c hd)
      have hbreak' := fun d hd => hbreak d (List.mem_cons_of_mem c hd)
      have hlast' : cs.getLast? ≠ some ' ' := by
        intro h
        apply hlast
        rw [List.getLast?_cons, h]
        rfl
      simp only [hasInnerIndicator, Bool.or_eq_false_iff, hcbreak, Bool.or_false] at hinner
      obtain ⟨⟨hcolon, hhash⟩, hinner⟩ := hinner
      rw [List.cons_append]
      cases hwhite : isWhite c with
      | true =>
          have hspace := eq_space_of_isWhite hprint hwhite
          subst hspace
          have hne : cs = [] → ws ++ [' '] = [] := by
            rintro rfl
            simp at hlast
          have hgap : (!(ws ++ [' ']).isEmpty) = isWhite ' ' := by simp [hwhite]
          rw [plain_space, Gap.addWhite,
            ih (ws ++ [' ']) (col + 1) (by omega) hprintable' hbreak' (hgap ▸ hinner) hlast' hne,
            List.append_assoc, List.singleton_append]
      | false =>
          have hstops : plainStops false indent col (.blanks ws) c (cs ++ (lineGap k ++ rest)) =
              false := by
            have hcol' : col ≠ 0 := by omega
            cases ws with
            | nil => simp [plainStops, Gap.isNone, Gap.isBroken]
            | cons w ws => simpa [plainStops, Gap.isNone, Gap.isBroken, hcol'] using hhash
          have hindicator : plainIndicator false c (cs ++ (lineGap k ++ rest)) = false := by
            simp only [plainIndicator, atGap_append_lineGap, hcolon, Bool.false_and, Bool.or_false]
          rw [hwhite] at hinner
          rw [plain_other hwhite hcbreak, hstops, hindicator, if_neg (by simp), Gap.none, Gap.text,
            ih [] (col + 1) (by omega) hprintable' hbreak' hinner hlast' fun _ => rfl]
          simp [Plain.prepend]

end DiagramTint.Yaml.Scalar
