import DiagramTint.Proofs.Yaml.Break
import Mathlib.Algebra.Group.Nat.Defs

/-!
# Quoted scalars read back

Both kinds of quoted scalars give back the text that was written.  In single quotes the reader
gathers blanks and line breaks before it knows what they stand for; the conditions under which a
text is written this way make them stand for themselves.  In double quotes everything that could be
misread is an escape.
-/

namespace DiagramTint.Yaml.Scalar

/-! ## One character -/

theorem quoted_space (double fresh : Bool) (gap : Gap) (cs : List Char) :
    quoted double fresh gap (' ' :: cs) = quoted double false (gap.addWhite ' ') cs := by
  rw [quoted, if_pos (by decide)]

theorem quoted_break {c : Char} (hprintable : isPrintable c = true) (hbreak : isBreak c = true)
    (double fresh : Bool) (gap : Gap) (cs : List Char) :
    quoted double fresh gap (c :: cs) = quoted double true (gap.addBreak [c]) cs := by
  have htake := takeBreak_of_isPrintable hprintable hbreak cs
  rw [quoted, if_neg (by simp [not_isWhite_of_isBreak hbreak])]
  split
  · rename_i h
    rw [htake] at h
    cases h
    rfl
  · rename_i h
    rw [htake] at h
    cases h

/-- A character in the middle of a line of a single-quoted scalar. -/
theorem quoted_single {c : Char} (hwhite : isWhite c = false) (hbreak : isBreak c = false)
    (gap : Gap) (cs : List Char) :
    quoted false false gap (c :: cs) =
      if c = '\x27' then
        if cs.head? = some '\x27' then
          prepend (gap.text ++ ['\x27']) (quoted false false .none (cs.drop 1))
        else .ok (gap.text, cs)
      else prepend (gap.text ++ [c]) (quoted false false .none cs) := by
  rw [quoted, if_neg (by simp [hwhite])]
  split
  · rename_i h
    rw [takeBreak_of_not_isBreak hbreak] at h
    cases h
  · simp

/-- A character in the middle of a line of a double-quoted scalar, a backslash apart. -/
theorem quoted_double {c : Char} (hwhite : isWhite c = false) (hbreak : isBreak c = false)
    (hescape : c ≠ '\\') (gap : Gap) (cs : List Char) :
    quoted true false gap (c :: cs) =
      if c = '"' then .ok (gap.text, cs)
      else prepend (gap.text ++ [c]) (quoted true false .none cs) := by
  rw [quoted, if_neg (by simp [hwhite])]
  split
  · rename_i h
    rw [takeBreak_of_not_isBreak hbreak] at h
    cases h
  · simp [hescape]

theorem quoted_escape {c x : Char} {cs rest : List Char} (hbreak : isBreak c = false)
    (hescape : escape (c :: cs) = .ok (x, rest)) (gap : Gap) :
    quoted true false gap ('\\' :: c :: cs) =
      prepend (gap.text ++ [x]) (quoted true false .none rest) := by
  rw [quoted, if_neg (by decide)]
  split
  · rename_i h
    rw [takeBreak_of_not_isBreak (by decide)] at h
    cases h
  · rw [if_neg (by simp), if_pos rfl, if_neg (by decide), if_pos rfl]
    split
    · rename_i h
      rw [takeBreak_of_not_isBreak hbreak] at h
      cases h
    · split
      · rename_i h
        rw [hescape] at h
        cases h
      · rename_i h
        rw [hescape] at h
        cases h
        rfl

/-! ## Single quotes -/

theorem anyPair_of_append {p q : Char → Bool} {xs ys : List Char}
    (h : anyPair p q (xs ++ ys) = false) : anyPair p q ys = false := by
  induction xs with
  | nil => exact h
  | cons x xs ih =>
      apply ih
      cases hrest : xs ++ ys with
      | nil => rfl
      | cons y zs =>
          rw [List.cons_append, hrest, anyPair, Bool.or_eq_false_iff] at h
          exact h.2

theorem not_pair_of_append {p q : Char → Bool} {xs ys : List Char} {a b : Char}
    (h : anyPair p q (xs ++ a :: b :: ys) = false) (hp : p a = true) : q b = false := by
  have hpair := anyPair_of_append h
  rw [anyPair, Bool.or_eq_false_iff] at hpair
  simpa [hp] using hpair.1

/-- The reader of a single-quoted scalar has `text` in front of it that it has not counted yet:
spaces on the same line, or line breaks other than line feeds, after which `fresh` is set. -/
inductive Pending : Bool → Gap → List Char → Prop where
  | spaces {text : List Char} (h : ∀ c ∈ text, c = ' ') : Pending false (.blanks text) text
  | breaks {b : Char} {more : List Char} (h : ∀ c ∈ b :: more, isBreak c = true) (hb : b ≠ '\n') :
      Pending true (.breaks [b] more) (b :: more)

theorem Pending.text_eq {fresh : Bool} {gap : Gap} {text : List Char} (h : Pending fresh gap text) :
    gap.text = text := by
  cases h with
  | spaces h => rfl
  | breaks h hb => simp [Gap.text, hb]

/-- The spaces that a written line starts with do not count. -/
theorem Pending.quoted_eq {fresh : Bool} {gap : Gap} {text : List Char} (h : Pending fresh gap text)
    (cs : List Char) :
    quoted false fresh gap ((if fresh then continuation else []) ++ cs) =
      quoted false false gap cs := by
  cases h with
  | spaces h => rfl
  | breaks h hb =>
      rw [if_pos rfl, continuation]
      simp only [List.cons_append, List.nil_append, quoted_space, Gap.addWhite]

theorem Pending.addBreak {fresh : Bool} {gap : Gap} {text cs : List Char} {c : Char}
    (h : Pending fresh gap text) (hbefore : spaceBeforeBreak (text ++ c :: cs) = false)
    (hc : isBreak c = true) (hnewline : c ≠ '\n') :
    Pending true (gap.addBreak [c]) (text ++ [c]) := by
  cases h with
  | spaces h =>
      rcases List.eq_nil_or_concat text with rfl | ⟨ws, w, rfl⟩
      · exact .breaks (by simpa using hc) hnewline
      · -- a space in front of the break would be lost
        have hw : w = ' ' := h w (by simp)
        rw [List.concat_eq_append, List.append_assoc, List.singleton_append] at hbefore
        have hpair := not_pair_of_append hbefore (by simp [hw])
        rw [hc] at hpair
        cases hpair
  | @breaks b more h hb =>
      refine .breaks ?_ hb
      intro d hd
      rcases List.mem_append.mp (List.cons_append ▸ hd : d ∈ (b :: more) ++ [c]) with hd | hd
      · exact h d hd
      · rw [List.mem_singleton.mp hd]
        exact hc

theorem Pending.addSpace {fresh : Bool} {gap : Gap} {text cs : List Char}
    (h : Pending fresh gap text) (hafter : spaceAfterBreak (text ++ ' ' :: cs) = false) :
    fresh = false ∧ Pending false (gap.addWhite ' ') (text ++ [' ']) := by
  cases h with
  | spaces h =>
      refine ⟨rfl, .spaces ?_⟩
      intro d hd
      rcases List.mem_append.mp hd with hd | hd
      · exact h d hd
      · exact List.mem_singleton.mp hd
  | @breaks b more h hb =>
      obtain ⟨bs, a, hlast⟩ : ∃ bs a, b :: more = bs ++ [a] :=
        ⟨_, _, (List.dropLast_concat_getLast (List.cons_ne_nil b more)).symm⟩
      have ha : isBreak a = true := h a (by simp [hlast])
      rw [hlast, List.append_assoc, List.singleton_append] at hafter
      exact absurd (not_pair_of_append hafter ha) (by simp)

theorem quoted_singleBody {rest : List Char} (hrest : rest.head? ≠ some '\x27') (cs : List Char)
    {fresh : Bool} {gap : Gap} {text : List Char} (hpending : Pending fresh gap text)
    (hprintable : ∀ c ∈ cs, isPrintable c = true) (hnewline : '\n' ∉ cs)
    (hbefore : spaceBeforeBreak (text ++ cs) = false)
    (hafter : spaceAfterBreak (text ++ cs) = false) :
    quoted false fresh gap (singleBody fresh cs ++ '\x27' :: rest) = .ok (text ++ cs, rest) := by
  induction cs generalizing fresh gap text with
  | nil =>
      rw [singleBody, hpending.quoted_eq, quoted_single (by decide) (by decide), if_pos rfl,
        if_neg hrest, hpending.text_eq, List.append_nil]
  | cons c cs ih =>
      have hprint := hprintable c List.mem_cons_self
      have hprintable' := fun d hd => hprintable d (List.mem_cons_of_mem c hd)
      have hnewline' : '\n' ∉ cs := fun h => hnewline (List.mem_cons_of_mem c h)
      have hc : c ≠ '\n' := by
        rintro rfl
        exact hnewline List.mem_cons_self
      have hmove : text ++ c :: cs = (text ++ [c]) ++ cs := by simp
      rw [singleBody]
      cases hbreak : isBreak c with
      | true =>
          have hpending' := hpending.addBreak hbefore hbreak hc
          rw [hmove] at hbefore hafter ⊢
          rw [if_pos rfl, List.cons_append, quoted_break hprint hbreak,
            ih hpending' hprintable' hnewline' hbefore hafter]
      | false =>
          rw [if_neg (by simp), List.append_assoc, List.append_assoc, hpending.quoted_eq]
          cases hwhite : isWhite c with
          | true =>
              have hspace := eq_space_of_isWhite hprint hwhite
              subst hspace
              obtain ⟨-, hpending'⟩ := hpending.addSpace hafter
              rw [hmove] at hbefore hafter ⊢
              rw [if_neg (by decide), List.singleton_append, quoted_space,
                ih hpending' hprintable' hnewline' hbefore hafter]
          | false =>
              have hnone : Pending false Gap.none [] := .spaces (by simp)
              have hstart := ih hnone hprintable' hnewline'
                (anyPair_of_append (hmove ▸ hbefore)) (anyPair_of_append (hmove ▸ hafter))
              by_cases hquote : c = '\x27'
              · rw [if_pos hquote]
                simp only [List.cons_append, List.nil_append]
                rw [quoted_single (by decide) (by decide), if_pos rfl, List.head?_cons, if_pos rfl,
                  List.drop_one, List.tail_cons, hstart, prepend, hpending.text_eq, hquote]
                simp
              · rw [if_neg hquote, List.singleton_append, quoted_single hwhite hbreak,
                  if_neg hquote, hstart, prepend, hpending.text_eq]
                simp

theorem mem_singleBody {cs : List Char} {fresh : Bool} {d : Char} (h : d ∈ singleBody fresh cs) :
    d = ' ' ∨ d ∈ cs := by
  induction cs generalizing fresh with
  | nil => exact .inl (eq_space_of_mem_indentation h)
  | cons c cs ih =>
      rw [singleBody] at h
      split at h
      · rcases List.mem_cons.mp h with rfl | h
        · exact .inr List.mem_cons_self
        · exact (ih h).imp_right (List.mem_cons_of_mem c)
      · rw [List.append_assoc, List.mem_append, List.mem_append] at h
        rcases h with h | h | h
        · exact .inl (eq_space_of_mem_indentation h)
        · split at h <;> simp_all
        · exact (ih h).imp_right (List.mem_cons_of_mem c)

/-! ## Hexadecimal numbers -/

theorem hexNumber_add (m n value : Nat) (cs : List Char) :
    hexNumber (m + n) value cs = (hexNumber m value cs).bind fun r => hexNumber n r.1 r.2 := by
  induction m generalizing value cs with
  | zero => rw [Nat.zero_add, hexNumber, Option.bind_some]
  | succ m ih =>
      rw [Nat.add_right_comm]
      cases cs with
      | nil => rfl
      | cons c cs =>
          rw [hexNumber, hexNumber]
          cases hexValue? c with
          | none => rfl
          | some d => exact ih _ cs

theorem hexValue?_digit {d : Nat} (h : d < 16) :
    hexValue? (Nat.digitChar d).toUpper = some d := by
  have hall : ∀ d : Fin 16, hexValue? (Nat.digitChar d.val).toUpper = some d.val := by decide
  exact hall ⟨d, h⟩

theorem hexNumber_hexDigits (width n value : Nat) (rest : List Char) (h : n < 16 ^ width) :
    hexNumber width value (hexDigits width n ++ rest) = some (value * 16 ^ width + n, rest) := by
  induction width generalizing n rest with
  | zero =>
      have hn : n = 0 := by omega
      simp [hexNumber, hexDigits, hn]
  | succ width ih =>
      have hdiv : n / 16 < 16 ^ width := by
        rw [Nat.pow_succ] at h
        omega
      have hdigit := hexValue?_digit (Nat.mod_lt n (by omega : 0 < 16))
      rw [hexDigits, List.append_assoc, hexNumber_add, ih (n / 16) _ hdiv, Option.bind_some,
        List.singleton_append, hexNumber, hdigit, Option.bind_some, hexNumber]
      have hsplit := Nat.div_add_mod n 16
      rw [Nat.pow_succ, Nat.add_mul, Nat.mul_assoc]
      congr 2
      omega

theorem hexChar_hexDigits {width : Nat} {c : Char} (h : c.toNat < 16 ^ width) (rest : List Char) :
    hexChar width (hexDigits width c.toNat ++ rest) = .ok (c, rest) := by
  have hvalid : ¬ ((0xD800 ≤ c.toNat ∧ c.toNat ≤ 0xDFFF) ∨ 0x10FFFF < c.toNat) := by
    have hcode := toNat_cases c
    omega
  rw [hexChar, hexNumber_hexDigits width c.toNat 0 rest h]
  simp only [Nat.zero_mul, Nat.zero_add, if_neg hvalid, Char.ofNat_toNat]

/-! ## Double quotes -/

theorem escape_letter {c letter : Char} (h : escapeLetter? c = some letter) (rest : List Char) :
    isBreak letter = false ∧ escape (letter :: rest) = .ok (c, rest) := by
  unfold escapeLetter? at h
  split at h <;> cases h <;> exact ⟨rfl, rfl⟩

/-- A character without an escape of its own is no line break, quote or backslash. -/
theorem not_special_of_escapeLetter? {c : Char} (h : escapeLetter? c = none) :
    isBreak c = false ∧ c ≠ '"' ∧ c ≠ '\\' := by
  refine ⟨?_, ?_, ?_⟩
  · rw [← Bool.not_eq_true, isBreak_iff]
    rintro (rfl | rfl | rfl | rfl | rfl) <;> cases h
  · rintro rfl
    cases h
  · rintro rfl
    cases h

theorem quoted_doubleChar (c : Char) (ws rest : List Char) :
    (c = ' ' ∧ quoted true false (.blanks ws) (doubleChar c ++ rest) =
        quoted true false (.blanks (ws ++ [c])) rest) ∨
      quoted true false (.blanks ws) (doubleChar c ++ rest) =
        prepend (ws ++ [c]) (quoted true false .none rest) := by
  unfold doubleChar
  split
  · rename_i letter hletter
    obtain ⟨hbreak, hescape⟩ := escape_letter hletter rest
    exact .inr (quoted_escape hbreak hescape _)
  · rename_i hletter
    by_cases hprintable : isPrintable c = true
    · rw [if_pos hprintable, List.singleton_append]
      obtain ⟨hbreak, hquote, hslash⟩ := not_special_of_escapeLetter? hletter
      cases hwhite : isWhite c with
      | true =>
          have hspace := eq_space_of_isWhite hprintable hwhite
          subst hspace
          exact .inl ⟨rfl, quoted_space _ _ _ _⟩
      | false =>
          right
          rw [quoted_double hwhite hbreak hslash, if_neg hquote, Gap.text]
    · rw [if_neg hprintable]
      right
      have hcode := toNat_cases c
      split
      · have hescape : escape ('x' :: (hexDigits 2 c.toNat ++ rest)) = .ok (c, rest) :=
          hexChar_hexDigits (by omega) rest
        exact quoted_escape rfl hescape _
      · split
        · have hescape : escape ('u' :: (hexDigits 4 c.toNat ++ rest)) = .ok (c, rest) :=
            hexChar_hexDigits (by omega) rest
          exact quoted_escape rfl hescape _
        · have hescape : escape ('U' :: (hexDigits 8 c.toNat ++ rest)) = .ok (c, rest) :=
            hexChar_hexDigits (by omega) rest
          exact quoted_escape rfl hescape _

theorem quoted_doubleBody (cs ws rest : List Char) :
    quoted true false (.blanks ws) (cs.flatMap doubleChar ++ '"' :: rest) =
      .ok (ws ++ cs, rest) := by
  induction cs generalizing ws with
  | nil =>
      rw [List.flatMap_nil, List.nil_append, quoted_double (by decide) (by decide) (by decide),
        if_pos rfl, Gap.text, List.append_nil]
  | cons c cs ih =>
      rw [List.flatMap_cons, List.append_assoc]
      rcases quoted_doubleChar c ws (cs.flatMap doubleChar ++ '"' :: rest) with ⟨-, h⟩ | h
      · rw [h, ih (ws ++ [c]), List.append_assoc, List.singleton_append]
      · rw [h, Gap.none, ih [], prepend]
        simp

theorem isAllowed_of_mem_hexDigits {width n : Nat} {d : Char} (h : d ∈ hexDigits width n) :
    isAllowed d = true := by
  have hall : ∀ d : Fin 16, isAllowed (Nat.digitChar d.val).toUpper = true := by decide
  induction width generalizing n with
  | zero => cases h
  | succ width ih =>
      rw [hexDigits, List.mem_append, List.mem_singleton] at h
      rcases h with h | rfl
      · exact ih h
      · exact hall ⟨n % 16, Nat.mod_lt n (by decide)⟩

theorem isAllowed_of_mem_doubleChar {c d : Char} (h : d ∈ doubleChar c) : isAllowed d = true := by
  have hslash : isAllowed '\\' = true := by decide
  have hhex : ∀ mark width, isAllowed mark = true → d ∈ '\\' :: mark :: hexDigits width c.toNat →
      isAllowed d = true := by
    intro mark width hmark hd
    rw [List.mem_cons, List.mem_cons] at hd
    rcases hd with rfl | rfl | hd
    · exact hslash
    · exact hmark
    · exact isAllowed_of_mem_hexDigits hd
  unfold doubleChar at h
  split at h
  · rename_i letter hletter
    have hallowed : isAllowed letter = true := by
      unfold escapeLetter? at hletter
      split at hletter <;> cases hletter <;> decide
    rw [List.mem_cons, List.mem_singleton] at h
    rcases h with rfl | rfl
    · exact hslash
    · exact hallowed
  · split at h
    · rename_i hprintable
      rw [List.mem_singleton.mp h]
      exact isAllowed_of_isPrintable hprintable
    · split at h
      · exact hhex 'x' 2 (by decide) h
      · split at h
        · exact hhex 'u' 4 (by decide) h
        · exact hhex 'U' 8 (by decide) h

end DiagramTint.Yaml.Scalar
