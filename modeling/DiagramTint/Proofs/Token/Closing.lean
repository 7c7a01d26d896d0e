import DiagramTint.Proofs.Text.Position
import DiagramTint.Proofs.Token.Touching
import Mathlib.Algebra.Group.Nat.Even

/-!
# Closing quotes

A quote closes a string if an even number of backslashes stands right before it.  Reading a string
keeps only whether the next character is escaped, which is the parity of the backslashes read last.
So a string ends behind the first closing quote of its line, or else with its line.
-/

namespace DiagramTint

theorem Text.exists_restOfLine (cs : List Char) :
    ∃ body post, cs = body ++ post ∧ '\n' ∉ body ∧ (post = [] ∨ post.head? = some '\n') := by
  induction cs using lineInduction with
  | last line h => exact ⟨line, [], by simp, h, Or.inl rfl⟩
  | cut line rest h _ => exact ⟨line, '\n' :: rest, rfl, h, Or.inr rfl⟩

namespace Token

open Text

/-- The number of backslashes with which a text ends. -/
def backslashes (front : List Char) : Nat :=
  (front.reverse.takeWhile (· == '\\')).length

/-- Where a quote closes the string whose line goes on with `body` behind the opening quote. -/
def Closes (body : List Char) (i : Nat) : Prop :=
  body[i]? = some '"' ∧ Even (backslashes (body.take i))

instance (body : List Char) (i : Nat) : Decidable (Closes body i) :=
  inferInstanceAs (Decidable (_ ∧ _))

theorem backslashes_concat (front : List Char) (c : Char) :
    backslashes (front ++ [c]) = if c = '\\' then backslashes front + 1 else 0 := by
  simp only [backslashes, List.reverse_append, List.reverse_singleton, List.singleton_append,
    List.takeWhile_cons, beq_iff_eq]
  split <;> rfl

theorem Closes.lt_length {body : List Char} {i : Nat} (h : Closes body i) : i < body.length :=
  (List.getElem?_eq_some_iff.mp h.1).1

theorem closes_length_iff (front : List Char) (c : Char) (tail : List Char) :
    Closes (front ++ c :: tail) front.length ↔ c = '"' ∧ Even (backslashes front) := by
  unfold Closes
  rw [List.take_left, List.getElem?_append_right (Nat.le_refl _), Nat.sub_self,
    List.getElem?_cons_zero, Option.some.injEq]

example : ¬ Closes ['\\', '"', '\\', '\\', '"'] 1 ∧ Closes ['\\', '"', '\\', '\\', '"'] 4 := by
  decide

/-- The places at which a string may end: behind its first closing quote, or at the end of its line
if there is none. -/
inductive Ends (body : List Char) : Nat × Bool → Prop where
  | closed {i : Nat} (hcloses : Closes body i) (hfirst : ∀ j < i, ¬ Closes body j) :
      Ends body (i + 1, true)
  | unclosed (hnone : ∀ i, ¬ Closes body i) : Ends body (body.length, false)

theorem Ends.le_length {body : List Char} {n : Nat} {terminated : Bool}
    (h : Ends body (n, terminated)) : n ≤ body.length := by
  cases h with
  | closed hcloses _ => exact hcloses.lt_length
  | unclosed _ => exact Nat.le_refl _

/-! ## Reading a string -/

theorem stringBody_of_lineEnd (escaped : Bool) {post : List Char}
    (h : post = [] ∨ post.head? = some '\n') : stringBody escaped post = (0, false) := by
  rcases h with rfl | h
  · rfl
  · obtain ⟨rest, rfl⟩ := List.head?_eq_some_iff.mp h
    simp [stringBody]

theorem stringBody_quote (cs : List Char) : stringBody false ('"' :: cs) = (1, true) := by
  simp [stringBody]

theorem stringBody_cons {escaped : Bool} {c : Char} (hnewline : c ≠ '\n')
    (hquote : ¬ (c = '"' ∧ escaped = false)) (cs : List Char) :
    stringBody escaped (c :: cs) =
      ((stringBody (c = '\\' && !escaped) cs).1 + 1,
        (stringBody (c = '\\' && !escaped) cs).2) := by
  have hother : ¬ (decide (c = '"') && !escaped) = true := by simpa using hquote
  simp only [stringBody, if_neg hnewline, if_neg hother]

section Reading

variable {escaped : Bool} {front : List Char}

/-- What is kept of the text before a character: whether its backslashes are even in number. -/
theorem unescaped_concat_iff (h : escaped = false ↔ Even (backslashes front)) (c : Char) :
    (decide (c = '\\') && !escaped) = false ↔ Even (backslashes (front ++ [c])) := by
  rw [backslashes_concat]
  by_cases hc : c = '\\'
  · rw [if_pos hc, Nat.even_add_one, ← h]
    simp [hc]
  · simp [hc]

/-- Reading goes on behind `front`, in which no quote closes the string. -/
theorem ends_stringBody {tail post : List Char} (htail : '\n' ∉ tail)
    (hpost : post = [] ∨ post.head? = some '\n')
    (hescaped : escaped = false ↔ Even (backslashes front))
    (hopen : ∀ j < front.length, ¬ Closes (front ++ tail) j) :
    Ends (front ++ tail) (front.length + (stringBody escaped (tail ++ post)).1,
      (stringBody escaped (tail ++ post)).2) := by
  induction tail generalizing escaped front with
  | nil =>
      rw [List.append_nil] at hopen ⊢
      rw [List.nil_append, stringBody_of_lineEnd escaped hpost]
      apply Ends.unclosed
      intro i hi
      exact hopen i hi.lt_length hi
  | cons c tail ih =>
      rw [List.mem_cons, not_or] at htail
      have hcloses : Closes (front ++ c :: tail) front.length ↔ c = '"' ∧ escaped = false := by
        rw [closes_length_iff, hescaped]
      rw [List.cons_append]
      by_cases hquote : c = '"' ∧ escaped = false
      · have hclosed := Ends.closed (hcloses.mpr hquote) hopen
        obtain ⟨rfl, rfl⟩ := hquote
        rw [stringBody_quote]
        exact hclosed
      · -- The string goes on, and `c` joins the text in which no quote closes it.
        have hbody : front ++ c :: tail = (front ++ [c]) ++ tail := by simp
        have hnext : ∀ j < (front ++ [c]).length, ¬ Closes ((front ++ [c]) ++ tail) j := by
          intro j hj
          rw [List.length_append, List.length_singleton] at hj
          rw [← hbody]
          rcases Nat.lt_succ_iff_lt_or_eq.mp hj with hj | rfl
          · exact hopen j hj
          · exact mt hcloses.mp hquote
        have hends := ih htail.2 (unescaped_concat_iff hescaped c) hnext
        rw [List.length_append, List.length_singleton] at hends
        rw [stringBody_cons (Ne.symm htail.1) hquote, hbody, ← Nat.add_assoc, Nat.add_right_comm]
        exact hends

end Reading

/-! ## The strings of a source -/

theorem string_of_lexeme {c : Char} {cs : List Char} {terminated : Bool} {n : Nat}
    (h : lexeme c cs = (.string terminated, n)) :
    c = '"' ∧ stringBody false cs = (n, terminated) := by
  revert h
  refine lexeme_cases (motive := fun r => r = (.string terminated, n) →
    c = '"' ∧ stringBody false cs = (n, terminated)) c cs ?_ ?_ ?_ ?_
  · intro _ h
    cases h
  · intro _ h
    split at h <;> cases h
  · intro hc h
    cases h
    exact ⟨hc, rfl⟩
  · intro h
    have hkind := (Prod.mk.inj h).1
    unfold symbolKind at hkind
    split_ifs at hkind

end Token

open Text Token

/-- A string ends behind the first quote of its line that has an even number of backslashes right
before it, and then it is terminated; if there is no such quote, it ends with its line. -/
theorem tokenize_string_ends {source : List Char} {t : Token} {terminated : Bool}
    (ht : t ∈ tokenize source) (hkind : t.kind = .string terminated) :
    ∃ pre body post, source = pre ++ '"' :: (body ++ post) ∧ '\n' ∉ body ∧
      (post = [] ∨ post.head? = some '\n') ∧ t.span.start = byteLength pre ∧
      ((∃ i, Closes body i) → terminated = true ∧
        ∃ i, Closes body i ∧ (∀ j < i, ¬ Closes body j) ∧
          t.span.stop = byteLength (pre ++ '"' :: body.take (i + 1))) ∧
      ((¬ ∃ i, Closes body i) →
        terminated = false ∧ t.span.stop = byteLength (pre ++ '"' :: body)) := by
  obtain ⟨pre, c, text, rest, hsource, hspan, -, hlexeme⟩ := exists_lexeme_of_tokenize ht
  rw [hkind] at hlexeme
  obtain ⟨rfl, hstring⟩ := string_of_lexeme hlexeme
  obtain ⟨body, post, hcut, hbody, hpost⟩ := exists_restOfLine (text ++ rest)
  have hends := @ends_stringBody false [] body post hbody hpost (by simp [backslashes]) (by simp)
  rw [← hcut, hstring, List.nil_append, List.length_nil, Nat.zero_add] at hends
  have htext : body.take text.length = text := by
    rw [← List.take_append_of_le_length hends.le_length, ← hcut, List.take_left]
  refine ⟨pre, body, post, by rw [hsource, List.cons_append, hcut], hbody, hpost, by rw [hspan], ?_⟩
  generalize text.length = n at hends htext
  cases hends with
  | @closed i hcloses hfirst =>
      refine ⟨fun _ => ⟨rfl, i, hcloses, hfirst, ?_⟩, fun hnone => absurd ⟨i, hcloses⟩ hnone⟩
      rw [hspan, htext]
  | unclosed hnone =>
      refine ⟨fun ⟨i, hi⟩ => absurd hi (hnone i), fun _ => ⟨rfl, ?_⟩⟩
      rw [List.take_length] at htext
      rw [hspan, htext]

/-- Behind the opening quote stand an escaped quote, an escaped backslash and the closing quote. -/
def escapedText : List Char :=
  ['"', '\\', '"', '\\', '\\', '"', '→', '"']

theorem tokenize_string_ends_escapedText :
    ⟨.string true, ⟨0, 6⟩⟩ ∈ tokenize escapedText ∧
      ∃ pre body post, escapedText = pre ++ '"' :: (body ++ post) ∧ 0 = byteLength pre ∧
        ∃ i, Closes body i ∧ (∀ j < i, ¬ Closes body j) ∧
          6 = byteLength (pre ++ '"' :: body.take (i + 1)) := by
  have hmem : ⟨.string true, ⟨0, 6⟩⟩ ∈ tokenize escapedText := by
    decide +kernel
  obtain ⟨pre, body, post, hsource, -, -, hstart, hclosed, hopen⟩ := tokenize_string_ends hmem rfl
  refine ⟨hmem, pre, body, post, hsource, hstart, ?_⟩
  by_cases hcloses : ∃ i, Closes body i
  · exact (hclosed hcloses).2
  · exact absurd (hopen hcloses).1 (by decide)

end DiagramTint
