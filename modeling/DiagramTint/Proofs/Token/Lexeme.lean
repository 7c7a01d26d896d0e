import DiagramTint.Token
import Mathlib.Data.List.TakeWhile

/-!
# The first token of a text

A token is decided by its own characters and a look past them, of one character or of the two dashes
of an arrow.  What follows behind these does not matter to it.
-/

namespace DiagramTint

namespace Token

open Text

/-! ## Reading on behind the end of a text -/

theorem takeWhile_append_cases {p : Char → Bool} (cs ds : List Char) :
    (cs ++ ds).takeWhile p = cs.takeWhile p ∨
      cs.length < ((cs ++ ds).takeWhile p).length ∧ cs.takeWhile p = cs := by
  rw [List.takeWhile_append]
  split
  · rename_i hlength
    have hall : cs.takeWhile p = cs := (List.takeWhile_prefix p).eq_of_length hlength
    cases htail : ds.takeWhile p with
    | nil => exact Or.inl (by rw [List.append_nil, hall])
    | cons d tail => exact Or.inr ⟨by simp, hall⟩
  · exact Or.inl rfl

theorem stringBody_append_cases (escaped : Bool) (cs ds : List Char) :
    stringBody escaped (cs ++ ds) = stringBody escaped cs ∨
      cs.length < (stringBody escaped (cs ++ ds)).1 ∧ (stringBody escaped cs).1 = cs.length := by
  induction cs generalizing escaped with
  | nil =>
      cases ds with
      | nil => exact Or.inl rfl
      | cons d ds =>
          simp only [List.nil_append, stringBody]
          split
          · exact Or.inl rfl
          · split
            · exact Or.inr ⟨by simp, rfl⟩
            · exact Or.inr ⟨by simp, rfl⟩
  | cons c cs ih =>
      simp only [List.cons_append, stringBody]
      split
      · exact Or.inl rfl
      · split
        · exact Or.inl rfl
        · rcases ih (c = '\\' && !escaped) with hsame | ⟨hlong, hshort⟩
          · exact Or.inl (by rw [hsame])
          · exact Or.inr ⟨by simpa using hlong, by simpa using hshort⟩

theorem arrowTail_eq (c : Char) (cs : List Char) :
    arrowTail c cs =
      if (c = '-' ∧ cs.take 2 = ['-', '>']) ∨ (c = '<' ∧ cs.take 2 = ['-', '-']) then some 2
      else if (c = '-' ∧ cs.head? = some '>') ∨ (c = '<' ∧ cs.head? = some '-') then some 1
      else none := by
  have hcut : ∀ a b : Char, cs.take 2 = [a, b] → cs = a :: b :: cs.drop 2 := by
    intro a b h
    calc
      cs = cs.take 2 ++ cs.drop 2 := (List.take_append_drop 2 cs).symm
      _ = a :: b :: cs.drop 2 := by rw [h]; rfl
  unfold arrowTail
  split
  · simp
  · simp
  · simp
  · rename_i tail hdash
    have hshort : tail.take 1 ≠ ['-'] := by
      cases tail <;> simp_all
    simp [hshort]
  · rename_i hlong hback hright hleft
    rw [if_neg, if_neg]
    · rintro (⟨rfl, hhead⟩ | ⟨rfl, hhead⟩)
      · obtain ⟨tail, htail⟩ := List.head?_eq_some_iff.mp hhead
        exact hright tail rfl htail
      · obtain ⟨tail, htail⟩ := List.head?_eq_some_iff.mp hhead
        exact hleft tail rfl htail
    · rintro (⟨rfl, htake⟩ | ⟨rfl, htake⟩)
      · exact hlong _ rfl (hcut _ _ htake)
      · exact hback _ rfl (hcut _ _ htake)

theorem arrowTail_append_cases (c : Char) (cs ds : List Char) :
    arrowTail c (cs ++ ds) = arrowTail c cs ∨
      (∃ n, arrowTail c (cs ++ ds) = some n ∧ cs.length < n) ∧
        ∀ x ∈ cs.drop ((arrowTail c cs).getD 0), x = '-' := by
  rw [arrowTail_eq, arrowTail_eq]
  rcases cs with _ | ⟨x, _ | ⟨y, cs⟩⟩
  · grind
  · grind
  · left
    simp

/-- Where a comment starts. -/
def StartsComment (c : Char) (cs : List Char) : Prop :=
  c = '#' ∨ c = '/' ∧ cs.head? = some '/'

theorem lexeme_comment {c : Char} {cs : List Char} (h : StartsComment c cs) :
    lexeme c cs = (.lineComment, (cs.takeWhile (· != '\n')).length) := by
  unfold lexeme
  rw [if_pos (by simpa [StartsComment] using h)]

theorem lexeme_word {c : Char} (h : startsWord c = true) (cs : List Char) :
    lexeme c cs =
      (if c :: cs.takeWhile continuesWord = ['a', 'l', 'i', 'a', 's'] then .aliasKeyword
        else .identifier, (cs.takeWhile continuesWord).length) := by
  have hcomment : ¬ StartsComment c cs := by
    rintro (rfl | ⟨rfl, -⟩) <;> exact absurd h (by decide)
  unfold lexeme
  rw [if_neg (by simpa [StartsComment] using hcomment), if_pos h]

theorem lexeme_string (cs : List Char) :
    lexeme '"' cs = (.string (stringBody false cs).2, (stringBody false cs).1) := by
  unfold lexeme
  rw [if_neg (by simp), if_neg (by decide), if_pos rfl]

/-- The class of a token that is neither a comment nor a word nor a string, where `tail` says
whether it is an arrow. -/
def symbolKind (c : Char) (tail : Option Nat) : TokenKind :=
  if tail.isSome then .arrow
  else if c = '=' then .equals
  else if c = ':' then .colon
  else if c = ';' then .semicolon
  else .unknown

theorem symbolKind_ne (c : Char) (tail : Option Nat) :
    symbolKind c tail ≠ .lineComment ∧ symbolKind c tail ≠ .identifier ∧
      symbolKind c tail ≠ .aliasKeyword := by
  unfold symbolKind
  split_ifs <;> simp

theorem eq_semicolon_of_symbolKind {c : Char} {tail : Option Nat}
    (h : symbolKind c tail = .semicolon) : c = ';' := by
  unfold symbolKind at h
  split_ifs at h with harrow hequals hcolon hsemicolon
  exact hsemicolon

theorem lexeme_symbol {c : Char} {cs : List Char} (hcomment : ¬ StartsComment c cs)
    (hword : startsWord c = false) (hquote : c ≠ '"') :
    lexeme c cs = (symbolKind c (arrowTail c cs), (arrowTail c cs).getD 0) := by
  unfold lexeme
  rw [if_neg (by simpa [StartsComment] using hcomment), if_neg (by simp [hword]), if_neg hquote]
  cases arrowTail c cs with
  | some n => rfl
  | none =>
      simp only [symbolKind, Option.isSome_none, Bool.false_eq_true, if_false, Option.getD_none]
      split_ifs <;> rfl

/-- A text that goes on after `cs` has the same first token, unless that token runs past `cs`; then
`cs` has nothing after its own first token but possibly a dash. -/
theorem lexeme_append_cases (c : Char) (cs ds : List Char) :
    lexeme c (cs ++ ds) = lexeme c cs ∨
      cs.length < (lexeme c (cs ++ ds)).2 ∧ ∀ x ∈ cs.drop (lexeme c cs).2, x = '-' := by
  by_cases hlong : StartsComment c (cs ++ ds)
  · by_cases hshort : StartsComment c cs
    · rw [lexeme_comment hlong, lexeme_comment hshort]
      rcases takeWhile_append_cases (p := (· != '\n')) cs ds with hsame | ⟨hpast, hall⟩
      · exact Or.inl (by rw [hsame])
      · exact Or.inr ⟨hpast, by simp [hall]⟩
    · -- Only the second stroke of `//` is missing.
      have hcs : cs = [] := by
        cases cs with
        | nil => rfl
        | cons x cs => exact absurd hlong hshort
      subst hcs
      rw [lexeme_comment hlong]
      rcases hlong with rfl | ⟨-, hhead⟩
      · exact absurd (Or.inl rfl) hshort
      · obtain ⟨tail, rfl⟩ := List.head?_eq_some_iff.mp hhead
        exact Or.inr ⟨by simp, by simp⟩
  · have hshort : ¬ StartsComment c cs := by
      rintro (hc | ⟨hc, hhead⟩)
      · exact hlong (Or.inl hc)
      · exact hlong (Or.inr ⟨hc, by simp [hhead]⟩)
    by_cases hword : startsWord c = true
    · rw [lexeme_word hword, lexeme_word hword]
      rcases takeWhile_append_cases (p := continuesWord) cs ds with hsame | ⟨hpast, hall⟩
      · exact Or.inl (by rw [hsame])
      · exact Or.inr ⟨hpast, by simp [hall]⟩
    · by_cases hquote : c = '"'
      · subst hquote
        rw [lexeme_string, lexeme_string]
        rcases stringBody_append_cases false cs ds with hsame | ⟨hpast, hall⟩
        · exact Or.inl (by rw [hsame])
        · exact Or.inr ⟨hpast, by simp [hall]⟩
      · rw [lexeme_symbol hlong (by simpa using hword) hquote,
          lexeme_symbol hshort (by simpa using hword) hquote]
        rcases arrowTail_append_cases c cs ds with hsame | ⟨⟨n, hn, hpast⟩, hdash⟩
        · exact Or.inl (by rw [hsame])
        · exact Or.inr ⟨by simpa [hn] using hpast, hdash⟩

/-- The four ways in which a token is read. -/
@[elab_as_elim]
theorem lexeme_cases {motive : TokenKind × Nat → Prop} (c : Char) (cs : List Char)
    (comment : StartsComment c cs → motive (.lineComment, (cs.takeWhile (· != '\n')).length))
    (word : startsWord c = true → motive
      (if c :: cs.takeWhile continuesWord = ['a', 'l', 'i', 'a', 's'] then .aliasKeyword
        else .identifier, (cs.takeWhile continuesWord).length))
    (string : c = '"' → motive (.string (stringBody false cs).2, (stringBody false cs).1))
    (symbol : motive (symbolKind c (arrowTail c cs), (arrowTail c cs).getD 0)) :
    motive (lexeme c cs) := by
  by_cases hcomment : StartsComment c cs
  · rw [lexeme_comment hcomment]
    exact comment hcomment
  · by_cases hword : startsWord c = true
    · rw [lexeme_word hword]
      exact word hword
    · by_cases hquote : c = '"'
      · subst hquote
        rw [lexeme_string]
        exact string rfl
      · rw [lexeme_symbol hcomment (by simpa using hword) hquote]
        exact symbol

/-! ## The characters of a token -/

theorem stringBody_le_length (escaped : Bool) (cs : List Char) :
    (stringBody escaped cs).1 ≤ cs.length := by
  induction cs generalizing escaped with
  | nil => exact Nat.le_refl 0
  | cons c cs ih =>
      have hle := ih (c = '\\' && !escaped)
      simp only [stringBody, List.length_cons]
      split
      · omega
      · split
        · simp
        · simpa using hle

theorem arrowTail_take {c : Char} {cs : List Char} {n : Nat} (h : arrowTail c cs = some n) :
    n ≤ cs.length ∧ '\n' ∉ cs.take n := by
  rw [arrowTail_eq] at h
  rcases cs with _ | ⟨x, _ | ⟨y, cs⟩⟩
  · simp at h
  · grind
  · grind

theorem not_mem_take_stringBody (escaped : Bool) (cs : List Char) :
    '\n' ∉ cs.take (stringBody escaped cs).1 := by
  induction cs generalizing escaped with
  | nil => simp [stringBody]
  | cons c cs ih =>
      have htail := ih (c = '\\' && !escaped)
      simp only [stringBody]
      split
      · simp
      · rename_i hc
        split
        · simpa using Ne.symm hc
        · simpa using ⟨Ne.symm hc, htail⟩

theorem take_length_takeWhile {p : Char → Bool} (cs : List Char) :
    cs.take (cs.takeWhile p).length = cs.takeWhile p :=
  (List.prefix_iff_eq_take.mp (List.takeWhile_prefix p)).symm

theorem lexeme_le_length (c : Char) (cs : List Char) : (lexeme c cs).2 ≤ cs.length := by
  refine lexeme_cases (motive := fun r => r.2 ≤ cs.length) c cs ?_ ?_ ?_ ?_
  · intro _
    exact (List.takeWhile_prefix _).length_le
  · intro _
    exact (List.takeWhile_prefix _).length_le
  · intro _
    exact stringBody_le_length false cs
  · cases htail : arrowTail c cs with
    | none => exact Nat.zero_le _
    | some n => exact (arrowTail_take htail).1

theorem newline_not_mem_lexeme (c : Char) (cs : List Char) :
    '\n' ∉ cs.take (lexeme c cs).2 := by
  refine lexeme_cases (motive := fun r => '\n' ∉ cs.take r.2) c cs ?_ ?_ ?_ ?_
  · intro _
    rw [take_length_takeWhile]
    intro hmem
    exact absurd (List.mem_takeWhile_imp hmem) (by decide)
  · intro _
    rw [take_length_takeWhile]
    intro hmem
    exact absurd (List.mem_takeWhile_imp hmem) (by decide)
  · intro _
    exact not_mem_take_stringBody false cs
  · cases htail : arrowTail c cs with
    | none => simp
    | some n => exact (arrowTail_take htail).2

theorem newline_not_mem_of_lexeme {c : Char} {text rest : List Char} {kind : TokenKind}
    (h : lexeme c (text ++ rest) = (kind, text.length)) : '\n' ∉ text := by
  have hnewline := newline_not_mem_lexeme c (text ++ rest)
  rwa [h, List.take_left] at hnewline

/-! ## Semicolons, comments and words -/

theorem lexeme_eq_semicolon (cs : List Char) : lexeme ';' cs = (.semicolon, 0) := by
  have htail : arrowTail ';' cs = none := by
    simp [arrowTail_eq]
  rw [lexeme_symbol (by simp [StartsComment]) (by decide) (by decide), htail]
  rfl

theorem eq_semicolon_of_lexeme {c : Char} {cs : List Char} (h : (lexeme c cs).1 = .semicolon) :
    c = ';' := by
  revert h
  refine lexeme_cases (motive := fun r => r.1 = .semicolon → c = ';') c cs ?_ ?_ ?_ ?_
  · intro _ h
    cases h
  · intro _ h
    split at h <;> cases h
  · intro _ h
    cases h
  · exact eq_semicolon_of_symbolKind

theorem startsWord_of_lexeme {c : Char} {cs : List Char}
    (h : (lexeme c cs).1 = .identifier ∨ (lexeme c cs).1 = .aliasKeyword) :
    startsWord c = true := by
  revert h
  refine lexeme_cases
    (motive := fun r => r.1 = .identifier ∨ r.1 = .aliasKeyword → startsWord c = true) c cs
    ?_ ?_ ?_ ?_
  · intro _ h
    simp at h
  · intro hword _
    exact hword
  · intro _ h
    simp at h
  · intro h
    simp [symbolKind_ne] at h

theorem not_of_length_takeWhile {p : Char → Bool} {text rest : List Char} {d : Char}
    (h : ((text ++ d :: rest).takeWhile p).length = text.length) : p d = false := by
  rw [List.takeWhile_append] at h
  split at h
  · rw [List.takeWhile_cons] at h
    by_contra hd
    simp [hd] at h
  · contradiction

theorem newline_of_comment {c d : Char} {text rest : List Char}
    (h : lexeme c (text ++ d :: rest) = (.lineComment, text.length)) : d = '\n' := by
  revert h
  refine lexeme_cases (motive := fun r => r = (.lineComment, text.length) → d = '\n') c
    (text ++ d :: rest) ?_ ?_ ?_ ?_
  · intro _ h
    simpa using not_of_length_takeWhile (Prod.mk.inj h).2
  · intro _ h
    split at h <;> cases h
  · intro _ h
    cases h
  · intro h
    simp [symbolKind_ne] at h

theorem not_continuesWord_of_word {c d : Char} {text rest : List Char} {kind : TokenKind}
    (hkind : kind = .identifier ∨ kind = .aliasKeyword)
    (h : lexeme c (text ++ d :: rest) = (kind, text.length)) : continuesWord d = false := by
  have hword : startsWord c = true := startsWord_of_lexeme (by rw [h]; exact hkind)
  rw [lexeme_word hword] at h
  exact not_of_length_takeWhile (Prod.mk.inj h).2

/-- Of two tokens that touch, not both are comments and not both are words of one class. -/
theorem kind_of_touching {c d : Char} {text rest : List Char} {kind : TokenKind}
    (h : lexeme c (text ++ d :: rest) = (kind, text.length)) (hd : isBlank d = false)
    (hnext : (lexeme d rest).1 = kind) :
    kind ≠ .lineComment ∧ kind ≠ .identifier ∧ kind ≠ .aliasKeyword := by
  have hword : ¬ (kind = .identifier ∨ kind = .aliasKeyword) := by
    intro hkind
    have hends := not_continuesWord_of_word hkind h
    have hstarts : startsWord d = true := startsWord_of_lexeme (by rw [hnext]; exact hkind)
    simp only [startsWord, continuesWord, Char.isAlphanum] at hends hstarts
    simp_all
  refine ⟨?_, fun hkind => hword (Or.inl hkind), fun hkind => hword (Or.inr hkind)⟩
  rintro rfl
  rw [newline_of_comment h] at hd
  exact absurd hd (by decide)

end Token

end DiagramTint
