import DiagramTint.Proofs.Token.Touching

/-!
# Classes of tokens

Which texts are tokens of a class, said without the scan: by their characters and by what follows
them in the source.  Every token of a source is such a text, unless it is a single character at
which no class starts.
-/

namespace DiagramTint

namespace Token

open Text

/-- The characters `[A-Za-z_]`. -/
def IsLetter (c : Char) : Prop :=
  ('A' ≤ c ∧ c ≤ 'Z') ∨ ('a' ≤ c ∧ c ≤ 'z') ∨ c = '_'

/-- The characters `[A-Za-z0-9_]`. -/
def InWord (c : Char) : Prop :=
  IsLetter c ∨ ('0' ≤ c ∧ c ≤ '9')

/-- The texts of each class in front of what follows them.  The class `unknown` has none. -/
inductive Forms : TokenKind → List Char → List Char → Prop where
  | hash {text post : List Char} (hline : '\n' ∉ text)
      (hend : post = [] ∨ post.head? = some '\n') : Forms .lineComment ('#' :: text) post
  | strokes {text post : List Char} (hline : '\n' ∉ text)
      (hend : post = [] ∨ post.head? = some '\n') : Forms .lineComment ('/' :: '/' :: text) post
  | identifier {c : Char} {text post : List Char} (hfirst : IsLetter c)
      (hrest : ∀ d ∈ text, InWord d) (hkeyword : c :: text ≠ ['a', 'l', 'i', 'a', 's'])
      (hend : ∀ d ∈ post.head?, ¬ InWord d) : Forms .identifier (c :: text) post
  | keyword {post : List Char} (hend : ∀ d ∈ post.head?, ¬ InWord d) :
      Forms .aliasKeyword ['a', 'l', 'i', 'a', 's'] post
  | string (terminated : Bool) {text post : List Char} (hline : '\n' ∉ text) :
      Forms (.string terminated) ('"' :: text) post
  | right {post : List Char} : Forms .arrow ['-', '>'] post
  | longRight {post : List Char} : Forms .arrow ['-', '-', '>'] post
  | left {post : List Char} (hend : post.head? ≠ some '-') : Forms .arrow ['<', '-'] post
  | longLeft {post : List Char} : Forms .arrow ['<', '-', '-'] post
  | equals {post : List Char} : Forms .equals ['='] post
  | colon {post : List Char} : Forms .colon [':'] post
  | semicolon {post : List Char} : Forms .semicolon [';'] post

theorem between_iff (lo hi c : Char) :
    (decide (c.val ≥ lo.val) && decide (c.val ≤ hi.val)) = true ↔ lo ≤ c ∧ c ≤ hi := by
  rw [Bool.and_eq_true, decide_eq_true_iff, decide_eq_true_iff]
  rfl

theorem startsWord_iff (c : Char) : startsWord c = true ↔ IsLetter c := by
  have hupper : c.isUpper = true ↔ 'A' ≤ c ∧ c ≤ 'Z' := decide_eq_true_iff
  have hlower : c.isLower = true ↔ 'a' ≤ c ∧ c ≤ 'z' := between_iff 'a' 'z' c
  change ((c.isUpper || c.isLower) || c == '_') = true ↔ _
  rw [Bool.or_eq_true, Bool.or_eq_true, hupper, hlower, beq_iff_eq, or_assoc]
  rfl

theorem continuesWord_iff (c : Char) : continuesWord c = true ↔ InWord c := by
  have hdigit : c.isDigit = true ↔ '0' ≤ c ∧ c ≤ '9' := between_iff '0' '9' c
  change ((c.isAlpha || c.isDigit) || c == '_') = true ↔ _
  rw [InWord, ← startsWord_iff, ← hdigit, startsWord, Bool.or_eq_true, Bool.or_eq_true,
    Bool.or_eq_true, or_right_comm]

/-! ## Each class is read as its texts -/

theorem forms_comment {c : Char} {text post : List Char} (hstarts : StartsComment c (text ++ post))
    (h : lexeme c (text ++ post) = (.lineComment, text.length)) :
    Forms .lineComment (c :: text) post := by
  have hline := newline_not_mem_of_lexeme h
  have hend : post = [] ∨ post.head? = some '\n' := by
    cases post with
    | nil => exact Or.inl rfl
    | cons d rest => exact Or.inr (by rw [newline_of_comment h]; rfl)
  rw [lexeme_comment hstarts] at h
  rcases hstarts with rfl | ⟨rfl, hhead⟩
  · exact Forms.hash hline hend
  · cases text with
    | nil =>
        -- The second stroke is never left behind.
        obtain ⟨rest, hrest⟩ := List.head?_eq_some_iff.mp hhead
        rw [hrest] at h
        simp at h
    | cons d text =>
        obtain rfl : d = '/' := by simpa using hhead
        exact Forms.strokes (fun hmem => hline (List.mem_cons_of_mem _ hmem)) hend

theorem forms_word {c : Char} {text post : List Char} {kind : TokenKind}
    (hword : startsWord c = true) (h : lexeme c (text ++ post) = (kind, text.length)) :
    Forms kind (c :: text) post := by
  rw [lexeme_word hword, Prod.mk.injEq] at h
  obtain ⟨rfl, hlength⟩ := h
  have htext : (text ++ post).takeWhile continuesWord = text := by
    rw [← take_length_takeWhile, hlength, List.take_left]
  have hrest : ∀ d ∈ text, InWord d := by
    intro d hd
    rw [← htext] at hd
    exact (continuesWord_iff d).mp (List.mem_takeWhile_imp hd)
  have hend : ∀ d ∈ post.head?, ¬ InWord d := by
    intro d hd
    obtain ⟨rest, rfl⟩ := List.head?_eq_some_iff.mp hd
    rw [← continuesWord_iff, not_of_length_takeWhile hlength]
    decide
  rw [htext]
  split
  · rename_i hkeyword
    rw [hkeyword]
    exact Forms.keyword hend
  · rename_i hkeyword
    exact Forms.identifier ((startsWord_iff c).mp hword) hrest hkeyword hend

theorem forms_arrow {c : Char} {cs : List Char} {n : Nat} (h : arrowTail c cs = some n) :
    Forms .arrow (c :: cs.take n) (cs.drop n) := by
  unfold arrowTail at h
  split at h
  · cases h
    exact Forms.longRight
  · cases h
    exact Forms.longLeft
  · cases h
    exact Forms.right
  · rename_i tail hshort
    cases h
    apply Forms.left
    -- With another dash the longer arrow would have been read.
    intro hhead
    obtain ⟨rest, hrest⟩ := List.head?_eq_some_iff.mp hhead
    exact hshort rest hrest
  · cases h

theorem forms_symbol {c : Char} {text post : List Char} {kind : TokenKind} (hkind : kind ≠ .unknown)
    (h : (symbolKind c (arrowTail c (text ++ post)), (arrowTail c (text ++ post)).getD 0) =
      (kind, text.length)) : Forms kind (c :: text) post := by
  cases htail : arrowTail c (text ++ post) with
  | some n =>
      simp only [htail, symbolKind, Option.isSome_some, if_true, Option.getD_some,
        Prod.mk.injEq] at h
      obtain ⟨rfl, rfl⟩ := h
      have hforms := forms_arrow htail
      rwa [List.take_left, List.drop_left] at hforms
  | none =>
      rw [htail, Prod.mk.injEq] at h
      obtain ⟨rfl, hlength⟩ := h
      obtain rfl : text = [] := List.eq_nil_of_length_eq_zero hlength.symm
      unfold symbolKind at hkind ⊢
      split_ifs at hkind ⊢ with hsome hequals hcolon hsemicolon
      · exact absurd hsome (by decide)
      · rw [hequals]
        exact Forms.equals
      · rw [hcolon]
        exact Forms.colon
      · rw [hsemicolon]
        exact Forms.semicolon
      · exact absurd rfl hkind

theorem forms_of_lexeme {c : Char} {text post : List Char} {kind : TokenKind}
    (hkind : kind ≠ .unknown) (h : lexeme c (text ++ post) = (kind, text.length)) :
    Forms kind (c :: text) post := by
  by_cases hcomment : StartsComment c (text ++ post)
  · obtain rfl : kind = .lineComment := by
      rw [lexeme_comment hcomment] at h
      exact (Prod.mk.inj h).1.symm
    exact forms_comment hcomment h
  · by_cases hword : startsWord c = true
    · exact forms_word hword h
    · by_cases hquote : c = '"'
      · subst hquote
        have hline := newline_not_mem_of_lexeme h
        rw [lexeme_string] at h
        rw [← (Prod.mk.inj h).1]
        exact Forms.string _ hline
      · rw [lexeme_symbol hcomment (by simpa using hword) hquote] at h
        exact forms_symbol hkind h

/-! ## Where no class starts -/

theorem symbolKind_ne_unknown {c : Char} {tail : Option Nat}
    (h : tail.isSome = true ∨ c = '=' ∨ c = ':' ∨ c = ';') : symbolKind c tail ≠ .unknown := by
  unfold symbolKind
  split_ifs <;> simp_all

/-- Where a class starts, the token is not `unknown`. -/
theorem Forms.lexeme_ne_unknown {kind : TokenKind} {text post cs : List Char} {c : Char}
    (h : Forms kind text post) (hcut : text ++ post = c :: cs) : (lexeme c cs).1 ≠ .unknown := by
  have hword : startsWord c = true → (lexeme c cs).1 ≠ .unknown := by
    intro hword
    rw [lexeme_word hword]
    split <;> simp
  have hsymbol : ¬ StartsComment c cs → startsWord c = false → c ≠ '"' →
      ((arrowTail c cs).isSome = true ∨ c = '=' ∨ c = ':' ∨ c = ';') →
      (lexeme c cs).1 ≠ .unknown := by
    intro hcomment hstart hquote hmark
    rw [lexeme_symbol hcomment hstart hquote]
    exact symbolKind_ne_unknown hmark
  cases h with
  | hash hline hend =>
      obtain ⟨rfl, -⟩ := List.cons.inj hcut
      rw [lexeme_comment (Or.inl rfl)]
      simp
  | strokes hline hend =>
      obtain ⟨rfl, rfl⟩ := List.cons.inj hcut
      rw [lexeme_comment (Or.inr ⟨rfl, rfl⟩)]
      simp
  | identifier hfirst hrest hkeyword hend =>
      obtain ⟨rfl, -⟩ := List.cons.inj hcut
      exact hword ((startsWord_iff _).mpr hfirst)
  | keyword hend =>
      obtain ⟨rfl, -⟩ := List.cons.inj hcut
      exact hword (by decide)
  | string terminated hline =>
      obtain ⟨rfl, -⟩ := List.cons.inj hcut
      rw [lexeme_string]
      simp
  | left hend =>
      obtain ⟨rfl, rfl⟩ := List.cons.inj hcut
      refine hsymbol (by simp [StartsComment]) (by decide) (by decide) (Or.inl ?_)
      rw [arrowTail_eq]
      split <;> simp
  | right | longRight | longLeft | equals | colon | semicolon =>
      obtain ⟨rfl, rfl⟩ := List.cons.inj hcut
      refine hsymbol (by simp [StartsComment]) (by decide) (by decide) ?_
      simp [arrowTail_eq]

theorem eq_zero_of_unknown {c : Char} {cs : List Char} {n : Nat}
    (h : lexeme c cs = (.unknown, n)) : n = 0 := by
  revert h
  refine lexeme_cases (motive := fun r => r = (.unknown, n) → n = 0) c cs ?_ ?_ ?_ ?_
  · intro _ h
    cases h
  · intro _ h
    split at h <;> cases h
  · intro _ h
    cases h
  · intro h
    obtain ⟨hkind, hlength⟩ := Prod.mk.inj h
    cases htail : arrowTail c cs with
    | some m => exact absurd hkind (symbolKind_ne_unknown (Or.inl (by rw [htail]; rfl)))
    | none => rw [← hlength, htail, Option.getD_none]

end Token

open Text Token

/-- A token of a source is a text of its class in front of what follows it, or it is `unknown` and
a single character at which no class starts. -/
theorem tokenize_forms {source : List Char} {t : Token} (h : t ∈ tokenize source) :
    ∃ pre text post, source = pre ++ (text ++ post) ∧
      t.span = ⟨byteLength pre, byteLength (pre ++ text)⟩ ∧
      (Forms t.kind text post ∨
        t.kind = .unknown ∧ text.length = 1 ∧
          ∀ kind front back, text ++ post = front ++ back → ¬ Forms kind front back) := by
  obtain ⟨pre, c, text, post, hsource, hspan, -, hlexeme⟩ := exists_lexeme_of_tokenize h
  refine ⟨pre, c :: text, post, hsource, hspan, ?_⟩
  by_cases hkind : t.kind = .unknown
  · right
    rw [hkind] at hlexeme
    refine ⟨hkind, by rw [List.length_cons, eq_zero_of_unknown hlexeme], ?_⟩
    intro kind front back hcut hforms
    exact hforms.lexeme_ne_unknown hcut.symm (congrArg Prod.fst hlexeme)
  · exact Or.inl (forms_of_lexeme hkind hlexeme)

/-- A dash that begins no arrow, an arrow that takes in the dash after it, and a word that only
begins like the keyword. -/
def nearMissText : List Char :=
  ['-', '<', '-', '-', 'a', 'l', 'i', 'a', 's', '1']

theorem tokenize_forms_nearMissText :
    ⟨.unknown, ⟨0, 1⟩⟩ ∈ tokenize nearMissText ∧
      ∃ pre text post, nearMissText = pre ++ (text ++ post) ∧
        ⟨0, 1⟩ = (⟨byteLength pre, byteLength (pre ++ text)⟩ : Span) ∧ text.length = 1 ∧
        ∀ kind front back, text ++ post = front ++ back → ¬ Forms kind front back := by
  have hmem : ⟨.unknown, ⟨0, 1⟩⟩ ∈ tokenize nearMissText := by
    decide +kernel
  obtain ⟨pre, text, post, hsource, hspan, hforms | ⟨-, hunknown⟩⟩ := tokenize_forms hmem
  · cases hforms
  · exact ⟨hmem, pre, text, post, hsource, hspan, hunknown⟩

end DiagramTint
