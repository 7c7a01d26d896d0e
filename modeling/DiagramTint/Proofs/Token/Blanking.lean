import DiagramTint.Proofs.Token.Touching
import DiagramTint.Proofs.Tree.Nesting

/-!
# Tokens of a text with its comments covered

If every byte of every comment is replaced by a space, the other tokens stay as they are and where
they are.  A token looks at most two characters past its own end, and where it looks at a comment it
sees a mark that it cannot use, as it cannot use the space in its place.
-/

namespace DiagramTint

namespace Text

/-- A text in which every character that starts at a byte of `p` is replaced by spaces, one for each
of its bytes; the text itself starts at byte `pos`. -/
def cover (p : Nat → Bool) (pos : Nat) : List Char → List Char
  | [] => []
  | c :: cs =>
    (if p pos then List.replicate c.utf8Size ' ' else [c]) ++ cover p (pos + c.utf8Size) cs

theorem byteLength_replicate_space (n : Nat) : byteLength (List.replicate n ' ') = n := by
  induction n with
  | zero => rfl
  | succ n ih =>
      rw [List.replicate_succ, byteLength_cons, ih, Nat.add_comm]
      rfl

section Cover

variable {p : Nat → Bool} {pos : Nat}

@[simp]
theorem byteLength_cover (p : Nat → Bool) (pos : Nat) (cs : List Char) :
    byteLength (cover p pos cs) = byteLength cs := by
  induction cs generalizing pos with
  | nil => rfl
  | cons c cs ih =>
      rw [cover, byteLength_append, ih, byteLength_cons]
      split
      · rw [byteLength_replicate_space]
      · rw [byteLength_cons, byteLength_nil, Nat.add_zero]

theorem cover_append (p : Nat → Bool) (pos : Nat) (xs ys : List Char) :
    cover p pos (xs ++ ys) = cover p pos xs ++ cover p (pos + byteLength xs) ys := by
  induction xs generalizing pos with
  | nil => rfl
  | cons c xs ih =>
      rw [List.cons_append, cover, ih, cover, byteLength_cons, List.append_assoc, Nat.add_assoc]

theorem cover_eq_self {cs : List Char}
    (h : ∀ byte, pos ≤ byte → byte < pos + byteLength cs → p byte = false) :
    cover p pos cs = cs := by
  induction cs generalizing pos with
  | nil => rfl
  | cons c cs ih =>
      have hsize := c.utf8Size_pos
      rw [byteLength_cons] at h
      rw [cover, h pos (by omega) (by omega), ih fun byte hlo hhi => h byte (by omega) (by omega)]
      rfl

theorem cover_eq_replicate {cs : List Char}
    (h : ∀ byte, pos ≤ byte → byte < pos + byteLength cs → p byte = true) :
    cover p pos cs = List.replicate (byteLength cs) ' ' := by
  induction cs generalizing pos with
  | nil => rfl
  | cons c cs ih =>
      have hsize := c.utf8Size_pos
      rw [byteLength_cons] at h
      rw [cover, h pos (by omega) (by omega), ih fun byte hlo hhi => h byte (by omega) (by omega),
        if_pos rfl, byteLength_cons, List.replicate_append_replicate]

end Cover

end Text

namespace Token

open Text

/-! ## Looking at covered text -/

/-- The two characters with which comments start, and the space that covers them. -/
def IsMark (c : Char) : Prop :=
  c = '#' ∨ c = '/' ∨ c = ' '

instance (c : Char) : Decidable (IsMark c) :=
  inferInstanceAs (Decidable (_ ∨ _))

/-- Two texts that are the same up to a place, if any, where the one has the start of a comment and
the other a space. -/
inductive Veils : List Char → List Char → Prop where
  | nil : Veils [] []
  | keep {cs ds : List Char} (c : Char) (h : Veils cs ds) : Veils (c :: cs) (c :: ds)
  | cover {c : Char} (cs ds : List Char) (hc : c = '#' ∨ c = '/') : Veils (c :: cs) (' ' :: ds)

theorem stringBody_pos {c : Char} (h : c ≠ '\n') (escaped : Bool) (cs : List Char) :
    0 < (stringBody escaped (c :: cs)).1 := by
  simp only [stringBody, if_neg h]
  split
  · exact Nat.one_pos
  · exact Nat.succ_pos _

section Veils

variable {cs ds : List Char}

theorem Veils.append_left (h : Veils cs ds) (text : List Char) :
    Veils (text ++ cs) (text ++ ds) := by
  induction text with
  | nil => exact h
  | cons c text ih => exact ih.keep c

theorem Veils.takeWhile_eq {p : Char → Bool} (h : Veils cs ds)
    (hp : ∀ c, IsMark c → p c = false) : ds.takeWhile p = cs.takeWhile p := by
  induction h with
  | nil => rfl
  | keep c h ih => rw [List.takeWhile_cons, List.takeWhile_cons, ih]
  | @cover c cs ds hc =>
      have hmark : p c = false := hp c (hc.imp_right Or.inl)
      have hspace : p ' ' = false := hp ' ' (Or.inr (Or.inr rfl))
      rw [List.takeWhile_cons_of_neg (by simp [hspace]),
        List.takeWhile_cons_of_neg (by simp [hmark])]

theorem Veils.head?_of_stroke (h : Veils cs ds) (hhead : ds.head? = some '/') :
    cs.head? = some '/' := by
  cases h with
  | nil => exact hhead
  | keep c h => exact hhead
  | cover cs ds hc => simp at hhead

theorem Veils.head?_iff (h : Veils cs ds) {a : Char} (ha : ¬ IsMark a) :
    ds.head? = some a ↔ cs.head? = some a := by
  cases h with
  | nil => exact Iff.rfl
  | keep c h => exact Iff.rfl
  | @cover c cs ds hc =>
      have hmark : c ≠ a := fun heq => ha (heq ▸ hc.imp_right Or.inl)
      have hspace : ' ' ≠ a := fun heq => ha (Or.inr (Or.inr heq.symm))
      simp [hmark, hspace]

theorem Veils.take_iff (h : Veils cs ds) {a b : Char} (ha : ¬ IsMark a) (hb : ¬ IsMark b) :
    ds.take 2 = [a, b] ↔ cs.take 2 = [a, b] := by
  have hfirst := h.head?_iff ha
  have hone : ∀ xs : List Char, xs.take 1 = [b] ↔ xs.head? = some b := by
    intro xs
    cases xs <;> simp
  cases h with
  | nil => exact Iff.rfl
  | keep c h => simp [hone, h.head?_iff hb]
  | cover cs ds hc =>
      rw [List.head?_cons, List.head?_cons, Option.some.injEq, Option.some.injEq] at hfirst
      have hspace : ' ' ≠ a := fun heq => ha (Or.inr (Or.inr heq.symm))
      simp [← hfirst, hspace]

theorem Veils.arrowTail_eq (h : Veils cs ds) (c : Char) : arrowTail c ds = arrowTail c cs := by
  have hdash : ¬ IsMark '-' := by decide
  have hpoint : ¬ IsMark '>' := by decide
  rw [Token.arrowTail_eq, Token.arrowTail_eq]
  simp only [h.take_iff hdash hpoint, h.take_iff hdash hdash, h.head?_iff hpoint,
    h.head?_iff hdash]

/-- A string is closed before the texts differ, or its line ends in both. -/
theorem Veils.stringBody_eq (h : Veils cs ds) {escaped terminated : Bool} {text : List Char}
    (hbody : stringBody escaped (text ++ cs) = (text.length, terminated)) :
    stringBody escaped (text ++ ds) = (text.length, terminated) := by
  induction text generalizing escaped with
  | nil =>
      rw [List.nil_append] at hbody ⊢
      cases h with
      | nil => exact hbody
      | @keep cs ds c h =>
          by_cases hc : c = '\n'
          · simpa [stringBody, hc] using hbody
          · have hpos := stringBody_pos hc escaped cs
            rw [hbody] at hpos
            cases hpos
      | @cover c cs ds hc =>
          have hne : c ≠ '\n' := by rcases hc with rfl | rfl <;> decide
          have hpos := stringBody_pos hne escaped cs
          rw [hbody] at hpos
          cases hpos
  | cons c text ih =>
      simp only [List.cons_append, stringBody, List.length_cons] at hbody ⊢
      split at hbody
      · cases hbody
      · split at hbody
        · rename_i hnewline hquote
          rw [if_neg hnewline, if_pos hquote]
          exact hbody
        · rename_i hnewline hquote
          obtain ⟨hlength, hterminated⟩ := Prod.mk.inj hbody
          have hinner := ih (Prod.ext (Nat.succ.inj hlength) hterminated)
          rw [if_neg hnewline, if_neg hquote, hinner]

/-- A token other than a comment is the same in front of covered text. -/
theorem Veils.lexeme_eq (h : Veils cs ds) {c : Char} {text : List Char} {kind : TokenKind}
    (hkind : kind ≠ .lineComment) (hlexeme : lexeme c (text ++ cs) = (kind, text.length)) :
    lexeme c (text ++ ds) = (kind, text.length) := by
  have hwhole := h.append_left text
  have hcomment : ¬ StartsComment c (text ++ cs) := by
    intro hstarts
    rw [lexeme_comment hstarts, Prod.mk.injEq] at hlexeme
    exact hkind hlexeme.1.symm
  have hcomment' : ¬ StartsComment c (text ++ ds) := by
    rintro (hc | ⟨hc, hhead⟩)
    · exact hcomment (Or.inl hc)
    · exact hcomment (Or.inr ⟨hc, hwhole.head?_of_stroke hhead⟩)
  by_cases hword : startsWord c = true
  · rw [lexeme_word hword] at hlexeme ⊢
    rwa [hwhole.takeWhile_eq (by rintro _ (rfl | rfl | rfl) <;> decide)]
  · by_cases hquote : c = '"'
    · subst hquote
      rw [lexeme_string, Prod.mk.injEq] at hlexeme
      have hbody := h.stringBody_eq (Prod.ext hlexeme.2 rfl)
      rw [lexeme_string, hbody, hlexeme.1]
    · rw [lexeme_symbol hcomment (by simpa using hword) hquote] at hlexeme
      rw [lexeme_symbol hcomment' (by simpa using hword) hquote, hwhole.arrowTail_eq, hlexeme]

end Veils

/-! ## All tokens -/

theorem startsComment_of_lexeme {c : Char} {cs : List Char} (h : (lexeme c cs).1 = .lineComment) :
    StartsComment c cs := by
  revert h
  refine lexeme_cases (motive := fun r => r.1 = .lineComment → StartsComment c cs) c cs ?_ ?_ ?_ ?_
  · exact fun hcomment _ => hcomment
  · intro _ h
    split at h <;> cases h
  · intro _ h
    cases h
  · intro h
    exact absurd h (symbolKind_ne c _).1

theorem scan_spaces (n pos : Nat) (cs : List Char) :
    scan pos (List.replicate n ' ' ++ cs) = scan (pos + n) cs := by
  induction n generalizing pos with
  | zero => rfl
  | succ n ih =>
      rw [List.replicate_succ, List.cons_append, scan_blank (by decide), ih, Nat.add_assoc,
        Nat.add_comm n]
      rfl

/-- The bytes that belong to comments among some tokens. -/
def InComment (tokens : List Token) (byte : Nat) : Prop :=
  ∃ t ∈ tokens, t.kind = .lineComment ∧ t.span.Contains byte

instance (tokens : List Token) (byte : Nat) : Decidable (InComment tokens byte) :=
  inferInstanceAs (Decidable (∃ t ∈ tokens, _))

/-- No token of a text covers a byte before the text. -/
theorem not_inComment_scan {pos byte : Nat} {cs : List Char} (h : byte < pos) :
    ¬ InComment (scan pos cs) byte := by
  rintro ⟨t, ht, -, hstart, -⟩
  obtain ⟨pre, c, text, post, -, hspan, -, -⟩ := exists_lexeme ht
  rw [hspan] at hstart
  dsimp only at hstart
  omega

theorem inComment_cons {t : Token} {tokens : List Token} {byte : Nat} :
    InComment (t :: tokens) byte ↔
      (t.kind = .lineComment ∧ t.span.Contains byte) ∨ InComment tokens byte := by
  simp only [InComment, List.mem_cons, exists_eq_or_imp]

/-- Covering the comments of a text leaves its other tokens.  The first conclusion is for the token
in front of the text, which may look into it. -/
theorem scan_cover {p : Nat → Bool} {pos : Nat} {cs : List Char}
    (hp : ∀ byte, pos ≤ byte → (p byte = true ↔ InComment (scan pos cs) byte)) :
    Veils cs (cover p pos cs) ∧
      scan pos (cover p pos cs) = (scan pos cs).filter fun t => t.kind ≠ .lineComment := by
  induction pos, cs using scanInduction with
  | nil pos => exact ⟨.nil, by simp [cover]⟩
  | blank pos c cs hblank ih =>
      have hsize := c.utf8Size_pos
      rw [scan_blank hblank] at hp ⊢
      obtain ⟨hveils, hscan⟩ := ih fun byte hbyte => hp byte (by omega)
      have hnot : p pos = false := by
        rw [Bool.eq_false_iff, ne_eq, hp pos (Nat.le_refl pos)]
        exact not_inComment_scan (by omega)
      rw [cover, hnot]
      refine ⟨hveils.keep c, ?_⟩
      exact (scan_blank hblank pos _).trans hscan
  | token pos c text rest kind hblank hlexeme ih =>
      rw [scan_token hblank hlexeme] at hp ⊢
      have hlater : ∀ byte, pos + byteLength (c :: text) ≤ byte →
          (p byte = true ↔ InComment (scan (pos + byteLength (c :: text)) rest) byte) := by
        intro byte hbyte
        rw [hp byte (by omega), inComment_cons, or_iff_right]
        rintro ⟨-, -, hstop⟩
        exact Nat.not_le.mpr hstop hbyte
      have hhere : ∀ byte, pos ≤ byte → byte < pos + byteLength (c :: text) →
          (p byte = true ↔ kind = .lineComment) := by
        intro byte hlo hhi
        rw [hp byte hlo, inComment_cons, or_iff_left (not_inComment_scan hhi)]
        exact and_iff_left ⟨hlo, hhi⟩
      obtain ⟨hveils, hscan⟩ := ih hlater
      have hsplit : c :: (text ++ rest) = (c :: text) ++ rest := rfl
      rw [hsplit, cover_append]
      by_cases hkind : kind = .lineComment
      · have hspaces : cover p pos (c :: text) = List.replicate (byteLength (c :: text)) ' ' :=
          cover_eq_replicate fun byte hlo hhi => (hhere byte hlo hhi).mpr hkind
        have hmark : c = '#' ∨ c = '/' :=
          (startsComment_of_lexeme ((congrArg Prod.fst hlexeme).trans hkind)).imp_right And.left
        have hpos : 0 < byteLength (c :: text) := by
          have hsize := c.utf8Size_pos
          rw [byteLength_cons]
          omega
        rw [hspaces, scan_spaces, List.filter_cons_of_neg (by simp [hkind])]
        refine ⟨?_, hscan⟩
        obtain ⟨n, hn⟩ := Nat.exists_eq_add_one.mpr hpos
        rw [hn, List.replicate_succ]
        exact .cover _ _ hmark
      · have hself : cover p pos (c :: text) = c :: text := by
          refine cover_eq_self fun byte hlo hhi => ?_
          rw [Bool.eq_false_iff, ne_eq, hhere byte hlo hhi]
          exact hkind
        rw [hself, List.filter_cons_of_pos (by simpa using hkind), ← hscan]
        exact ⟨hveils.append_left _, scan_token hblank (hveils.lexeme_eq hkind hlexeme) pos⟩

end Token

/-! ## Sources -/

/-- A source with every byte of every comment replaced by a space. -/
def blankComments (source : List Char) : List Char :=
  Text.cover (fun byte => decide (Token.InComment (tokenize source) byte)) 0 source

theorem byteLength_blankComments (source : List Char) :
    Text.byteLength (blankComments source) = Text.byteLength source :=
  Text.byteLength_cover _ 0 source

/-- Of the tokens of a source, blanking takes the comments away and leaves the others in place. -/
theorem tokenize_blankComments (source : List Char) :
    tokenize (blankComments source) =
      (tokenize source).filter fun t => t.kind ≠ .lineComment := by
  have hp : ∀ byte, 0 ≤ byte → (decide (Token.InComment (tokenize source) byte) = true ↔
      Token.InComment (Token.scan 0 source) byte) := fun byte _ => decide_eq_true_iff
  exact (Token.scan_cover hp).2

-- A character of two bytes leaves two spaces.
example : blankComments ['a', '#', 'é', '\n', 'b'] = ['a', ' ', ' ', ' ', '\n', 'b'] := by
  decide +kernel

end DiagramTint
