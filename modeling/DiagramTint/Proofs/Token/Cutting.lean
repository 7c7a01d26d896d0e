import DiagramTint.Proofs.Token.Lexeme

/-!
# Cutting a text between tokens

A text can be cut behind any of its tokens without changing the tokens on either side, and a text
that ends with a semicolon can be extended by anything.  Where a text starts only moves the spans.
-/

namespace DiagramTint

/-- A span moved `d` bytes to the right. -/
def Span.shift (d : Nat) (s : Span) : Span :=
  ⟨s.start + d, s.stop + d⟩

namespace Text

theorem dropBytes_append (xs ys : List Char) : dropBytes (byteLength xs) (xs ++ ys) = some ys := by
  induction xs with
  | nil => cases ys <;> simp [dropBytes]
  | cons c xs ih =>
      have hpos := c.utf8Size_pos
      cases hn : byteLength (c :: xs) with
      | zero => simp only [byteLength_cons] at hn; omega
      | succ n =>
          rw [byteLength_cons] at hn
          have hrest : n + 1 - c.utf8Size = byteLength xs := by omega
          rw [List.cons_append, dropBytes, if_pos (by omega), hrest, ih]

theorem takeBytes_append (xs ys : List Char) : takeBytes (byteLength xs) (xs ++ ys) = some xs := by
  induction xs with
  | nil => cases ys <;> simp [takeBytes]
  | cons c xs ih =>
      have hpos := c.utf8Size_pos
      cases hn : byteLength (c :: xs) with
      | zero => simp only [byteLength_cons] at hn; omega
      | succ n =>
          rw [byteLength_cons] at hn
          have hrest : n + 1 - c.utf8Size = byteLength xs := by omega
          rw [List.cons_append, takeBytes, if_pos (by omega), hrest, ih]
          rfl

theorem slice?_append (xs ys zs : List Char) :
    slice? (xs ++ (ys ++ zs)) ⟨byteLength xs, byteLength xs + byteLength ys⟩ = some ys := by
  rw [slice?, if_pos (Nat.le_add_right _ _), dropBytes_append, Option.bind_some,
    Nat.add_sub_cancel_left, takeBytes_append]

end Text

namespace Token

open Text

/-- A token moved `d` bytes to the right. -/
def shift (d : Nat) (t : Token) : Token :=
  { t with span := t.span.shift d }

@[simp]
theorem scan_nil (pos : Nat) : scan pos [] = [] := by
  rw [scan.eq_def]

theorem scan_blank {c : Char} (h : isBlank c = true) (pos : Nat) (cs : List Char) :
    scan pos (c :: cs) = scan (pos + c.utf8Size) cs := by
  rw [scan.eq_def]
  exact if_pos h

theorem scan_token {c : Char} {text rest : List Char} {kind : TokenKind}
    (hblank : isBlank c = false) (h : lexeme c (text ++ rest) = (kind, text.length)) (pos : Nat) :
    scan pos (c :: (text ++ rest)) =
      ⟨kind, pos, pos + byteLength (c :: text)⟩ :: scan (pos + byteLength (c :: text)) rest := by
  rw [scan.eq_def]
  simp only [hblank, Bool.false_eq_true, if_false, h, List.take_left, List.drop_left]

@[elab_as_elim]
theorem scanInduction {motive : Nat → List Char → Prop}
    (nil : ∀ pos, motive pos [])
    (blank : ∀ pos c cs, isBlank c = true → motive (pos + c.utf8Size) cs → motive pos (c :: cs))
    (token : ∀ pos c text rest kind, isBlank c = false →
      lexeme c (text ++ rest) = (kind, text.length) →
      motive (pos + byteLength (c :: text)) rest → motive pos (c :: (text ++ rest)))
    (pos : Nat) (cs : List Char) : motive pos cs := by
  fun_induction scan pos cs with
  | case1 pos => exact nil pos
  | case2 pos c cs hblank ih => exact blank pos c cs hblank ih
  | case3 pos c cs hblank kind n hlexeme stop ih =>
      have hle := lexeme_le_length c cs
      rw [hlexeme] at hle
      have htoken := token pos c (cs.take n) (cs.drop n) kind (by simpa using hblank)
        (by rw [List.take_append_drop, hlexeme, List.length_take_of_le hle]) ih
      rwa [List.take_append_drop] at htoken

theorem scan_add (d pos : Nat) (cs : List Char) :
    scan (pos + d) cs = (scan pos cs).map (shift d) := by
  induction pos, cs using scanInduction with
  | nil pos => simp
  | blank pos c cs hblank ih =>
      rw [scan_blank hblank, scan_blank hblank, ← ih, Nat.add_right_comm]
  | token pos c text rest kind hblank hlexeme ih =>
      rw [scan_token hblank hlexeme, scan_token hblank hlexeme, List.map_cons, ← ih,
        Nat.add_right_comm]
      rfl

/-- The end of the last of some tokens, or `pos` if there are none. -/
def endOf (pos : Nat) : List Token → Nat
  | [] => pos
  | t :: ts => endOf t.span.stop ts

/-! ## Cutting behind a token -/

/-- A token is the same in a text that stops anywhere behind it. -/
theorem lexeme_of_append {c : Char} {text xs ys : List Char} {kind : TokenKind}
    (h : lexeme c (text ++ (xs ++ ys)) = (kind, text.length)) :
    lexeme c (text ++ xs) = (kind, text.length) := by
  have hcases := lexeme_append_cases c (text ++ xs) ys
  rw [List.append_assoc, h] at hcases
  rcases hcases with hsame | ⟨hpast, -⟩
  · exact hsame.symm
  · rw [List.length_append] at hpast
    omega

/-- The first tokens of a text are the tokens of what stands before the end of the last of them. -/
theorem exists_cut {pos : Nat} {cs : List Char} {ts us : List Token}
    (h : scan pos cs = ts ++ us) :
    ∃ xs ys, cs = xs ++ ys ∧ scan pos xs = ts ∧ scan (pos + byteLength xs) ys = us ∧
      endOf pos ts = pos + byteLength xs := by
  induction pos, cs using scanInduction generalizing ts with
  | nil pos =>
      have hts : ts = [] := by
        rw [scan_nil] at h
        exact (List.append_eq_nil_iff.mp h.symm).1
      subst hts
      exact ⟨[], [], rfl, scan_nil pos, h, rfl⟩
  | blank pos c cs hblank ih =>
      cases ts with
      | nil => exact ⟨[], c :: cs, rfl, scan_nil pos, h, rfl⟩
      | cons t ts =>
          rw [scan_blank hblank] at h
          obtain ⟨xs, ys, rfl, hxs, hys, hend⟩ := ih h
          refine ⟨c :: xs, ys, rfl, ?_, ?_, ?_⟩
          · rw [scan_blank hblank, hxs]
          · rw [byteLength_cons, ← Nat.add_assoc, hys]
          · rw [byteLength_cons, ← Nat.add_assoc, ← hend]
            rfl
  | token pos c text rest kind hblank hlexeme ih =>
      cases ts with
      | nil => exact ⟨[], _, rfl, scan_nil pos, h, rfl⟩
      | cons t ts =>
          rw [scan_token hblank hlexeme, List.cons_append, List.cons.injEq] at h
          obtain ⟨rfl, h⟩ := h
          obtain ⟨xs, ys, rfl, hxs, hys, hend⟩ := ih h
          refine ⟨c :: (text ++ xs), ys, by simp, ?_, ?_, ?_⟩
          · rw [scan_token hblank (lexeme_of_append hlexeme), hxs]
          · rw [← List.cons_append, byteLength_append, ← Nat.add_assoc, hys]
          · rw [← List.cons_append, byteLength_append, ← Nat.add_assoc, ← hend]
            rfl

/-- The first token of a text is also that of the text from there on. -/
theorem exists_start {pos : Nat} {cs : List Char} {t : Token} {ts : List Token}
    (h : scan pos cs = t :: ts) :
    ∃ blanks rest, cs = blanks ++ rest ∧ t.span.start = pos + byteLength blanks ∧
      scan t.span.start rest = t :: ts := by
  induction pos, cs using scanInduction with
  | nil pos => simp at h
  | blank pos c cs hblank ih =>
      rw [scan_blank hblank] at h
      obtain ⟨blanks, rest, rfl, hstart, hrest⟩ := ih h
      refine ⟨c :: blanks, rest, rfl, ?_, hrest⟩
      rw [hstart, byteLength_cons, Nat.add_assoc]
  | token pos c text rest kind hblank hlexeme ih =>
      have hstart : t.span.start = pos := by
        rw [scan_token hblank hlexeme, List.cons.injEq] at h
        rw [← h.1]
      exact ⟨[], c :: (text ++ rest), rfl, by simp [hstart], by rw [hstart, h]⟩

/-- Tokens that follow one another are, moved to the front, the tokens of the text from the start of
the first to the end of the last of them. -/
theorem exists_slice {source : List Char} {before ts after : List Token} {t : Token}
    (h : tokenize source = before ++ (t :: ts ++ after)) :
    ∃ text, slice? source ⟨t.span.start, endOf t.span.stop ts⟩ = some text ∧
      (tokenize text).map (shift t.span.start) = t :: ts := by
  obtain ⟨front, rest, hsource, -, hrest, -⟩ := exists_cut h
  obtain ⟨blanks, rest, rfl, hstart, hscan⟩ := exists_start hrest
  have hcut : scan t.span.start rest = t :: ts ++ after := hscan
  obtain ⟨text, tail, rfl, htext, -, hend⟩ := exists_cut hcut
  refine ⟨text, ?_, ?_⟩
  · have hpos : t.span.start = byteLength (front ++ blanks) := by
      rw [hstart, byteLength_append, Nat.zero_add]
    have hstop : endOf t.span.stop ts = byteLength (front ++ blanks) + byteLength text := by
      rw [← hpos, ← hend]
      rfl
    rw [hstop, hpos, hsource, ← List.append_assoc]
    exact slice?_append (front ++ blanks) text tail
  · rw [← htext, tokenize, ← scan_add, Nat.zero_add]

/-! ## Cutting behind a semicolon -/

theorem semicolon_mem_of_scan {pos : Nat} {cs : List Char} {t : Token} (ht : t ∈ scan pos cs)
    (hkind : t.kind = .semicolon) : ';' ∈ cs := by
  induction pos, cs using scanInduction with
  | nil pos => simp at ht
  | blank pos c cs hblank ih =>
      rw [scan_blank hblank] at ht
      exact List.mem_cons_of_mem c (ih ht)
  | token pos c text rest kind hblank hlexeme ih =>
      rw [scan_token hblank hlexeme] at ht
      rcases List.mem_cons.mp ht with rfl | ht
      · have hc : c = ';' := eq_semicolon_of_lexeme (by rw [hlexeme]; exact hkind)
        rw [hc]
        exact List.mem_cons_self
      · exact List.mem_cons_of_mem c (List.mem_append_right text (ih ht))

theorem scan_append_of_eq_nil {pos : Nat} {xs : List Char} (h : scan pos xs = [])
    (ys : List Char) : scan pos (xs ++ ys) = scan (pos + byteLength xs) ys := by
  induction pos, xs using scanInduction with
  | nil pos => simp
  | blank pos c cs hblank ih =>
      rw [scan_blank hblank] at h
      rw [List.cons_append, scan_blank hblank, ih h, byteLength_cons, Nat.add_assoc]
  | token pos c text rest kind hblank hlexeme ih =>
      rw [scan_token hblank hlexeme] at h
      cases h

/-- A semicolon and what stands before a semicolon are the same in every longer text. -/
theorem lexeme_append_of_semicolon {c : Char} {text rest : List Char} {kind : TokenKind}
    (h : lexeme c (text ++ rest) = (kind, text.length)) (hmem : kind = .semicolon ∨ ';' ∈ rest)
    (ys : List Char) : lexeme c (text ++ (rest ++ ys)) = (kind, text.length) := by
  rcases hmem with rfl | hmem
  · have hc : c = ';' := eq_semicolon_of_lexeme (by rw [h])
    subst hc
    rw [lexeme_eq_semicolon] at h ⊢
    exact h
  · rw [← List.append_assoc, ← h]
    rcases lexeme_append_cases c (text ++ rest) ys with hsame | ⟨-, hdash⟩
    · exact hsame
    · have hsemicolon := hdash ';' (by rw [h, List.drop_left]; exact hmem)
      exact absurd hsemicolon (by decide)

/-- A text whose last token is a semicolon can be extended by anything. -/
theorem scan_append_of_semicolon {pos : Nat} {xs : List Char} {t : Token}
    (h : (scan pos xs).getLast? = some t) (hkind : t.kind = .semicolon) (ys : List Char) :
    scan pos (xs ++ ys) = scan pos xs ++ scan (pos + byteLength xs) ys := by
  induction pos, xs using scanInduction with
  | nil pos => simp at h
  | blank pos c cs hblank ih =>
      rw [scan_blank hblank] at h
      rw [List.cons_append, scan_blank hblank, scan_blank hblank, ih h, byteLength_cons,
        Nat.add_assoc]
  | token pos c text rest kind hblank hlexeme ih =>
      have hlength : byteLength (c :: (text ++ rest)) = byteLength (c :: text) + byteLength rest :=
        byteLength_append (c :: text) rest
      rw [scan_token hblank hlexeme] at h
      rw [List.cons_append, List.append_assoc, scan_token hblank hlexeme, hlength, ← Nat.add_assoc]
      cases hrest : scan (pos + byteLength (c :: text)) rest with
      | nil =>
          rw [hrest, List.getLast?_singleton, Option.some.injEq] at h
          subst h
          rw [scan_token hblank (lexeme_append_of_semicolon hlexeme (Or.inl hkind) ys),
            scan_append_of_eq_nil hrest]
          rfl
      | cons u us =>
          rw [hrest, List.getLast?_cons_cons, ← hrest] at h
          have hmem := semicolon_mem_of_scan (List.mem_of_getLast? h) hkind
          rw [scan_token hblank (lexeme_append_of_semicolon hlexeme (Or.inr hmem) ys), ih h, hrest]
          rfl

end Token

theorem tokenize_append {a : List Char} {t : Token} (h : (tokenize a).getLast? = some t)
    (hkind : t.kind = .semicolon) (b : List Char) :
    tokenize (a ++ b) =
      tokenize a ++ (tokenize b).map (Token.shift (Text.byteLength a)) := by
  rw [tokenize, Token.scan_append_of_semicolon h hkind, Token.scan_add]
  rfl

end DiagramTint
