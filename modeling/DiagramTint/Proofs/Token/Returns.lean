import DiagramTint.Proofs.Document.Likeness
import DiagramTint.Proofs.Text.Returns
import DiagramTint.Proofs.Token.Cutting

/-!
# Tokens of a text with carriage returns

With a carriage return in front of every line feed a text has tokens of the same kinds.  A comment
or an unfinished string that reaches up to the end of its line takes the carriage return in, and
everywhere else it is a blank.
-/

namespace DiagramTint

namespace Token

open Text

/-! ## The first token -/

/-- Of `n` characters of a text, at most a carriage return is added behind them, and only if a line
feed follows. -/
def ReadsOn (cs : List Char) (n m : Nat) : Prop :=
  m = n ∨ m = n + 1 ∧ cs[n]? = some '\n'

theorem ReadsOn.cons {cs : List Char} {n m : Nat} (h : ReadsOn cs n m) (c : Char) :
    ReadsOn (c :: cs) (n + 1) (m + 1) := by
  rcases h with rfl | ⟨rfl, hnewline⟩
  · exact Or.inl rfl
  · exact Or.inr ⟨rfl, by simpa using hnewline⟩

theorem takeWhile_withReturns {p : Char → Bool} (hreturn : p '\r' = false)
    (hnewline : p '\n' = false) (cs : List Char) :
    (withReturns cs).takeWhile p = cs.takeWhile p := by
  induction cs with
  | nil => rfl
  | cons c cs ih =>
      by_cases hc : c = '\n'
      · subst hc
        rw [withReturns_newline, List.takeWhile_cons_of_neg (by simp [hreturn]),
          List.takeWhile_cons_of_neg (by simp [hnewline])]
      · rw [withReturns_cons hc, List.takeWhile_cons, List.takeWhile_cons, ih]

theorem readsOn_comment (cs : List Char) :
    ReadsOn cs (cs.takeWhile (· != '\n')).length
      ((withReturns cs).takeWhile (· != '\n')).length := by
  induction cs with
  | nil => exact Or.inl rfl
  | cons c cs ih =>
      by_cases hc : c = '\n'
      · subst hc
        exact Or.inr ⟨rfl, rfl⟩
      · have hne : (c != '\n') = true := by simpa using hc
        simp only [withReturns_cons hc, List.takeWhile_cons, hne, if_true, List.length_cons]
        exact ih.cons c

theorem exists_stringBody_withReturns (escaped : Bool) (cs : List Char) :
    ∃ m, stringBody escaped (withReturns cs) = (m, (stringBody escaped cs).2) ∧
      ReadsOn cs (stringBody escaped cs).1 m := by
  induction cs generalizing escaped with
  | nil => exact ⟨0, rfl, Or.inl rfl⟩
  | cons c cs ih =>
      by_cases hc : c = '\n'
      · subst hc
        exact ⟨1, by simp [stringBody], Or.inr ⟨by simp [stringBody], by simp [stringBody]⟩⟩
      · rw [withReturns_cons hc]
        simp only [stringBody, if_neg hc]
        split
        · exact ⟨1, rfl, Or.inl rfl⟩
        · obtain ⟨m, hbody, hreads⟩ := ih (c = '\\' && !escaped)
          exact ⟨m + 1, by rw [hbody], hreads.cons c⟩

theorem head?_withReturns_iff {a : Char} (hreturn : a ≠ '\r') (hnewline : a ≠ '\n')
    (cs : List Char) : (withReturns cs).head? = some a ↔ cs.head? = some a := by
  cases cs with
  | nil => simp
  | cons c cs =>
      by_cases hc : c = '\n'
      · subst hc
        simp [hreturn.symm, hnewline.symm]
      · simp [withReturns_cons hc]

theorem take_withReturns_iff {a b : Char} (ha : a ≠ '\r') (ha' : a ≠ '\n') (hb : b ≠ '\r')
    (hb' : b ≠ '\n') (cs : List Char) :
    (withReturns cs).take 2 = [a, b] ↔ cs.take 2 = [a, b] := by
  cases cs with
  | nil => simp
  | cons c cs =>
      by_cases hc : c = '\n'
      · subst hc
        simp [ha.symm, ha'.symm]
      · have hone : ∀ ds : List Char, ds.take 1 = [b] ↔ ds.head? = some b := by
          intro ds
          cases ds <;> simp
        simp [withReturns_cons hc, hone, head?_withReturns_iff hb hb']

theorem arrowTail_withReturns (c : Char) (cs : List Char) :
    arrowTail c (withReturns cs) = arrowTail c cs := by
  rw [arrowTail_eq, arrowTail_eq]
  simp only [take_withReturns_iff, head?_withReturns_iff, ne_eq, Char.reduceEq, not_false_eq_true]

theorem exists_lexeme_withReturns (c : Char) (cs : List Char) :
    ∃ m, lexeme c (withReturns cs) = ((lexeme c cs).1, m) ∧ ReadsOn cs (lexeme c cs).2 m := by
  have hstarts : StartsComment c (withReturns cs) ↔ StartsComment c cs := by
    rw [StartsComment, StartsComment, head?_withReturns_iff (by decide) (by decide)]
  by_cases hcomment : StartsComment c cs
  · rw [lexeme_comment hcomment, lexeme_comment (hstarts.mpr hcomment)]
    exact ⟨_, rfl, readsOn_comment cs⟩
  · have hcomment' := mt hstarts.mp hcomment
    by_cases hword : startsWord c = true
    · rw [lexeme_word hword, lexeme_word hword,
        takeWhile_withReturns (by decide) (by decide)]
      exact ⟨_, rfl, Or.inl rfl⟩
    · by_cases hquote : c = '"'
      · subst hquote
        obtain ⟨m, hbody, hreads⟩ := exists_stringBody_withReturns false cs
        rw [lexeme_string, lexeme_string, hbody]
        exact ⟨m, rfl, hreads⟩
      · rw [lexeme_symbol hcomment (by simpa using hword) hquote,
          lexeme_symbol hcomment' (by simpa using hword) hquote, arrowTail_withReturns]
        exact ⟨_, rfl, Or.inl rfl⟩

/-! ## All tokens -/

/-- A token stays as it is, or it takes the carriage return of the line feed right after it in. -/
theorem lexeme_withReturns_cases {c : Char} {text rest : List Char} {kind : TokenKind}
    (h : lexeme c (text ++ rest) = (kind, text.length)) :
    lexeme c (text ++ withReturns rest) = (kind, text.length) ∨
      ∃ tail, rest = '\n' :: tail ∧
        lexeme c ((text ++ ['\r']) ++ '\n' :: withReturns tail) =
          (kind, (text ++ ['\r']).length) := by
  obtain ⟨m, hlexeme, hreads⟩ := exists_lexeme_withReturns c (text ++ rest)
  rw [h] at hlexeme hreads
  rw [withReturns_append, withReturns_of_not_mem (newline_not_mem_of_lexeme h)] at hlexeme
  rcases hreads with rfl | ⟨rfl, hnewline⟩
  · exact Or.inl hlexeme
  · rw [List.getElem?_append_right (Nat.le_refl _), Nat.sub_self] at hnewline
    cases rest with
    | nil => simp at hnewline
    | cons d tail =>
        obtain rfl : d = '\n' := by simpa using hnewline
        exact Or.inr ⟨tail, rfl, by simpa using hlexeme⟩

theorem alike_scan_withReturns {source before cs : List Char} {pos : Nat}
    (hsource : source = before ++ cs) (hpos : pos = byteLength before) :
    List.Forall₂ (Token.Alike (Aligned source)) (scan pos cs)
      (scan (byteLength (withReturns before)) (withReturns cs)) := by
  induction pos, cs using scanInduction generalizing before with
  | nil pos => simp
  | blank pos c cs hblank ih =>
      have hnext := @ih (before ++ [c]) (by simp [hsource]) (by simp [hpos])
      rw [withReturns_append, byteLength_append] at hnext
      by_cases hc : c = '\n'
      · subst hc
        rw [withReturns_newline, scan_blank hblank, scan_blank (by decide), scan_blank (by decide)]
        exact hnext
      · rw [withReturns_cons hc, withReturns_nil] at hnext
        rw [withReturns_cons hc, scan_blank hblank, scan_blank hblank]
        exact hnext
  | token pos c text rest kind hblank hlexeme ih =>
      subst hpos hsource
      have hc : c ≠ '\n' := by
        rintro rfl
        exact absurd hblank (by decide)
      have htext := newline_not_mem_of_lexeme hlexeme
      have hstart := aligned_of_append before (c :: (text ++ rest))
      have hstop : byteLength (withReturns (before ++ c :: text)) =
          byteLength (withReturns before) + byteLength (c :: text) := by
        rw [withReturns_append, withReturns_cons hc, withReturns_of_not_mem htext,
          byteLength_append]
      have hnext := @ih (before ++ c :: text) (by simp) (byteLength_append _ _).symm
      rw [hstop] at hnext
      rw [withReturns_cons hc, withReturns_append, withReturns_of_not_mem htext,
        scan_token hblank hlexeme]
      rcases lexeme_withReturns_cases hlexeme with hsame | ⟨tail, rfl, hlonger⟩
      · rw [scan_token hblank hsame]
        refine .cons ⟨rfl, hstart, ?_⟩ hnext
        exact ⟨before ++ c :: text, rest, by simp, by simp, Or.inl hstop.symm⟩
      · have hsplit : text ++ withReturns ('\n' :: tail) =
            (text ++ ['\r']) ++ '\n' :: withReturns tail := by simp
        have hlength : byteLength (c :: (text ++ ['\r'])) = byteLength (c :: text) + 1 := by
          rw [← List.cons_append, byteLength_append]
          rfl
        rw [withReturns_newline, scan_blank (show isBlank '\r' = true by decide),
          Nat.add_assoc] at hnext
        rw [hsplit, scan_token hblank hlonger, hlength]
        refine .cons ⟨rfl, hstart, ?_⟩ hnext
        exact ⟨before ++ c :: text, '\n' :: tail, by simp, by simp,
          Or.inr ⟨rfl, by rw [hstop, Nat.add_assoc]⟩⟩

end Token

theorem alike_tokenize_withReturns (source : List Char) :
    List.Forall₂ (Token.Alike (Text.Aligned source)) (tokenize source)
      (tokenize (Text.withReturns source)) :=
  Token.alike_scan_withReturns (List.nil_append source).symm rfl

end DiagramTint
