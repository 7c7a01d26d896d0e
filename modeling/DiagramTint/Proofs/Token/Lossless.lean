import DiagramTint.Proofs.Token.Touching

/-!
# Nothing is lost between tokens

The spans before, between and after the tokens of a source hold nothing but blanks.  Taken in turns,
these blanks and the texts of the tokens are the source.
-/

namespace DiagramTint

/-- The spans before, between and after spans that follow one another from byte `lo` to byte `hi`. -/
def Span.gaps (lo hi : Nat) : List Span → List Span
  | [] => [⟨lo, hi⟩]
  | s :: ss => ⟨lo, s.start⟩ :: gaps s.stop hi ss

namespace Token

open Text

/-- The members of two lists in turns, beginning with the first list. -/
def inTurns {α : Type} : List α → List α → List α
  | x :: xs, y :: ys => x :: y :: inTurns xs ys
  | xs, [] => xs
  | [], ys => ys

/-- The text `rest` as it is cut out of `source` by tokens with the spans `spans` and by the spans
`between` them: `blanks` and `texts` are the parts, none of them missing. -/
structure Weaves (source : List Char) (between spans : List Span) (rest : List Char)
    (blanks texts : List (List Char)) : Prop where
  blanks_eq : between.mapM (slice? source) = some blanks
  texts_eq : spans.mapM (slice? source) = some texts
  blank : ∀ text ∈ blanks, ∀ c ∈ text, isBlank c = true
  solid : ∀ text ∈ texts, ∃ c ∈ text.head?, isBlank c = false
  whole : (inTurns blanks texts).flatten = rest

section Weaves

variable {source front rest : List Char} {gap : Span}

theorem weaves_last (hslice : slice? source gap = some front)
    (hblank : ∀ c ∈ front, isBlank c = true) : Weaves source [gap] [] front [front] [] where
  blanks_eq := by simp [hslice]
  texts_eq := by simp
  blank := by simpa using hblank
  solid := by simp
  whole := by simp [inTurns]

theorem Weaves.cons {between spans : List Span} {blanks texts : List (List Char)} {s : Span}
    {c : Char} {text : List Char} (h : Weaves source between spans rest blanks texts)
    (hgap : slice? source gap = some front) (hblank : ∀ d ∈ front, isBlank d = true)
    (hslice : slice? source s = some (c :: text)) (hc : isBlank c = false) :
    Weaves source (gap :: between) (s :: spans) (front ++ (c :: text ++ rest)) (front :: blanks)
      ((c :: text) :: texts) where
  blanks_eq := by simp [hgap, h.blanks_eq]
  texts_eq := by simp [hslice, h.texts_eq]
  blank := by
    intro blank hmem
    rcases List.mem_cons.mp hmem with rfl | hmem
    · exact hblank
    · exact h.blank blank hmem
  solid := by
    intro text' hmem
    rcases List.mem_cons.mp hmem with rfl | hmem
    · exact ⟨c, rfl, hc⟩
    · exact h.solid text' hmem
  whole := by rw [inTurns, List.flatten_cons, List.flatten_cons, h.whole]

end Weaves

/-- Reading goes on behind `before` and some blanks, which belong to the next gap. -/
theorem exists_weaves {source before blank cs : List Char} {pos : Nat}
    (hsource : source = before ++ (blank ++ cs)) (hblank : ∀ c ∈ blank, isBlank c = true)
    (hpos : pos = byteLength before + byteLength blank) :
    ∃ blanks texts, Weaves source
      (Span.gaps (byteLength before) (byteLength source) ((scan pos cs).map Token.span))
      ((scan pos cs).map Token.span) (blank ++ cs) blanks texts := by
  induction pos, cs using scanInduction generalizing before blank with
  | nil pos =>
      have hslice : slice? source ⟨byteLength before, byteLength source⟩ = some blank := by
        rw [hsource, byteLength_append, List.append_nil]
        simpa using slice?_append before blank []
      rw [scan_nil, List.append_nil]
      exact ⟨[blank], [], weaves_last hslice hblank⟩
  | blank pos c cs hc ih =>
      have hmore : ∀ d ∈ blank ++ [c], isBlank d = true := by
        intro d hd
        rcases List.mem_append.mp hd with hd | hd
        · exact hblank d hd
        · rw [List.mem_singleton.mp hd]
          exact hc
      have hnext : pos + c.utf8Size = byteLength before + byteLength (blank ++ [c]) := by
        rw [hpos, byteLength_append, byteLength_cons, byteLength_nil]
        omega
      have hweaves := @ih before (blank ++ [c]) (by simp [hsource]) hmore hnext
      rw [scan_blank hc]
      simpa using hweaves
  | token pos c text rest kind hc hlexeme ih =>
      have hgap : slice? source ⟨byteLength before, pos⟩ = some blank := by
        rw [hsource, hpos]
        exact slice?_append before blank _
      have hslice : slice? source ⟨pos, pos + byteLength (c :: text)⟩ = some (c :: text) := by
        have hcut := slice?_append (before ++ blank) (c :: text) rest
        rw [byteLength_append, ← hpos] at hcut
        rw [hsource]
        simpa using hcut
      have hstop : byteLength (before ++ (blank ++ c :: text)) = pos + byteLength (c :: text) := by
        rw [byteLength_append, byteLength_append, hpos, Nat.add_assoc]
      obtain ⟨blanks, texts, hweaves⟩ := @ih (before ++ (blank ++ c :: text)) []
        (by simp [hsource]) (by simp) (by rw [hstop]; rfl)
      rw [hstop, List.nil_append] at hweaves
      rw [scan_token hc hlexeme]
      exact ⟨_, _, hweaves.cons hgap hblank hslice hc⟩

end Token

open Text Token

/-- The tokens of a source follow one another without overlap, each covers at least one byte, and
each starts and ends between two characters.  Before, between and behind them stand only blanks,
none of them starts with a blank, and in turns these blanks and the texts of the tokens are the
source. -/
theorem tokenize_lossless (source : List Char) :
    (∀ t ∈ tokenize source, t.span.start < t.span.stop ∧ t.span.stop ≤ byteLength source ∧
      IsBoundary source t.span.start ∧ IsBoundary source t.span.stop) ∧
    (tokenize source).Pairwise (fun t u => t.span.stop ≤ u.span.start) ∧
    ∃ blanks texts, Weaves source
      (Span.gaps 0 (byteLength source) ((tokenize source).map Token.span))
      ((tokenize source).map Token.span) source blanks texts := by
  have hlaidOut := laidOut_tokenize source
  refine ⟨?_, List.pairwise_map.mp hlaidOut.pairwise, ?_⟩
  · intro t ht
    obtain ⟨-, hlt, hstart, hstop, hle⟩ := hlaidOut.of_mem (List.mem_map_of_mem ht)
    exact ⟨hlt, hle, hstart, hstop⟩
  · exact @exists_weaves source [] [] source 0 rfl (by simp) rfl

/-- Blanks and other characters of more than one byte, with a blank at each end. -/
def spacedText : List Char :=
  ['\u3000', 'a', '\u00a0', '→', '\n']

theorem tokenize_lossless_spacedText :
    ⟨.unknown, ⟨6, 9⟩⟩ ∈ tokenize spacedText ∧ IsBoundary spacedText 6 ∧
      ∃ blanks texts, Weaves spacedText [⟨0, 3⟩, ⟨4, 6⟩, ⟨9, 10⟩] [⟨3, 4⟩, ⟨6, 9⟩] spacedText
        blanks texts := by
  have htokens : tokenize spacedText = [⟨.identifier, ⟨3, 4⟩⟩, ⟨.unknown, ⟨6, 9⟩⟩] := by
    decide +kernel
  have hmem : ⟨.unknown, ⟨6, 9⟩⟩ ∈ tokenize spacedText := by
    rw [htokens]
    decide
  obtain ⟨hspans, -, hweaves⟩ := tokenize_lossless spacedText
  rw [htokens] at hweaves
  exact ⟨hmem, (hspans _ hmem).2.2.1, hweaves⟩

end DiagramTint
