import DiagramTint.Proofs.Text.Blank
import DiagramTint.Selector

/-!
# Selectors as texts

A text is read as a selector by the parts between its strokes, each of them trimmed.  Which of the
three errors it gives, if any, depends on these parts only.  The selectors that can be read are
those that their written form gives back.
-/

namespace DiagramTint

namespace Selector

open Text

/-- The parts of a trimmed text between its strokes. -/
def pieces (text : String) : List (List Char) :=
  (trim text).toList.splitOn '/'

/-- The last part of a text is the wildcard. -/
def EndsInWildcard (text : String) : Prop :=
  ∃ piece ∈ (pieces text).getLast?, trimChars piece = ['*']

/-- The segments of a selector in the order in which they are written. -/
def written (s : Selector) : List String :=
  s.ancestors.reverse ++ [s.nodeType]

/-- The selectors whose target is a type and whose segments are seen as they are when written. -/
structure WellFormed (s : Selector) : Prop where
  target : s.nodeType ≠ wildcard
  segments : ∀ segment ∈ s.nodeType :: s.ancestors,
    segment ≠ "" ∧ IsTrimmed segment.toList ∧ '/' ∉ segment.toList

/-! ## Reading -/

theorem toList_trim (text : String) : (trim text).toList = trimChars text.toList := by
  rw [trim, String.toList_ofList]

theorem segments_trimChars (text : String) :
    segments (trimChars text.toList) = (pieces text).map trimChars := by
  rw [segments, splitWhere_eq_splitOnP, pieces, toList_trim]
  rfl

theorem any_isEmpty_segments (text : String) :
    (segments (trimChars text.toList)).any List.isEmpty = true ↔
      ∃ piece ∈ pieces text, IsBlankText piece := by
  rw [segments_trimChars, List.any_map, List.any_eq_true]
  simp only [Function.comp_apply, List.isEmpty_iff, trimChars_eq_nil_iff]

section Reading

variable {text : String}

theorem parse_of_isBlankText (h : IsBlankText text.toList) : parse text = .error .empty := by
  rw [parse, trimChars_eq_nil_iff.mpr h]
  rfl

theorem parse_of_blank_piece (hblank : ¬ IsBlankText text.toList)
    (h : ∃ piece ∈ pieces text, IsBlankText piece) :
    parse text = .error (.emptySegment (trim text)) := by
  have hsome : (trimChars text.toList).isEmpty = false := by
    rwa [List.isEmpty_eq_false_iff, ne_eq, trimChars_eq_nil_iff]
  simp only [parse, hsome, (any_isEmpty_segments text).mpr h, if_true, Bool.false_eq_true, if_false]
  rfl

theorem ofList_eq_wildcard_iff {cs : List Char} : String.ofList cs = wildcard ↔ cs = ['*'] := by
  rw [wildcard, ← String.toList_inj, String.toList_ofList]
  rfl

/-- If no part is blank, the last one decides. -/
theorem parse_of_pieces {front : List (List Char)} {last : List Char}
    (hblank : ¬ IsBlankText text.toList) (h : ∀ piece ∈ pieces text, ¬ IsBlankText piece)
    (hpieces : pieces text = front ++ [last]) :
    parse text =
      if trimChars last = ['*'] then .error (.wildcardTarget (trim text))
      else .ok ⟨String.ofList (trimChars last),
        (front.map fun piece => String.ofList (trimChars piece)).reverse⟩ := by
  have hsome : (trimChars text.toList).isEmpty = false := by
    rwa [List.isEmpty_eq_false_iff, ne_eq, trimChars_eq_nil_iff]
  have hfull : ¬ (segments (trimChars text.toList)).any List.isEmpty = true := by
    rw [any_isEmpty_segments]
    exact fun ⟨piece, hmem, hpiece⟩ => h piece hmem hpiece
  have hlist : (segments (trimChars text.toList)).reverse.map String.ofList =
      String.ofList (trimChars last) ::
        (front.map fun piece => String.ofList (trimChars piece)).reverse := by
    rw [segments_trimChars, hpieces]
    simp [Function.comp_def]
  simp only [parse, hsome, hfull, hlist, ofList_eq_wildcard_iff, Bool.false_eq_true, if_false]
  rfl

theorem endsInWildcard_iff {front : List (List Char)} {last : List Char}
    (hpieces : pieces text = front ++ [last]) :
    EndsInWildcard text ↔ trimChars last = ['*'] := by
  rw [EndsInWildcard, hpieces, List.getLast?_concat]
  simp

theorem exists_last_piece (text : String) :
    ∃ front last, pieces text = front ++ [last] := by
  rcases List.eq_nil_or_concat' (pieces text) with hnil | hconcat
  · exact absurd hnil (List.splitOn_ne_nil '/' _)
  · exact hconcat

/-- The four outcomes of reading.  Where several errors apply, the one that is listed first is
given; what is read has the trimmed parts of the text as its segments. -/
theorem parse_cases (text : String) :
    (IsBlankText text.toList ∧ parse text = .error .empty) ∨
    (¬ IsBlankText text.toList ∧ (∃ piece ∈ pieces text, IsBlankText piece) ∧
      parse text = .error (.emptySegment (trim text))) ∨
    (¬ IsBlankText text.toList ∧ (∀ piece ∈ pieces text, ¬ IsBlankText piece) ∧
      EndsInWildcard text ∧ parse text = .error (.wildcardTarget (trim text))) ∨
    (¬ IsBlankText text.toList ∧ (∀ piece ∈ pieces text, ¬ IsBlankText piece) ∧
      ¬ EndsInWildcard text ∧ ∃ s, parse text = .ok s ∧ s.nodeType ≠ wildcard ∧
        s.written = (pieces text).map fun piece => String.ofList (trimChars piece)) := by
  by_cases hblank : IsBlankText text.toList
  · exact Or.inl ⟨hblank, parse_of_isBlankText hblank⟩
  · refine Or.inr ?_
    by_cases hempty : ∃ piece ∈ pieces text, IsBlankText piece
    · exact Or.inl ⟨hblank, hempty, parse_of_blank_piece hblank hempty⟩
    · refine Or.inr ?_
      have hfull : ∀ piece ∈ pieces text, ¬ IsBlankText piece :=
        fun piece hmem hpiece => hempty ⟨piece, hmem, hpiece⟩
      obtain ⟨front, last, hpieces⟩ := exists_last_piece text
      have hparse := parse_of_pieces hblank hfull hpieces
      rw [endsInWildcard_iff hpieces]
      by_cases hstar : trimChars last = ['*']
      · rw [if_pos hstar] at hparse
        exact Or.inl ⟨hblank, hfull, hstar, hparse⟩
      · rw [if_neg hstar] at hparse
        refine Or.inr ⟨hblank, hfull, hstar, _, hparse, mt ofList_eq_wildcard_iff.mp hstar, ?_⟩
        rw [written, List.reverse_reverse, hpieces, List.map_append]
        rfl

theorem written_of_parse {s : Selector} (h : parse text = .ok s) :
    (∀ piece ∈ pieces text, ¬ IsBlankText piece) ∧ s.nodeType ≠ wildcard ∧
      s.written = (pieces text).map fun piece => String.ofList (trimChars piece) := by
  rcases parse_cases text with ⟨-, hparse⟩ | ⟨-, -, hparse⟩ | ⟨-, -, -, hparse⟩ |
    ⟨-, hfull, -, found, hparse, htarget, hwritten⟩
  · simp [hparse] at h
  · simp [hparse] at h
  · simp [hparse] at h
  · rw [hparse, Except.ok.injEq] at h
    subst h
    exact ⟨hfull, htarget, hwritten⟩

theorem wellFormed_of_parse {s : Selector} (h : parse text = .ok s) : s.WellFormed := by
  obtain ⟨hfull, htarget, hwritten⟩ := written_of_parse h
  refine ⟨htarget, ?_⟩
  intro segment hsegment
  have hmem : segment ∈ s.written := by
    rw [written, List.mem_append, List.mem_reverse, List.mem_singleton, or_comm]
    exact List.mem_cons.mp hsegment
  rw [hwritten] at hmem
  obtain ⟨piece, hpiece, rfl⟩ := List.mem_map.mp hmem
  rw [String.toList_ofList]
  refine ⟨?_, isTrimmed_trimChars piece, ?_⟩
  · rw [ne_eq, String.ofList_eq_empty_iff, trimChars_eq_nil_iff]
    exact hfull piece hpiece
  · intro hstroke
    have hother := of_mem_splitOnP hpiece '/' (mem_of_mem_trimChars hstroke)
    simp at hother

end Reading

/-! ## Writing -/

theorem toList_render (s : Selector) :
    s.render.toList = ['/'].intercalate (s.written.map String.toList) := by
  rw [render, String.toList_intercalate]
  rfl

/-- The written form of a selector consists of its segments. -/
theorem WellFormed.pieces_render {s : Selector} (h : s.WellFormed) :
    ¬ IsBlankText s.render.toList ∧ pieces s.render = s.written.map String.toList ∧
      ∀ piece ∈ pieces s.render, ¬ IsBlankText piece ∧ IsTrimmed piece := by
  have hsegments : ∀ piece ∈ s.written.map String.toList,
      piece ≠ [] ∧ IsTrimmed piece ∧ '/' ∉ piece := by
    intro piece hpiece
    obtain ⟨segment, hsegment, rfl⟩ := List.mem_map.mp hpiece
    obtain ⟨hne, htrimmed, hstroke⟩ := h.segments segment (by
      simpa [written, or_comm] using hsegment)
    exact ⟨by simpa using hne, htrimmed, hstroke⟩
  have hnil : s.written.map String.toList ≠ [] := by simp [written]
  obtain ⟨hne, htrimmed⟩ := isTrimmed_intercalate '/' hnil
    fun piece hpiece => ⟨(hsegments piece hpiece).1, (hsegments piece hpiece).2.1⟩
  rw [← toList_render] at hne htrimmed
  have hpieces : pieces s.render = s.written.map String.toList := by
    rw [pieces, toList_trim, trimChars_eq_self htrimmed, toList_render]
    exact List.splitOn_intercalate '/' (fun piece hpiece => (hsegments piece hpiece).2.2) hnil
  refine ⟨htrimmed.not_isBlankText hne, hpieces, ?_⟩
  rw [hpieces]
  intro piece hpiece
  obtain ⟨hne, htrimmed, -⟩ := hsegments piece hpiece
  exact ⟨htrimmed.not_isBlankText hne, htrimmed⟩

theorem WellFormed.parse_render {s : Selector} (h : s.WellFormed) : parse s.render = .ok s := by
  obtain ⟨hblank, hpieces, hfull⟩ := h.pieces_render
  have hlast : pieces s.render = s.ancestors.reverse.map String.toList ++ [s.nodeType.toList] := by
    rw [hpieces, written, List.map_append]
    rfl
  have hself : ∀ segment ∈ s.written, String.ofList (trimChars segment.toList) = segment := by
    intro segment hsegment
    have hpiece : segment.toList ∈ pieces s.render := by
      rw [hpieces]
      exact List.mem_map_of_mem hsegment
    rw [trimChars_eq_self (hfull _ hpiece).2, String.ofList_toList]
  have htarget := hself s.nodeType (by simp [written])
  have hancestors : (s.ancestors.reverse.map String.toList).map
      (fun piece => String.ofList (trimChars piece)) = s.ancestors.reverse := by
    calc
      _ = s.ancestors.reverse.map fun segment => String.ofList (trimChars segment.toList) :=
        List.map_map
      _ = s.ancestors.reverse.map id :=
        List.map_congr_left fun segment hsegment =>
          hself segment (List.mem_append_left _ hsegment)
      _ = s.ancestors.reverse := List.map_id _
  have hstar : trimChars s.nodeType.toList ≠ ['*'] := by
    rw [ne_eq, ← ofList_eq_wildcard_iff, htarget]
    exact h.target
  rw [parse_of_pieces hblank (fun piece hpiece => (hfull piece hpiece).1) hlast, if_neg hstar,
    hancestors, htarget, List.reverse_reverse]

/-- Blanks around a text do not matter. -/
theorem parse_trim (text : String) : parse (trim text) = parse text := by
  have htrimmed : trimChars (trim text).toList = trimChars text.toList := by
    rw [toList_trim, trimChars_eq_self (isTrimmed_trimChars _)]
  rw [parse, htrimmed, parse]

/-- A text without blanks is the written form of what is read from it. -/
theorem render_of_parse {text : String} {s : Selector} (hsolid : IsSolid text.toList)
    (h : parse text = .ok s) : s.render = text := by
  have hpieces : pieces text = text.toList.splitOn '/' := by
    rw [pieces, toList_trim, trimChars_eq_self hsolid.isTrimmed]
  have hself : ∀ piece ∈ pieces text, trimChars piece = piece := by
    intro piece hpiece
    rw [hpieces] at hpiece
    have hpieceSolid : IsSolid piece := fun c hc => hsolid c (of_mem_splitOnP hpiece c hc).1
    exact trimChars_eq_self hpieceSolid.isTrimmed
  have hwritten : s.written.map String.toList = pieces text := by
    rw [(written_of_parse h).2.2, List.map_map]
    calc
      _ = (pieces text).map trimChars := by simp [Function.comp_def]
      _ = (pieces text).map id := List.map_congr_left hself
      _ = pieces text := List.map_id _
  rw [← String.toList_inj, toList_render, hwritten, hpieces, List.intercalate_splitOn]

/-! ## Reading and writing -/

/-- A text is read as a selector unless it is blank, has a blank part between strokes or ends in the
wildcard, and the error names the first of these that applies.  A selector is what its written form
is read as exactly if it is well-formed, and so is everything that is read. -/
theorem parse_render_exact :
    (∀ text : String,
      (parse text = .error .empty ↔ IsBlankText text.toList) ∧
      (parse text = .error (.emptySegment (trim text)) ↔
        ¬ IsBlankText text.toList ∧ ∃ piece ∈ pieces text, IsBlankText piece) ∧
      (parse text = .error (.wildcardTarget (trim text)) ↔
        ¬ IsBlankText text.toList ∧ (∀ piece ∈ pieces text, ¬ IsBlankText piece) ∧
          EndsInWildcard text) ∧
      ((∃ s, parse text = .ok s) ↔
        ¬ IsBlankText text.toList ∧ (∀ piece ∈ pieces text, ¬ IsBlankText piece) ∧
          ¬ EndsInWildcard text)) ∧
    (∀ s : Selector, parse s.render = .ok s ↔ s.WellFormed) ∧
    ∀ (text : String) (s : Selector), parse text = .ok s → s.WellFormed ∧
      s.written = (pieces text).map fun piece => String.ofList (trimChars piece) := by
  refine ⟨?_, fun s => ⟨wellFormed_of_parse, fun h => h.parse_render⟩, ?_⟩
  · intro text
    rcases parse_cases text with ⟨hblank, hparse⟩ | ⟨hblank, ⟨piece, hmem, hpiece⟩, hparse⟩ |
      ⟨hblank, hfull, hstar, hparse⟩ | ⟨hblank, hfull, hstar, s, hparse, -, -⟩
    · simp [hparse, hblank]
    · have hempty : ¬ ∀ piece ∈ pieces text, ¬ IsBlankText piece :=
        fun hfull => hfull piece hmem hpiece
      simpa [hparse, hblank, hempty] using ⟨piece, hmem, hpiece⟩
    · simpa [hparse, hblank, hstar] using hfull
    · simpa [hparse, hblank, hstar] using hfull
  · intro text s h
    exact ⟨wellFormed_of_parse h, (written_of_parse h).2.2⟩

/-- Blanks around the strokes are dropped, and a blank inside a segment stays. -/
theorem parse_render_spacedPath :
    parse "\u3000Program/ *\t/x y " = .ok ⟨"x y", ["*", "Program"]⟩ ∧
      WellFormed ⟨"x y", ["*", "Program"]⟩ ∧
      parse (render ⟨"x y", ["*", "Program"]⟩) = .ok ⟨"x y", ["*", "Program"]⟩ := by
  have hparse : parse "\u3000Program/ *\t/x y " = .ok ⟨"x y", ["*", "Program"]⟩ := by
    decide +kernel
  have hwellFormed := (parse_render_exact.2.2 _ _ hparse).1
  exact ⟨hparse, hwellFormed, (parse_render_exact.2.1 _).mpr hwellFormed⟩

end Selector

end DiagramTint
