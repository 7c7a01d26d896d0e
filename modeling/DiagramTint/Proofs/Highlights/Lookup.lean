import DiagramTint.Proofs.Highlights.Safety

/-!
# Looking up a column

The look-up of a column stops at the first highlight that starts past it.  In a row ordered by first
columns nothing is missed by this, however the highlights overlap and whether or not some of them
are empty.  Painting orders every row, so that a position has no tag exactly if no highlight of the
painting covers it.
-/

namespace DiagramTint

namespace Highlight

/-- Highlight `h` covers a column of a row, and none of the highlights in front of it does. -/
def IsFirstAt (col : Nat) (hs : List Highlight) (h : Highlight) : Prop :=
  ∃ front back, hs = front ++ h :: back ∧ (h.first ≤ col ∧ col < h.stop) ∧
    ∀ g ∈ front, ¬ (g.first ≤ col ∧ col < g.stop)

variable {hs : List Highlight} {col : Nat}

theorem find?_covers_eq_some_iff {h : Highlight} :
    hs.find? (·.covers col) = some h ↔ IsFirstAt col hs h := by
  rw [List.find?_eq_some_iff_append, covers_iff]
  constructor
  · rintro ⟨hcovers, front, back, hhs, hfront⟩
    refine ⟨front, back, hhs, hcovers, ?_⟩
    intro g hg
    rw [← covers_iff]
    simpa using hfront g hg
  · rintro ⟨front, back, hhs, hcovers, hfront⟩
    refine ⟨hcovers, front, back, hhs, ?_⟩
    intro g hg
    have hnot := hfront g hg
    rw [← covers_iff] at hnot
    simpa using hnot

section Sorted

variable (hsorted : hs.Pairwise fun a b => a.first ≤ b.first)

include hsorted

theorem tagAt_eq_some_iff {tag : Tag} :
    tagAt col hs = some tag ↔ ∃ h, IsFirstAt col hs h ∧ h.tag = tag := by
  rw [tagAt_eq_find? col hsorted, Option.map_eq_some_iff]
  simp only [find?_covers_eq_some_iff]

theorem tagAt_eq_none_iff :
    tagAt col hs = none ↔ ∀ h ∈ hs, ¬ (h.first ≤ col ∧ col < h.stop) := by
  rw [tagAt_eq_find? col hsorted, Option.map_eq_none_iff, List.find?_eq_none]
  simp only [covers_iff]

end Sorted

-- In a row out of order the look-up stops too early.
example : tagAt 3 [⟨5, 6, .string⟩, ⟨0, 9, .keyword⟩] = none := by decide

end Highlight

section Painting

variable {language : String} {table : RuleTable} {source : List Char} {tree : Tree String}
  {row : Nat}

theorem mem_flatten_paint {h : Highlight} :
    (row, h) ∈ (paint language table source tree).flatten ↔
      h ∈ (paint language table source tree).line row := by
  rw [Highlights.mem_flatten]
  constructor
  · rintro ⟨entry, hentry, rfl, hmem⟩
    obtain ⟨-, hline, -⟩ := mem_lines_paint hentry
    rwa [hline] at hmem
  · intro hmem
    exact ⟨_, mem_lines_of_mem_line hmem, rfl, hmem⟩

end Painting

/-- In a row ordered by first columns the look-up gives the tag of the first highlight that covers
the column, or none if there is no such highlight.  Each row of a painted tree is so ordered,
whatever its spans, and a position has no tag exactly if no highlight of the painting covers it. -/
theorem tagAt_finds_first :
    (∀ (hs : List Highlight) (col : Nat), hs.Pairwise (fun a b => a.first ≤ b.first) →
      (∀ tag, Highlight.tagAt col hs = some tag ↔
        ∃ h, Highlight.IsFirstAt col hs h ∧ h.tag = tag) ∧
      (Highlight.tagAt col hs = none ↔ ∀ h ∈ hs, ¬ (h.first ≤ col ∧ col < h.stop))) ∧
    ∀ (language : String) (table : RuleTable) (source : List Char) (tree : Tree String),
      ∃ result, paint? language table source tree = some result ∧
        result = paint language table source tree ∧
        (∀ row, (result.line row).Pairwise fun a b => a.first ≤ b.first) ∧
        ∀ row col,
          (∀ tag, result.tagAt row col = some tag ↔
            ∃ h, Highlight.IsFirstAt col (result.line row) h ∧ h.tag = tag) ∧
          (result.tagAt row col = none ↔
            ∀ h, (row, h) ∈ result.flatten → ¬ (h.first ≤ col ∧ col < h.stop)) := by
  refine ⟨?_, ?_⟩
  · intro hs col hsorted
    exact ⟨fun tag => Highlight.tagAt_eq_some_iff hsorted, Highlight.tagAt_eq_none_iff hsorted⟩
  · intro language table source tree
    refine ⟨_, paint?_eq, rfl, fun row => pairwise_line_paint, ?_⟩
    intro row col
    refine ⟨fun tag => Highlight.tagAt_eq_some_iff pairwise_line_paint, ?_⟩
    simp only [mem_flatten_paint]
    exact Highlight.tagAt_eq_none_iff pairwise_line_paint

/-- A row with an empty highlight and with others that overlap or lie inside one another. -/
def crowdedRow : List Highlight :=
  [⟨0, 0, .comment⟩, ⟨0, 4, .keyword⟩, ⟨1, 9, .string⟩, ⟨2, 3, .number⟩, ⟨2, 7, .bool⟩]

theorem tagAt_finds_first_crowdedRow :
    crowdedRow.Pairwise (fun a b => a.first ≤ b.first) ∧
      Highlight.tagAt 5 crowdedRow = some .string ∧ Highlight.tagAt 9 crowdedRow = none ∧
      (1, ⟨0, 2, .string⟩) ∈ (paint "test" tangledTable tangledText tangledTree).flatten ∧
      (paint "test" tangledTable tangledText tangledTree).tagAt 1 1 ≠ none := by
  obtain ⟨hrow, hpaint⟩ := tagAt_finds_first
  have hsorted : crowdedRow.Pairwise fun a b => a.first ≤ b.first := by decide
  have hmem : (1, ⟨0, 2, .string⟩) ∈
      (paint "test" tangledTable tangledText tangledTree).flatten := by
    rw [mem_flatten_paint, mem_line_paint]
    decide +kernel
  refine ⟨hsorted, ?_, ?_, hmem, ?_⟩
  · apply ((hrow crowdedRow 5 hsorted).1 .string).mpr
    refine ⟨⟨1, 9, .string⟩, ?_, rfl⟩
    exact ⟨[⟨0, 0, .comment⟩, ⟨0, 4, .keyword⟩], _, rfl, by decide, by decide⟩
  · apply (hrow crowdedRow 9 hsorted).2.mpr
    decide
  · obtain ⟨result, -, rfl, -, hlookup⟩ := hpaint "test" tangledTable tangledText tangledTree
    intro hnone
    exact (hlookup 1 1).2.mp hnone _ hmem (by decide)

end DiagramTint
