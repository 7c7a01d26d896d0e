import DiagramTint.Proofs.Highlights.Runs

/-!
# Comparing paintings

Two painted trees have the same highlights on a row as soon as the same columns have the same tags,
and the rows of highlights are those of the text that have any.
-/

namespace DiagramTint

variable {language : String} {table : RuleTable} {source source' : List Char}
  {tree tree' : Tree String} {row row' : Nat}

theorem line_paint_eq (hnested : tree.WellNested) (hends : tree.OnBoundaries source)
    (hnested' : tree'.WellNested) (hends' : tree'.OnBoundaries source')
    (h : ∀ col tag, HasTag table source tree row col tag ↔
      HasTag table source' tree' row' col tag) :
    (paint language table source tree).line row =
      (paint language table source' tree').line row' := by
  apply (canonical_line_paint hnested hends).eq_of_shows (canonical_line_paint hnested' hends')
  intro col tag
  rw [shows_line_paint_iff hnested, shows_line_paint_iff hnested', h]

theorem Diagram.line_paint_read_eq
    (h : ∀ col tag, HasTag table source (read source) row col tag ↔
      HasTag table source' (read source') row' col tag) :
    (paint language table source (read source)).line row =
      (paint language table source' (read source')).line row' :=
  line_paint_eq (wellNested_read source) (onBoundaries_read source) (wellNested_read source')
    (onBoundaries_read source') h

theorem line_paint_eq_nil (hnested : tree.WellNested)
    (h : ∀ col tag, ¬ HasTag table source tree row col tag) :
    (paint language table source tree).line row = [] := by
  apply List.eq_nil_iff_forall_not_mem.mpr
  intro x hx
  obtain ⟨p, -, hrow⟩ := mem_line_paint.mp hx
  obtain ⟨-, -, hlt, -⟩ := Paint.mem_rowsOf.mp hrow
  have hcovers : x.covers x.first = true := Highlight.covers_iff.mpr ⟨Nat.le_refl _, hlt⟩
  exact h x.first x.tag ((shows_line_paint_iff hnested).mp ⟨x, hx, hcovers, rfl⟩)

namespace Highlights

/-- The rows of a list of row numbers that have highlights. -/
def rowsAmong (line : Nat → List Highlight) (rows : List Nat) : List (Nat × List Highlight) :=
  (rows.map fun row => (row, line row)).filter fun entry => !entry.2.isEmpty

theorem rowsAmong_append (line : Nat → List Highlight) (rows rows' : List Nat) :
    rowsAmong line (rows ++ rows') = rowsAmong line rows ++ rowsAmong line rows' := by
  rw [rowsAmong, List.map_append, List.filter_append]
  rfl

theorem rowsAmong_congr {line line' : Nat → List Highlight} {rows : List Nat}
    (h : ∀ row ∈ rows, line row = line' row) : rowsAmong line rows = rowsAmong line' rows := by
  have hmap : rows.map (fun row => (row, line row)) = rows.map fun row => (row, line' row) :=
    List.map_congr_left fun row hrow => by rw [h row hrow]
  rw [rowsAmong, hmap, rowsAmong]

theorem rowsAmong_map_add (line : Nat → List Highlight) (n : Nat) (rows : List Nat) :
    rowsAmong line (rows.map fun row => row + n) =
      (rowsAmong (fun row => line (row + n)) rows).map fun entry => (entry.1 + n, entry.2) := by
  rw [rowsAmong, rowsAmong, List.map_map, List.filter_map, List.filter_map, List.map_map]
  rfl

end Highlights

theorem lines_paint :
    (paint language table source tree).lines =
      Highlights.rowsAmong (paint language table source tree).line
        (List.range (source.count '\n' + 1)) := by
  unfold Highlights.rowsAmong
  simp only [line_paint]
  rw [paint, Paint.walk_enter, Text.length_lines]
  rfl

end DiagramTint
