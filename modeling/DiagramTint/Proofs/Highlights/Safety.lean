import DiagramTint.Guarded
import DiagramTint.Proofs.Highlights.Rows
import DiagramTint.Proofs.Text.Index

/-!
# Painting is safe

Painting with every step checked has a result for every text, every rule table and every tree, also
where spans are reversed, overlap, cut characters or lie outside the text: no row or offset is looked
up that is not there, no character is cut and no difference is negative.  The result is that of
painting without the checks, and its rows and columns are rows and columns of the text.
-/

namespace DiagramTint

theorem mapM_eq_some {α β : Type} {f : α → Option β} {g : α → β} {xs : List α}
    (h : ∀ x ∈ xs, f x = some (g x)) : xs.mapM f = some (xs.map g) := by
  induction xs with
  | nil => rfl
  | cons x xs ih =>
      obtain ⟨hx, hxs⟩ := List.forall_mem_cons.mp h
      simp only [List.mapM_cons, hx, ih hxs, Option.bind_eq_bind, Option.bind_some, Option.pure_def,
        List.map_cons]

/-! ## Gathering highlights by row -/

namespace Highlights

variable {line line' : Nat → List Highlight} {rows : List Nat} {row : Nat}

theorem mem_rowsAmong {entry : Nat × List Highlight} :
    entry ∈ rowsAmong line rows ↔
      entry.1 ∈ rows ∧ entry.2 = line entry.1 ∧ entry.2 ≠ [] := by
  simp only [rowsAmong, List.mem_filter, List.mem_map, Bool.not_eq_true', List.isEmpty_eq_false_iff]
  constructor
  · rintro ⟨⟨row, hrow, rfl⟩, hne⟩
    exact ⟨hrow, rfl, hne⟩
  · rintro ⟨hrow, hline, hne⟩
    exact ⟨⟨entry.1, hrow, by rw [← hline]⟩, hne⟩

theorem rowsAmong_cons (line : Nat → List Highlight) (row : Nat) (rows : List Nat) :
    rowsAmong line (row :: rows) =
      if line row = [] then rowsAmong line rows else (row, line row) :: rowsAmong line rows := by
  unfold rowsAmong
  rw [List.map_cons, List.filter_cons]
  by_cases h : line row = [] <;> simp [h]

theorem addTo_of_lt {h : Highlight} {lines : List (Nat × List Highlight)}
    (hlt : ∀ entry ∈ lines, row < entry.1) : addTo row h lines = (row, [h]) :: lines := by
  cases lines with
  | nil => rfl
  | cons entry lines => rw [addTo, if_pos (hlt entry List.mem_cons_self)]

/-- A highlight added to a row comes behind those that the row has. -/
theorem addTo_rowsAmong {h : Highlight} (hrows : rows.Pairwise fun a b => a < b) (hrow : row ∈ rows)
    (hline : line' row = line row ++ [h]) (hothers : ∀ other, other ≠ row → line' other = line other) :
    addTo row h (rowsAmong line rows) = rowsAmong line' rows := by
  induction rows with
  | nil => cases hrow
  | cons first rows ih =>
      obtain ⟨hfirst, hrest⟩ := List.pairwise_cons.mp hrows
      rw [rowsAmong_cons, rowsAmong_cons]
      by_cases heq : first = row
      · subst heq
        have hsame : rowsAmong line' rows = rowsAmong line rows :=
          rowsAmong_congr fun other hother => hothers other (Nat.ne_of_gt (hfirst other hother))
        have hsome : line first ++ [h] ≠ [] := by simp
        rw [hline, if_neg hsome, hsame]
        by_cases hnil : line first = []
        · rw [if_pos hnil, hnil, List.nil_append]
          exact addTo_of_lt fun entry hentry => hfirst entry.1 (mem_rowsAmong.mp hentry).1
        · rw [if_neg hnil, addTo, if_neg (Nat.lt_irrefl _), if_pos rfl]
      · have hmem : row ∈ rows := (List.mem_cons.mp hrow).resolve_left (Ne.symm heq)
        have hlt := hfirst row hmem
        rw [hothers first heq, ← ih hrest hmem]
        split
        · rfl
        · rw [addTo, if_neg (by simp only; omega), if_neg (by simp only; omega)]

/-- The highlights of a row among items, in their order. -/
def itemsOn (items : List (Nat × Highlight)) (row : Nat) : List Highlight :=
  (items.filter fun item => item.1 = row).map Prod.snd

theorem foldl_addTo {items : List (Nat × Highlight)} (hrows : rows.Pairwise fun a b => a < b)
    (hitems : ∀ item ∈ items, item.1 ∈ rows) :
    items.foldl (fun lines item => addTo item.1 item.2 lines) [] =
      rowsAmong (itemsOn items) rows := by
  induction items using List.reverseRecOn with
  | nil =>
      symm
      rw [List.foldl_nil, List.eq_nil_iff_forall_not_mem]
      intro entry hentry
      obtain ⟨-, hline, hne⟩ := mem_rowsAmong.mp hentry
      exact hne hline
  | append_singleton items item ih =>
      have hfront := ih fun other hother => hitems other (List.mem_append_left _ hother)
      have hitem := hitems item (List.mem_append_right items List.mem_cons_self)
      rw [List.foldl_append, hfront, List.foldl_cons, List.foldl_nil]
      apply addTo_rowsAmong hrows hitem
      · simp [itemsOn]
      · intro other hne
        simp [itemsOn, Ne.symm hne]

/-- Items that cover no column are left out. -/
theorem foldl_push {items : List (Nat × Highlight)} (hrows : rows.Pairwise fun a b => a < b)
    (hitems : ∀ item ∈ items.filter (fun item => item.2.first < item.2.stop), item.1 ∈ rows) :
    items.foldl push [] =
      rowsAmong (itemsOn (items.filter fun item => item.2.first < item.2.stop)) rows := by
  rw [← foldl_addTo hrows hitems, List.foldl_filter]
  simp only [decide_eq_true_eq]
  rfl

theorem map_sort_rowsAmong (items : List (Nat × Highlight)) (count : Nat) :
    (rowsAmong (itemsOn items) (List.range count)).map
        (fun entry => (entry.1, entry.2.mergeSort Highlight.before)) =
      Paint.linesOf items count := by
  have hempty : ∀ hs : List Highlight, (hs.mergeSort Highlight.before).isEmpty = hs.isEmpty := by
    intro hs
    rw [Bool.eq_iff_iff, List.isEmpty_iff_length_eq_zero, List.isEmpty_iff_length_eq_zero,
      List.length_mergeSort]
  unfold rowsAmong Paint.linesOf
  rw [List.filter_map, List.filter_map, List.map_map]
  congr 1
  apply List.filter_congr
  intro row _
  exact congrArg not (hempty (itemsOn items row)).symm

end Highlights

/-! ## The rows of a piece -/

namespace Paint

/-- The columns of a piece on one of its rows; there may be none. -/
def itemOn (rows : List Text.Line) (p : Piece) (row : Nat) : Nat × Highlight :=
  let line := rows[row]?.getD default
  (row, ⟨if row = Text.rowOf rows p.span.start then line.column p.span.start else 0,
    if row = Text.rowOf rows p.span.stop then line.column p.span.stop else line.chars.length, p.tag⟩)

/-- The columns of a piece on all its rows. -/
def itemsOf (rows : List Text.Line) (p : Piece) : List (Nat × Highlight) :=
  let top := Text.rowOf rows p.span.start
  (List.range' top (Text.rowOf rows p.span.stop + 1 - top)).map (itemOn rows p)

theorem filter_itemsOf (rows : List Text.Line) (p : Piece) :
    (itemsOf rows p).filter (fun item => item.2.first < item.2.stop) = rowsOf rows p := by
  rw [itemsOf, List.range'_eq_map_range, List.map_map]
  rfl

variable {source : List Char} {p : Piece} {row : Nat}

theorem onRow?_eq (hone : Text.rowOf (Text.lines source) p.span.start =
      Text.rowOf (Text.lines source) p.span.stop)
    (hrow : row = Text.rowOf (Text.lines source) p.span.start) :
    onRow? (Text.Index.ofText source) p row = some (itemOn (Text.lines source) p row) := by
  have hlt := Text.rowOf_lt_length source p.span.start
  rw [← hrow] at hlt
  obtain ⟨line, hline⟩ : ∃ line, (Text.lines source)[row]? = some line :=
    ⟨_, List.getElem?_eq_getElem hlt⟩
  have hstart := (Text.le_rowOf_iff hline p.span.start).mp (Nat.le_of_eq hrow)
  have hstop := (Text.le_rowOf_iff hline p.span.stop).mp (Nat.le_of_eq (hrow.trans hone))
  simp only [onRow?, Text.Index.column?_eq hline hstart, Text.Index.column?_eq hline hstop,
    Option.bind_eq_bind, Option.bind_some, Option.pure_def, itemOn, hline, Option.getD_some,
    ← hone, ← hrow, if_true]

theorem acrossRow?_eq
    (hbottom : row ≤ Text.rowOf (Text.lines source) p.span.stop)
    (hmany : Text.rowOf (Text.lines source) p.span.start ≠
      Text.rowOf (Text.lines source) p.span.stop) :
    acrossRow? (Text.Index.ofText source) p (Text.rowOf (Text.lines source) p.span.start)
        (Text.rowOf (Text.lines source) p.span.stop) row =
      some (itemOn (Text.lines source) p row) := by
  have hlt := Nat.lt_of_le_of_lt hbottom (Text.rowOf_lt_length source p.span.stop)
  obtain ⟨line, hline⟩ : ∃ line, (Text.lines source)[row]? = some line :=
    ⟨_, List.getElem?_eq_getElem hlt⟩
  have hstart := Text.le_rowOf_iff hline p.span.start
  have hstop := Text.le_rowOf_iff hline p.span.stop
  simp only [acrossRow?, Text.Index.line?_eq hline, Option.bind_eq_bind, Option.bind_some,
    Option.pure_def, itemOn, hline, Option.getD_some]
  by_cases hfirst : row = Text.rowOf (Text.lines source) p.span.start
  · have hnot : row ≠ Text.rowOf (Text.lines source) p.span.stop := by omega
    rw [if_pos hfirst, if_pos hfirst, if_neg hnot,
      Text.Index.column?_eq hline (hstart.mp (Nat.le_of_eq hfirst)), Option.bind_some]
  · by_cases hlast : row = Text.rowOf (Text.lines source) p.span.stop
    · rw [if_neg hfirst, if_pos hlast, if_neg hfirst, if_pos hlast,
        Text.Index.column?_eq hline (hstop.mp hbottom), Option.bind_some]
    · rw [if_neg hfirst, if_neg hlast, if_neg hfirst, if_neg hlast]

theorem rowsOf?_eq (p : Piece) :
    rowsOf? (Text.Index.ofText source) p = some (itemsOf (Text.lines source) p) := by
  simp only [rowsOf?, Text.Index.rowOf?_eq, Option.bind_eq_bind, Option.bind_some, itemsOf]
  split
  · rename_i hone
    rw [onRow?_eq hone rfl, Option.bind_some, ← hone, Nat.add_sub_cancel_left]
    rfl
  · rename_i hmany
    apply mapM_eq_some
    intro row hrow
    rw [List.mem_range'_1] at hrow
    exact acrossRow?_eq (by omega) hmany

end Paint

/-! ## The whole painting -/

section Painting

variable {language : String} {table : RuleTable} {source : List Char} {tree : Tree String}

theorem paint?_eq :
    paint? language table source tree = some (paint language table source tree) := by
  simp only [paint?, paint]
  generalize Paint.joinAll (Paint.walk table.resolve (Text.byteLength source)
    [.enter [] none tree]) = pieces
  have hmap : pieces.mapM (Paint.rowsOf? (Text.Index.ofText source)) =
      some (pieces.map (Paint.itemsOf (Text.lines source))) :=
    mapM_eq_some fun p _ => Paint.rowsOf?_eq p
  have hitems : (pieces.map (Paint.itemsOf (Text.lines source))).flatten.filter
      (fun item => item.2.first < item.2.stop) =
        pieces.flatMap (Paint.rowsOf (Text.lines source)) := by
    rw [← List.flatMap_def, List.filter_flatMap]
    simp only [Paint.filter_itemsOf]
  have hrange : (List.range (Text.lines source).length).Pairwise fun a b => a < b :=
    List.pairwise_lt_range
  simp only [hmap, Option.bind_eq_bind, Option.bind_some, Option.pure_def]
  rw [Highlights.foldl_push hrange, hitems, Highlights.map_sort_rowsAmong]
  intro item hitem
  rw [hitems, List.mem_flatMap] at hitem
  obtain ⟨p, -, hp⟩ := hitem
  exact List.mem_range.mpr (Paint.row_lt_of_mem_rowsOf hp)

theorem columns_of_mem_line {row : Nat} {raw : List Char} {h : Highlight}
    (hraw : (Text.splitWhere (· == '\n') source)[row]? = some raw)
    (hmem : h ∈ (paint language table source tree).line row) :
    h.first < h.stop ∧ h.stop ≤ (Text.dropReturn raw).length := by
  obtain ⟨p, -, hrow⟩ := mem_line_paint.mp hmem
  obtain ⟨-, -, hlt, -⟩ := Paint.mem_rowsOf.mp hrow
  obtain ⟨pre, post, hcut⟩ := Text.exists_cutAt hraw
  have hstop := Paint.stop_le_of_mem_rowsOf hrow
  rw [hcut.getElem?_lines, Option.getD_some] at hstop
  exact ⟨hlt, hstop⟩

theorem mem_lines_paint {entry : Nat × List Highlight}
    (h : entry ∈ (paint language table source tree).lines) :
    entry.1 ≤ source.count '\n' ∧
      entry.2 = (paint language table source tree).line entry.1 ∧ entry.2 ≠ [] := by
  rw [lines_paint, Highlights.mem_rowsAmong, List.mem_range] at h
  exact ⟨Nat.le_of_lt_succ h.1, h.2⟩

theorem mem_lines_of_mem_line {row : Nat} {h : Highlight}
    (hmem : h ∈ (paint language table source tree).line row) :
    (row, (paint language table source tree).line row) ∈
      (paint language table source tree).lines := by
  obtain ⟨p, -, hrow⟩ := mem_line_paint.mp hmem
  have hlt := Paint.row_lt_of_mem_rowsOf hrow
  rw [Text.length_lines] at hlt
  rw [lines_paint, Highlights.mem_rowsAmong, List.mem_range]
  exact ⟨hlt, rfl, List.ne_nil_of_mem hmem⟩

end Painting

/-- Painting with every look-up, cut and subtraction checked has a result, whatever the spans of the
tree.  Its rows are rows of the text, ascending and none of them empty, and the highlights of a row
are in order and lie in the columns of the row without its line end. -/
theorem paint?_safe (language : String) (table : RuleTable) (source : List Char)
    (tree : Tree String) :
    ∃ result, paint? language table source tree = some result ∧
      result = paint language table source tree ∧
      result.lines.Pairwise (fun a b => a.1 < b.1) ∧
      ∀ entry ∈ result.lines,
        entry.2 ≠ [] ∧ entry.1 ≤ source.count '\n' ∧
        (∃ raw, (Text.splitWhere (· == '\n') source)[entry.1]? = some raw ∧
          ∀ h ∈ entry.2, h.first < h.stop ∧ h.stop ≤ (Text.dropReturn raw).length) ∧
        entry.2.Pairwise fun a b => a.first < b.first ∨ a.first = b.first ∧ a.stop ≤ b.stop := by
  refine ⟨_, paint?_eq, rfl, ?_, ?_⟩
  · rw [lines_paint]
    apply List.Pairwise.filter
    rw [List.pairwise_map]
    exact List.pairwise_lt_range
  · intro entry hentry
    obtain ⟨hrow, hline, hne⟩ := mem_lines_paint hentry
    obtain ⟨raw, hraw⟩ := Text.exists_row hrow
    refine ⟨hne, hrow, ⟨raw, hraw, ?_⟩, ?_⟩
    · intro h hmem
      rw [hline] at hmem
      exact columns_of_mem_line hraw hmem
    · rw [hline, line_paint]
      refine (Paint.pairwise_before_lineOf _ _).imp ?_
      intro a b hab
      simpa [Highlight.before] using hab

/-- Two rows, with a character of two bytes on the first and one of three on the second. -/
def tangledText : List Char := ['é', 'a', '\r', '\n', 'b', '→']

/-- A root that starts inside the first character of `tangledText` and ends past the text, with
children that overlap, stand out of order, lie outside the text or are reversed. -/
def tangledTree : Tree String :=
  .node "Program" ⟨1, 20⟩
    [.leaf "Word" ⟨5, 40⟩, .leaf "Mark" ⟨4, 1⟩, .leaf "Word" ⟨0, 7⟩, .leaf "Word" ⟨30, 8⟩]

def tangledTable : RuleTable :=
  RuleTable.build [⟨⟨"Program", []⟩, .keyword⟩, ⟨⟨"Word", []⟩, .string⟩]

theorem paint?_tangledTree :
    ∃ result entry, paint? "test" tangledTable tangledText tangledTree = some result ∧
      entry ∈ result.lines ∧ ⟨0, 2, .string⟩ ∈ entry.2 ∧ entry.1 = 1 ∧
      ∃ raw, (Text.splitWhere (· == '\n') tangledText)[1]? = some raw ∧
        2 ≤ (Text.dropReturn raw).length := by
  obtain ⟨result, hresult, rfl, -, hrows⟩ :=
    paint?_safe "test" tangledTable tangledText tangledTree
  have hmem : ⟨0, 2, .string⟩ ∈ (paint "test" tangledTable tangledText tangledTree).line 1 := by
    rw [mem_line_paint]
    decide +kernel
  have hentry := mem_lines_of_mem_line hmem
  obtain ⟨-, -, ⟨raw, hraw, hcolumns⟩, -⟩ := hrows _ hentry
  exact ⟨_, _, hresult, hentry, hmem, rfl, raw, hraw, (hcolumns _ hmem).2⟩

end DiagramTint
