import DiagramTint.Proofs.Highlights.Painting
import DiagramTint.Proofs.Text.Offsets
import Mathlib.Data.List.Chain

/-!
# The order of highlights

Pieces that follow one another in the text give highlights that follow one another: sorting each row
and listing the rows changes nothing about their order.  Pieces that are not to be joined and lie
within a line therefore come out one by one, each as the columns of its text.
-/

namespace DiagramTint

namespace Paint

/-- Two pieces that joining leaves apart. -/
def Apart (p q : Piece) : Prop :=
  ¬ (p.tag = q.tag ∧ p.span.stop = q.span.start)

/-- Highlights are listed by row, and on a row in their order. -/
def Precedes (a b : Nat × Highlight) : Prop :=
  a.1 < b.1 ∨ a.1 = b.1 ∧ a.2.before b.2 = true

/-! ## Joining -/

theorem foldl_join_eq {done ps : List Piece} (hnonempty : ∀ p ∈ ps, p.span.start < p.span.stop)
    (hfirst : ∀ q ∈ done.head?, ∀ p ∈ ps.head?, Apart q p) (hapart : ps.IsChain Apart) :
    ps.foldl join done = ps.reverse ++ done := by
  induction ps generalizing done with
  | nil => rfl
  | cons p ps ih =>
      obtain ⟨hp, hps⟩ := List.forall_mem_cons.mp hnonempty
      obtain ⟨hnext, hrest⟩ := List.isChain_cons.mp hapart
      have hjoin : join done p = p :: done := by
        unfold join
        rw [if_neg (by omega)]
        cases done with
        | nil => rfl
        | cons last rest => exact if_neg (hfirst last rfl p rfl)
      have hnext' : ∀ q ∈ (p :: done).head?, ∀ r ∈ ps.head?, Apart q r := by
        intro q hq
        rw [List.head?_cons, Option.mem_some_iff] at hq
        rw [← hq]
        exact hnext
      rw [List.foldl_cons, hjoin, ih hps hnext' hrest, List.reverse_cons, List.append_assoc,
        List.singleton_append]

theorem joinAll_eq_self {ps : List Piece} (hnonempty : ∀ p ∈ ps, p.span.start < p.span.stop)
    (hapart : ps.IsChain Apart) : joinAll ps = ps := by
  rw [joinAll, foldl_join_eq hnonempty (by simp) hapart, List.append_nil, List.reverse_reverse]

/-! ## Rows -/

theorem pairwise_rowsOf (rows : List Text.Line) (p : Piece) :
    (rowsOf rows p).Pairwise fun a b => a.1 < b.1 := by
  apply List.Pairwise.filter
  rw [List.pairwise_map]
  refine List.pairwise_lt_range.imp ?_
  intro i j hlt
  exact Nat.add_lt_add_left hlt _

/-- On a row of two pieces the first one ends and the second one starts. -/
theorem columns_of_mem_rowsOf {rows : List Text.Line} {p q : Piece} {row : Nat}
    {left right : Highlight} (h : p.span.stop ≤ q.span.start) (hleft : (row, left) ∈ rowsOf rows p)
    (hright : (row, right) ∈ rowsOf rows q) :
    (Text.rowOf rows p.span.stop = row ∧ Text.rowOf rows q.span.start = row) ∧
      left.stop = (rows[row]?.getD default).column p.span.stop ∧
      right.first = (rows[row]?.getD default).column q.span.start := by
  obtain ⟨-, hbottom, -, -, -, hstop⟩ := mem_rowsOf.mp hleft
  obtain ⟨htop, -, -, -, hfirst, -⟩ := mem_rowsOf.mp hright
  have hrows : Text.rowOf rows p.span.stop ≤ Text.rowOf rows q.span.start := Text.rowOf_mono h
  rw [if_pos (by omega)] at hstop hfirst
  exact ⟨⟨by omega, by omega⟩, hstop, hfirst⟩

theorem stop_le_first_of_mem_rowsOf {rows : List Text.Line} {p q : Piece} {row : Nat}
    {left right : Highlight} (h : p.span.stop ≤ q.span.start) (hleft : (row, left) ∈ rowsOf rows p)
    (hright : (row, right) ∈ rowsOf rows q) : left.stop ≤ right.first := by
  obtain ⟨-, hstop, hfirst⟩ := columns_of_mem_rowsOf h hleft hright
  rw [hstop, hfirst]
  exact Text.Line.column_mono h _

theorem precedes_of_mem_rowsOf {rows : List Text.Line} {p q : Piece} {a b : Nat × Highlight}
    (h : p.span.stop ≤ q.span.start) (ha : a ∈ rowsOf rows p) (hb : b ∈ rowsOf rows q) :
    Precedes a b := by
  obtain ⟨row, left⟩ := a
  obtain ⟨row', right⟩ := b
  obtain ⟨-, hbottom, hleft, -⟩ := mem_rowsOf.mp ha
  obtain ⟨htop, -⟩ := mem_rowsOf.mp hb
  have hrows : Text.rowOf rows p.span.stop ≤ Text.rowOf rows q.span.start := Text.rowOf_mono h
  by_cases hlt : row < row'
  · exact Or.inl hlt
  · obtain rfl : row = row' := by omega
    have hcolumn := stop_le_first_of_mem_rowsOf h ha hb
    refine Or.inr ⟨rfl, ?_⟩
    have hbefore : left.first < right.first := by omega
    simp [Highlight.before, hbefore]

theorem pairwise_flatMap_rowsOf {rows : List Text.Line} {ps : List Piece}
    (h : ps.Pairwise fun p q => p.span.stop ≤ q.span.start) :
    (ps.flatMap (rowsOf rows)).Pairwise Precedes := by
  rw [List.pairwise_flatMap]
  refine ⟨fun p _ => (pairwise_rowsOf rows p).imp Or.inl, h.imp ?_⟩
  intro p q hpq a ha b hb
  exact precedes_of_mem_rowsOf hpq ha hb

/-! ## Listing -/

theorem filter_lt_succ {items : List (Nat × Highlight)}
    (h : items.Pairwise fun a b => a.1 ≤ b.1) (n : Nat) :
    items.filter (fun e => e.1 < n) ++ items.filter (fun e => e.1 = n) =
      items.filter fun e => e.1 < n + 1 := by
  induction items with
  | nil => rfl
  | cons e items ih =>
      obtain ⟨hfirst, hrest⟩ := List.pairwise_cons.mp h
      by_cases hlt : e.1 < n
      · rw [List.filter_cons_of_pos (by simpa using hlt),
          List.filter_cons_of_neg (by simp only [decide_eq_true_eq]; omega),
          List.filter_cons_of_pos (by simp only [decide_eq_true_eq]; omega), ← ih hrest,
          List.cons_append]
      · -- Nothing behind the first item of a row stands on an earlier row.
        have hnone : items.filter (fun e => e.1 < n) = [] := by
          rw [List.filter_eq_nil_iff]
          intro f hf
          have hle := hfirst f hf
          simp only [decide_eq_true_eq]
          omega
        rw [hnone, List.nil_append] at ih
        rw [List.filter_cons_of_neg (by simpa using hlt), hnone, List.nil_append,
          List.filter_cons, List.filter_cons, ih hrest]
        have hiff : e.1 = n ↔ e.1 < n + 1 := by omega
        simp only [hiff]

theorem flatMap_range_filter {items : List (Nat × Highlight)}
    (h : items.Pairwise fun a b => a.1 ≤ b.1) (n : Nat) :
    (List.range n).flatMap (fun row => items.filter fun e => e.1 = row) =
      items.filter fun e => e.1 < n := by
  induction n with
  | zero => simp
  | succ n ih =>
      rw [List.range_succ, List.flatMap_append, ih, List.flatMap_singleton, filter_lt_succ h]

theorem lineOf_eq_of_pairwise {items : List (Nat × Highlight)} (h : items.Pairwise Precedes)
    (row : Nat) : lineOf items row = (items.filter fun e => e.1 = row).map Prod.snd := by
  apply List.mergeSort_of_pairwise
  rw [List.pairwise_map, List.pairwise_filter]
  refine h.imp ?_
  intro a b hab ha hb
  simp only [decide_eq_true_eq] at ha hb
  rcases hab with hlt | ⟨-, hbefore⟩
  · omega
  · exact hbefore

end Paint

namespace Highlights

variable {language : String} {items : List (Nat × Highlight)} {count : Nat}

theorem mem_flatten {h : Highlights} {item : Nat × Highlight} :
    item ∈ h.flatten ↔ ∃ entry ∈ h.lines, entry.1 = item.1 ∧ item.2 ∈ entry.2 := by
  simp only [flatten, List.mem_flatMap, List.mem_map]
  constructor
  · rintro ⟨entry, hentry, x, hx, rfl⟩
    exact ⟨entry, hentry, rfl, hx⟩
  · rintro ⟨entry, hentry, hrow, hitem⟩
    exact ⟨entry, hentry, item.2, hitem, by rw [hrow]⟩

theorem flatten_linesOf_eq_flatMap :
    (⟨language, Paint.linesOf items count⟩ : Highlights).flatten =
      (List.range count).flatMap fun row => (Paint.lineOf items row).map fun x => (row, x) := by
  rw [flatten, Paint.linesOf]
  induction List.range count with
  | nil => rfl
  | cons row rows ih =>
      rw [List.map_cons, List.flatMap_cons, ← ih, List.filter_cons]
      split
      · rw [List.flatMap_cons]
      · rename_i hempty
        have hnil : Paint.lineOf items row = [] := by simpa using hempty
        rw [hnil, List.map_nil, List.nil_append]

/-- Highlights that are in order are listed as they are. -/
theorem flatten_linesOf (h : items.Pairwise Paint.Precedes) (hcount : ∀ e ∈ items, e.1 < count) :
    (⟨language, Paint.linesOf items count⟩ : Highlights).flatten = items := by
  have hrows : items.Pairwise fun a b => a.1 ≤ b.1 := by
    refine h.imp ?_
    intro a b hab
    rcases hab with hlt | ⟨heq, -⟩
    · exact Nat.le_of_lt hlt
    · exact Nat.le_of_eq heq
  have hline : ∀ row, ((Paint.lineOf items row).map fun x => (row, x)) =
      items.filter fun e => e.1 = row := by
    intro row
    rw [Paint.lineOf_eq_of_pairwise h, List.map_map]
    refine (List.map_congr_left ?_).trans (List.map_id _)
    intro e he
    have hrow : e.1 = row := by simpa using (List.mem_filter.mp he).2
    exact Prod.ext hrow.symm rfl
  calc (⟨language, Paint.linesOf items count⟩ : Highlights).flatten
      = (List.range count).flatMap fun row => (Paint.lineOf items row).map fun x => (row, x) :=
        flatten_linesOf_eq_flatMap
    _ = (List.range count).flatMap fun row => items.filter fun e => e.1 = row := by
        simp only [hline]
    _ = items.filter fun e => e.1 < count := Paint.flatMap_range_filter hrows count
    _ = items := by
        rw [List.filter_eq_self]
        simpa using hcount

/-- Pieces that follow one another are listed one after the other. -/
theorem flatten_paint {table : RuleTable} {source : List Char} {tree : Tree String}
    (h : (Paint.joinAll (rootPieces table source tree)).Pairwise fun p q =>
      p.span.stop ≤ q.span.start) :
    (paint language table source tree).flatten =
      (Paint.joinAll (rootPieces table source tree)).flatMap
        (Paint.rowsOf (Text.lines source)) := by
  rw [paint, Paint.walk_enter]
  apply flatten_linesOf
  · exact Paint.pairwise_flatMap_rowsOf h
  · intro e he
    obtain ⟨p, -, hp⟩ := List.mem_flatMap.mp he
    exact Paint.row_lt_of_mem_rowsOf hp

end Highlights

/-! ## Pieces within a line -/

/-- A piece within a line gives one highlight, the columns of its text. -/
theorem Paint.rowsOf_text {text post : List Char} (htext : '\n' ∉ text)
    (hne : Text.visible text post ≠ []) (pre : List Char) (tag : Tag) :
    Paint.rowsOf (Text.lines (pre ++ (text ++ post)))
        ⟨⟨Text.byteLength pre, Text.byteLength (pre ++ text)⟩, tag⟩ =
      [(pre.count '\n', ⟨Text.columnAfter pre,
        Text.columnAfter pre + (Text.visible text post).length, tag⟩)] := by
  have htext' : text ≠ [] := by
    rintro rfl
    exact hne (Text.visible_nil post)
  obtain ⟨line, hline, hfirst, hstop⟩ := Text.exists_columns htext htext' pre post
  have htop := Text.rowOf_byteLength pre (text ++ post)
  have hbottom : Text.rowOf (Text.lines (pre ++ (text ++ post)))
      (Text.byteLength (pre ++ text)) = pre.count '\n' := by
    rw [← List.append_assoc, Text.rowOf_byteLength, List.count_append,
      List.count_eq_zero_of_not_mem htext, Nat.add_zero]
  have hlen := List.length_pos_iff.mpr hne
  rw [Paint.rowsOf]
  simp only [htop, hbottom, Nat.add_sub_cancel_left, List.range_one, List.map_cons, List.map_nil,
    Nat.add_zero, if_true, hline, Option.getD_some, hfirst, hstop]
  exact List.filter_cons_of_pos (by simp only [decide_eq_true_eq]; omega)

end DiagramTint
