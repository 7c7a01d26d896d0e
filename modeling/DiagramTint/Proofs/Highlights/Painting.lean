import DiagramTint.Proofs.Highlights.Pieces
import DiagramTint.Proofs.Text.Position

/-!
# Painting a text

The pieces of a tree are joined, cut at the line ends, turned into columns and sorted, and a
position is looked up in what comes out.  None of this changes what is painted: a character has a
tag exactly if a piece with that tag contains its last byte.  In a well-nested tree this is the tag
of the innermost node around that byte.
-/

namespace DiagramTint

/-! ## Joined pieces -/

namespace Paint

theorem nonempty_join {done : List Piece} (p : Piece)
    (h : ∀ q ∈ done, q.span.start < q.span.stop) :
    ∀ q ∈ join done p, q.span.start < q.span.stop := by
  unfold join
  split
  · exact h
  · rename_i hp
    split
    · simpa using hp
    · rename_i last rest
      have hlast := h last List.mem_cons_self
      split
      · rename_i htouch
        rw [List.forall_mem_cons]
        refine ⟨?_, fun q hq => h q (List.mem_cons_of_mem last hq)⟩
        simp only
        omega
      · rw [List.forall_mem_cons]
        exact ⟨Nat.lt_of_not_le hp, h⟩

theorem paints_join {done : List Piece} {p : Piece} {byte : Nat} {tag : Tag}
    (h : ∀ q ∈ done, q.span.start < q.span.stop) :
    Paints (join done p) byte tag ↔
      Paints done byte tag ∨ (p.span.Contains byte ∧ p.tag = tag) := by
  unfold join
  split
  · rename_i hempty
    have hnone : ¬ p.span.Contains byte := by
      rintro ⟨hstart, hstop⟩
      omega
    simp [hnone]
  · rename_i hp
    split
    · simp
    · rename_i last rest
      have hlast := h last List.mem_cons_self
      split
      · rename_i htouch
        -- The joined span is the union of the two, since they touch and neither is empty.
        have hunion : (⟨last.span.start, p.span.stop⟩ : Span).Contains byte ↔
            last.span.Contains byte ∨ p.span.Contains byte := by
          simp only [Span.Contains]
          omega
        simp only [paints_cons, hunion, htouch.1]
        tauto
      · simp only [paints_cons]
        tauto

theorem paints_foldl_join {done ps : List Piece} {byte : Nat} {tag : Tag}
    (h : ∀ q ∈ done, q.span.start < q.span.stop) :
    Paints (ps.foldl join done) byte tag ↔ Paints done byte tag ∨ Paints ps byte tag := by
  induction ps generalizing done with
  | nil => simp
  | cons p ps ih =>
      rw [List.foldl_cons, ih (nonempty_join p h), paints_join h, paints_cons, or_assoc]

/-- Joining changes no byte. -/
theorem paints_joinAll {ps : List Piece} {byte : Nat} {tag : Tag} :
    Paints (joinAll ps) byte tag ↔ Paints ps byte tag := by
  have hfold := @paints_foldl_join [] ps byte tag (by simp)
  simp only [paints_nil, false_or] at hfold
  rw [← hfold]
  simp [Paints, joinAll]

/-! ## Columns of a piece -/

theorem mem_rowsOf {rows : List Text.Line} {p : Piece} {row : Nat} {h : Highlight} :
    (row, h) ∈ rowsOf rows p ↔
      Text.rowOf rows p.span.start ≤ row ∧ row ≤ Text.rowOf rows p.span.stop ∧
      h.first < h.stop ∧ h.tag = p.tag ∧
      h.first = (if row = Text.rowOf rows p.span.start then
        (rows[row]?.getD default).column p.span.start else 0) ∧
      h.stop = (if row = Text.rowOf rows p.span.stop then
        (rows[row]?.getD default).column p.span.stop
        else (rows[row]?.getD default).chars.length) := by
  simp only [rowsOf, List.mem_filter, List.mem_map, List.mem_range, Prod.mk.injEq,
    decide_eq_true_eq]
  constructor
  · rintro ⟨⟨k, hk, rfl, rfl⟩, hlt⟩
    exact ⟨by omega, by omega, hlt, rfl, rfl, rfl⟩
  · rintro ⟨htop, hbottom, hlt, htag, hfirst, hstop⟩
    refine ⟨⟨row - Text.rowOf rows p.span.start, by omega, by omega, ?_⟩, hlt⟩
    rw [Nat.add_sub_cancel' htop, ← hfirst, ← hstop, ← htag]

theorem row_lt_of_mem_rowsOf {source : List Char} {p : Piece} {row : Nat} {h : Highlight}
    (hmem : (row, h) ∈ rowsOf (Text.lines source) p) : row < (Text.lines source).length := by
  obtain ⟨-, hbottom, -⟩ := mem_rowsOf.mp hmem
  exact Nat.lt_of_le_of_lt hbottom (Text.rowOf_lt_length source p.span.stop)

theorem stop_le_of_mem_rowsOf {rows : List Text.Line} {p : Piece} {row : Nat} {h : Highlight}
    (hmem : (row, h) ∈ rowsOf rows p) : h.stop ≤ (rows[row]?.getD default).chars.length := by
  obtain ⟨-, -, -, -, -, hstop⟩ := mem_rowsOf.mp hmem
  rw [hstop]
  split
  · exact Text.Line.column_le_length _ _
  · exact Nat.le_refl _

section Character

variable {source : List Char} {row col last : Nat} {line : Text.Line}

theorem first_le_iff (hline : (Text.lines source)[row]? = some line)
    (hchar : line.HasChar col last) {start : Nat}
    (htop : Text.rowOf (Text.lines source) start ≤ row) :
    (if row = Text.rowOf (Text.lines source) start then line.column start else 0) ≤ col ↔
      start ≤ last := by
  split
  · rw [← Nat.not_lt, hchar.lt_column_iff start, Nat.not_lt]
  · have hle := Text.le_rowOf_iff hline start
    have hfrom := hchar.start_le
    omega

theorem lt_stop_iff (hline : (Text.lines source)[row]? = some line)
    (hchar : line.HasChar col last) {stop : Nat}
    (hbottom : row ≤ Text.rowOf (Text.lines source) stop) :
    col < (if row = Text.rowOf (Text.lines source) stop then line.column stop
      else line.chars.length) ↔ last < stop := by
  split
  · exact hchar.lt_column_iff stop
  · have hlt : last < stop := hchar.lt_of_lt_rowOf hline (by omega)
    simp [hlt, hchar.1]

/-- A piece covers the column of a character exactly if it contains the character's last byte. -/
theorem covers_rowsOf_iff (hline : (Text.lines source)[row]? = some line)
    (hchar : line.HasChar col last) {p : Piece} {tag : Tag} :
    (∃ h, (row, h) ∈ rowsOf (Text.lines source) p ∧ h.covers col = true ∧ h.tag = tag) ↔
      p.span.Contains last ∧ p.tag = tag := by
  have hget : (Text.lines source)[row]?.getD default = line := by
    rw [hline, Option.getD_some]
  simp only [mem_rowsOf, hget, Highlight.covers, Bool.and_eq_true, decide_eq_true_eq]
  constructor
  · rintro ⟨h, ⟨htop, hbottom, -, htag, hfirst, hstop⟩, ⟨hcovfirst, hcovstop⟩, rfl⟩
    rw [hfirst, first_le_iff hline hchar htop] at hcovfirst
    rw [hstop, lt_stop_iff hline hchar hbottom] at hcovstop
    exact ⟨⟨hcovfirst, hcovstop⟩, htag.symm⟩
  · rintro ⟨⟨hfirst, hstop⟩, rfl⟩
    have htop : Text.rowOf (Text.lines source) p.span.start ≤ row := by
      by_contra hrow
      have hlt := hchar.lt_of_lt_rowOf hline (Nat.lt_of_not_le hrow)
      omega
    have hbottom : row ≤ Text.rowOf (Text.lines source) p.span.stop := by
      have hfrom := hchar.start_le
      exact (Text.le_rowOf_iff hline p.span.stop).mpr (by omega)
    have hcovfirst := (first_le_iff hline hchar htop).mpr hfirst
    have hcovstop := (lt_stop_iff hline hchar hbottom).mpr hstop
    exact ⟨⟨_, _, p.tag⟩, ⟨htop, hbottom, Nat.lt_of_le_of_lt hcovfirst hcovstop, rfl, rfl, rfl⟩,
      ⟨hcovfirst, hcovstop⟩, rfl⟩

end Character

/-- What a piece covers on any row are characters of that row. -/
theorem exists_charAt_of_covers {source : List Char} {p : Piece} {row col : Nat} {h : Highlight}
    (hmem : (row, h) ∈ rowsOf (Text.lines source) p) (hcovers : h.covers col = true) :
    ∃ last, Text.CharAt source row col last := by
  simp only [Highlight.covers, Bool.and_eq_true, decide_eq_true_eq] at hcovers
  have hline := List.getElem?_eq_getElem (row_lt_of_mem_rowsOf hmem)
  have hstop := stop_le_of_mem_rowsOf hmem
  rw [hline, Option.getD_some] at hstop
  have hcol := Nat.lt_of_lt_of_le hcovers.2 hstop
  have hpos := Text.byteLength_take_succ_pos hcol
  exact ⟨_, Text.charAt_iff_lines.mpr ⟨_, hline, hcol, (Nat.sub_add_cancel (by omega))⟩⟩

/-! ## Looking up a position -/

theorem pairwise_before_lineOf (items : List (Nat × Highlight)) (row : Nat) :
    (lineOf items row).Pairwise fun a b => a.before b = true := by
  apply List.pairwise_mergeSort
  · intro a b c hab hbc
    simp only [Highlight.before, Bool.or_eq_true, Bool.and_eq_true, decide_eq_true_eq] at *
    omega
  · intro a b
    simp only [Highlight.before, Bool.or_eq_true, Bool.and_eq_true, decide_eq_true_eq]
    omega

theorem pairwise_lineOf (items : List (Nat × Highlight)) (row : Nat) :
    (lineOf items row).Pairwise fun a b => a.first ≤ b.first := by
  refine (pairwise_before_lineOf items row).imp fun {a b} hab => ?_
  simp only [Highlight.before, Bool.or_eq_true, Bool.and_eq_true, decide_eq_true_eq] at hab
  omega

theorem mem_lineOf {items : List (Nat × Highlight)} {row : Nat} {h : Highlight} :
    h ∈ lineOf items row ↔ (row, h) ∈ items := by
  simp only [lineOf, List.mem_mergeSort, List.mem_map, List.mem_filter, decide_eq_true_eq]
  constructor
  · rintro ⟨⟨r, g⟩, ⟨hmem, rfl⟩, rfl⟩
    exact hmem
  · intro hmem
    exact ⟨(row, h), ⟨hmem, rfl⟩, rfl⟩

end Paint

theorem Highlight.tagAt_eq_find? {hs : List Highlight} (col : Nat)
    (h : hs.Pairwise fun a b => a.first ≤ b.first) :
    Highlight.tagAt col hs = (hs.find? (·.covers col)).map Highlight.tag := by
  induction hs with
  | nil => rfl
  | cons first hs ih =>
      obtain ⟨hfirst, hrest⟩ := List.pairwise_cons.mp h
      rw [Highlight.tagAt, List.find?_cons]
      cases hcovers : first.covers col with
      | true => rfl
      | false =>
          simp only [Bool.false_eq_true, if_false]
          split
          · -- Everything after a highlight that starts past the column starts past it, too.
            rename_i hpast
            have hnone : hs.find? (·.covers col) = none := by
              rw [List.find?_eq_none]
              intro g hg
              have hge := hfirst g hg
              simp only [Highlight.covers, Bool.and_eq_true, decide_eq_true_eq]
              omega
            rw [hnone, Option.map_none]
          · exact ih hrest

theorem Highlights.line_linesOf {language : String} {items : List (Nat × Highlight)}
    {count row : Nat} (h : ∀ e ∈ items, e.1 < count) :
    (⟨language, Paint.linesOf items count⟩ : Highlights).line row = Paint.lineOf items row := by
  unfold Highlights.line
  cases hfind : (Paint.linesOf items count).find? fun entry => entry.1 = row with
  | some entry =>
      have hmem := List.mem_of_find?_eq_some hfind
      have hrow := List.find?_some hfind
      simp only [Paint.linesOf, List.mem_filter, List.mem_map, decide_eq_true_eq] at hmem hrow
      obtain ⟨⟨r, -, rfl⟩, -⟩ := hmem
      simp only [Option.map_some, Option.getD_some, ← hrow]
  | none =>
      simp only [Option.map_none, Option.getD_none]
      by_contra hne
      obtain ⟨g, hg⟩ := List.exists_mem_of_ne_nil _ (Ne.symm hne)
      have hlt := h _ (Paint.mem_lineOf.mp hg)
      refine List.find?_eq_none.mp hfind (row, Paint.lineOf items row) ?_ (by simp)
      simp only [Paint.linesOf, List.mem_filter, List.mem_map, List.mem_range]
      refine ⟨⟨row, hlt, rfl⟩, ?_⟩
      simpa using Ne.symm hne

/-! ## The tag of a character -/

section Character

variable {language : String} {table : RuleTable} {source : List Char} {tree : Tree String}
  {row col last : Nat}

/-- The pieces of the whole tree. -/
def rootPieces (table : RuleTable) (source : List Char) (tree : Tree String) : List Piece :=
  tree.pieces table.resolve (Text.byteLength source) [] none

theorem line_paint :
    (paint language table source tree).line row =
      Paint.lineOf ((Paint.joinAll (rootPieces table source tree)).flatMap
        (Paint.rowsOf (Text.lines source))) row := by
  rw [paint, Paint.walk_enter]
  apply Highlights.line_linesOf
  intro e he
  obtain ⟨p, -, hp⟩ := List.mem_flatMap.mp he
  exact Paint.row_lt_of_mem_rowsOf hp

theorem mem_line_paint {h : Highlight} :
    h ∈ (paint language table source tree).line row ↔
      ∃ p ∈ Paint.joinAll (rootPieces table source tree),
        (row, h) ∈ Paint.rowsOf (Text.lines source) p := by
  rw [line_paint, Paint.mem_lineOf, List.mem_flatMap]

theorem pairwise_line_paint :
    ((paint language table source tree).line row).Pairwise fun a b => a.first ≤ b.first := by
  rw [line_paint]
  exact Paint.pairwise_lineOf _ row

theorem tagAt_paint_eq_find? :
    (paint language table source tree).tagAt row col =
      (((paint language table source tree).line row).find? (·.covers col)).map Highlight.tag :=
  Highlight.tagAt_eq_find? col pairwise_line_paint

theorem exists_covers_iff (hchar : Text.CharAt source row col last) {tag : Tag} :
    (∃ h ∈ (paint language table source tree).line row, h.covers col = true ∧ h.tag = tag) ↔
      Paints (rootPieces table source tree) last tag := by
  obtain ⟨line, hline, hhas⟩ := Text.charAt_iff_lines.mp hchar
  rw [← Paint.paints_joinAll]
  constructor
  · rintro ⟨h, hmem, hcovers, htag⟩
    obtain ⟨p, hp, hrow⟩ := mem_line_paint.mp hmem
    exact ⟨p, hp, (Paint.covers_rowsOf_iff hline hhas).mp ⟨h, hrow, hcovers, htag⟩⟩
  · rintro ⟨p, hp, hpaints⟩
    obtain ⟨h, hrow, hcovers, htag⟩ := (Paint.covers_rowsOf_iff hline hhas).mpr hpaints
    exact ⟨h, mem_line_paint.mpr ⟨p, hp, hrow⟩, hcovers, htag⟩

theorem paints_of_tagAt_eq_some (hchar : Text.CharAt source row col last) {tag : Tag}
    (h : (paint language table source tree).tagAt row col = some tag) :
    Paints (rootPieces table source tree) last tag := by
  rw [tagAt_paint_eq_find?, Option.map_eq_some_iff] at h
  obtain ⟨found, hfound, htag⟩ := h
  have hmem := List.mem_of_find?_eq_some hfound
  have hcovers := List.find?_some hfound
  exact (exists_covers_iff hchar).mp ⟨found, hmem, hcovers, htag⟩

theorem tagAt_ne_none_of_paints (hchar : Text.CharAt source row col last) {tag : Tag}
    (h : Paints (rootPieces table source tree) last tag) :
    (paint language table source tree).tagAt row col ≠ none := by
  obtain ⟨found, hmem, hcovers, -⟩ := (exists_covers_iff hchar).mpr h
  rw [tagAt_paint_eq_find?]
  intro hnone
  rw [Option.map_eq_none_iff, List.find?_eq_none] at hnone
  exact hnone found hmem hcovers

theorem tagAt_eq_none_of_not_charAt (h : ¬ ∃ last, Text.CharAt source row col last) :
    (paint language table source tree).tagAt row col = none := by
  rw [tagAt_paint_eq_find?, Option.map_eq_none_iff, List.find?_eq_none]
  intro found hmem hcovers
  obtain ⟨p, -, hrow⟩ := mem_line_paint.mp hmem
  exact h (Paint.exists_charAt_of_covers hrow hcovers)

theorem paints_rootPieces_iff (hnested : tree.WellNested)
    (hchar : Text.CharAt source row col last) {tag : Tag} :
    Paints (rootPieces table source tree) last tag ↔
      ∃ v, tree.IsInnermost [] last v ∧
        Tree.effectiveTag table.resolve (v.2.label :: v.1) = some tag :=
  hnested.paints_pieces_iff table.resolve _ hchar.lt_byteLength

theorem tagAt_eq_effectiveTag (hnested : tree.WellNested)
    (hchar : Text.CharAt source row col last) {v : List String × Tree String}
    (hv : tree.IsInnermost [] last v) :
    (paint language table source tree).tagAt row col =
      Tree.effectiveTag table.resolve (v.2.label :: v.1) := by
  cases htag : (paint language table source tree).tagAt row col with
  | some tag =>
      obtain ⟨w, hw, hwtag⟩ :=
        (paints_rootPieces_iff hnested hchar).mp (paints_of_tagAt_eq_some hchar htag)
      rw [hnested.isInnermost_unique hv hw, hwtag]
  | none =>
      cases heff : Tree.effectiveTag table.resolve (v.2.label :: v.1) with
      | none => rfl
      | some tag =>
          have hpaints := (paints_rootPieces_iff hnested hchar).mpr ⟨v, hv, heff⟩
          exact absurd htag (tagAt_ne_none_of_paints hchar hpaints)

theorem tagAt_eq_none_of_uncovered (hnested : tree.WellNested)
    (hchar : Text.CharAt source row col last)
    (hnone : ∀ n ∈ tree.preorder, ¬ n.span.Contains last) :
    (paint language table source tree).tagAt row col = none := by
  cases htag : (paint language table source tree).tagAt row col with
  | none => rfl
  | some tag =>
      obtain ⟨w, hw, -⟩ :=
        (paints_rootPieces_iff hnested hchar).mp (paints_of_tagAt_eq_some hchar htag)
      exact absurd hw.2.1 (hnone w.2 (Tree.mem_preorder_of_mem_visits hw.1))

end Character

/-- Painting a well-nested tree gives each character the effective tag of the innermost node whose
span contains the character's last byte, no tag to a character that no node covers, and no tag to
any other position. -/
theorem tagAt_paint_innermost (language : String) (table : RuleTable) (source : List Char)
    (tree : Tree String) (hnested : tree.WellNested) (row col : Nat) :
    (∀ last, Text.CharAt source row col last →
      ((∀ n ∈ tree.preorder, ¬ n.span.Contains last) ∧
        (paint language table source tree).tagAt row col = none) ∨
      (∃ v, tree.IsInnermost [] last v ∧ (∀ w, tree.IsInnermost [] last w → w = v) ∧
        (paint language table source tree).tagAt row col =
          Tree.effectiveTag table.resolve (v.2.label :: v.1))) ∧
    ((¬ ∃ last, Text.CharAt source row col last) →
      (paint language table source tree).tagAt row col = none) := by
  refine ⟨fun last hchar => ?_, tagAt_eq_none_of_not_charAt⟩
  by_cases hcovered : ∃ n ∈ tree.preorder, n.span.Contains last
  · obtain ⟨n, hn, hin⟩ := hcovered
    obtain ⟨v, hv⟩ := Tree.exists_isInnermost [] hn hin
    refine Or.inr ⟨v, hv, ?_, tagAt_eq_effectiveTag hnested hchar hv⟩
    exact fun w hw => hnested.isInnermost_unique hw hv
  · push Not at hcovered
    exact Or.inl ⟨hcovered, tagAt_eq_none_of_uncovered hnested hchar hcovered⟩

/-- Its second character has the bytes 1 to 3. -/
def arrowText : List Char := ['a', '→', '\r', '\n']

/-- The inner node starts inside the second character of `arrowText` and ends past the text. -/
def arrowTree : Tree String :=
  .node "Program" ⟨0, 9⟩ [.leaf "String" ⟨2, 9⟩]

theorem tagAt_paint_arrowTree :
    arrowTree.WellNested ∧ Text.CharAt arrowText 0 1 3 ∧
      (paint "test" (RuleTable.build [⟨⟨"String", []⟩, .string⟩]) arrowText arrowTree).tagAt 0 1 =
        some .string := by
  have hnested : arrowTree.WellNested := by
    simp only [arrowTree, Tree.leaf, Tree.WellNested, Tree.preorder_node, List.flatMap_cons,
      List.flatMap_nil, List.append_nil, List.forall_mem_cons, List.not_mem_nil, false_imp_iff,
      implies_true, and_true]
    exact ⟨⟨by decide, by simp [Tree.children, Tree.span], by simp [Tree.children]⟩,
      ⟨by decide, by simp [Tree.children], by simp [Tree.children]⟩⟩
  have hchar : Text.CharAt arrowText 0 1 3 :=
    ⟨['a'], '→', ['\r', '\n'], rfl, by simp [Text.EndsLine], rfl, rfl, rfl⟩
  have hleaf : arrowTree.IsInnermost [] 3 (["Program"], .leaf "String" ⟨2, 9⟩) := by
    refine ⟨?_, by decide, by simp [Tree.leaf, Tree.children]⟩
    exact Tree.mem_visits_node.mpr (Or.inr ⟨_, List.mem_singleton_self _,
      Tree.mem_visits_node.mpr (Or.inl rfl)⟩)
  refine ⟨hnested, hchar, ?_⟩
  have hpaint := tagAt_paint_innermost "test" (RuleTable.build [⟨⟨"String", []⟩, .string⟩])
    arrowText arrowTree hnested 0 1
  rcases hpaint.1 3 hchar with ⟨hnone, -⟩ | ⟨v, hv, hunique, htag⟩
  · exact absurd (by decide) (hnone arrowTree arrowTree.self_mem_preorder)
  · rw [htag, ← hunique _ hleaf]
    decide

end DiagramTint
