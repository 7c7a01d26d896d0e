import DiagramTint.Config
import DiagramTint.Proofs.Document.Locality
import DiagramTint.Proofs.Highlights.Rows
import DiagramTint.Proofs.Tree.Likeness

/-!
# Blocks of statements

A block of whole rows whose last token is a semicolon is highlighted the same whatever follows it,
and what follows is highlighted as if it stood alone.  Only the root of the document reaches over
both, and what it paints is cut at the end of the block's last row.
-/

namespace DiagramTint

namespace Tree

variable {α β : Type}

theorem map_shift (f : α → β) (d : Nat) (t : Tree α) : (t.shift d).map f = (t.map f).shift d := by
  induction t with
  | node label span children ih =>
      rw [shift_node, map_node, map_node, shift_node, List.map_map, List.map_map]
      exact congrArg _ (List.map_congr_left ih)

theorem alike_shift {R : Nat → Nat → Prop} {d : Nat} (hR : ∀ byte, R byte (byte + d))
    (t : Tree α) : Alike R t (t.shift d) := by
  induction t with
  | node label span children ih =>
      rw [shift_node]
      refine .node (hR _) (hR _) ?_
      rw [List.forall₂_map_right_iff, List.forall₂_same]
      exact ih

end Tree

namespace Diagram

open Text

variable {table : RuleTable} {a b : List Char} {t : Token}

/-! ## The tree of two blocks -/

theorem read_append (h : (tokenize a).getLast? = some t) (hkind : t.kind = .semicolon)
    (b : List Char) :
    read (a ++ b) = .node Kind.program.name ⟨0, byteLength a + byteLength b⟩
      ((read a).children ++ (read b).children.map (Tree.shift (byteLength a))) := by
  have hrun : Document.run {} (tokenize (a ++ b)) = Document.run {} (tokenize a) ++
      (Document.run {} (tokenize b)).shift (byteLength a) := by
    rw [tokenize_append h hkind, Document.run_append h hkind, Document.run_map_shift]
  simp only [read, Document.parse, hrun, Tree.map_node, Tree.children, byteLength_append]
  simp [Document.Output.shift, Function.comp_def, Tree.map_shift]

theorem stop_le_of_mem_children {c : Tree String} (h : c ∈ (read a).children) :
    c.span.stop ≤ byteLength a :=
  ((wellNested_read a _ (read a).self_mem_preorder).inside c h).2

/-- Around a byte of the first block there is what is around it in this block alone. -/
theorem pathAt_read_append_left (h : (tokenize a).getLast? = some t) (hkind : t.kind = .semicolon)
    {path : List String} {last : Nat} (hlast : last < byteLength a) :
    (read (a ++ b)).PathAt [] last path ↔ (read a).PathAt [] last path := by
  have hnested := wellNested_read (a ++ b)
  rw [read_append h hkind] at hnested ⊢
  have hfirst := hnested.sublist (List.sublist_append_left _ _)
  have hroot : Tree.Alike (fun x y => x ≤ last ↔ y ≤ last) (read a)
      (.node Kind.program.name ⟨0, byteLength a + byteLength b⟩ (read a).children) := by
    refine .node Iff.rfl ?_ (List.forall₂_same.mpr fun c _ => Tree.alike_refl (fun _ => Iff.rfl) c)
    simp only
    omega
  rw [Tree.pathAt_sublist hnested (List.sublist_append_left _ _),
    ← hroot.pathAt_iff (wellNested_read a) hfirst fun _ _ hxy => hxy]
  intro c hc hcontains
  rcases List.mem_append.mp hc with hc | hc
  · exact hc
  · -- The second block starts behind the byte.
    obtain ⟨⟨label, span, children⟩, -, rfl⟩ := List.mem_map.mp hc
    rw [Tree.shift_node] at hcontains
    simp only [Tree.span, Span.shift, Span.Contains] at hcontains
    omega

/-- Around a byte of the second block there is what is around it in this block alone. -/
theorem pathAt_read_append_right (h : (tokenize a).getLast? = some t) (hkind : t.kind = .semicolon)
    {path : List String} {last : Nat} (hlast : last < byteLength b) :
    (read (a ++ b)).PathAt [] (byteLength a + last) path ↔ (read b).PathAt [] last path := by
  have hnested := wellNested_read (a ++ b)
  rw [read_append h hkind] at hnested ⊢
  have hsecond := hnested.sublist (List.sublist_append_right _ _)
  have hroot : Tree.Alike (fun x y => x ≤ last ↔ y ≤ byteLength a + last) (read b)
      (.node Kind.program.name ⟨0, byteLength a + byteLength b⟩
        ((read b).children.map (Tree.shift (byteLength a)))) := by
    refine .node (by simp) ?_ ?_
    · simp only
      omega
    · apply List.forall₂_map_right_iff.mpr
      exact List.forall₂_same.mpr fun c _ => Tree.alike_shift (fun byte => by omega) c
  rw [Tree.pathAt_sublist hnested (List.sublist_append_right _ _),
    ← hroot.pathAt_iff (wellNested_read b) hsecond fun _ _ hxy => hxy]
  intro c hc hcontains
  rcases List.mem_append.mp hc with hc | hc
  · have hstop := stop_le_of_mem_children hc
    have hlt := hcontains.2
    omega
  · exact hc

/-! ## The rows of two blocks -/

theorem hasTag_append (hend : a.getLast? = some '\n') (h : (tokenize a).getLast? = some t)
    (hkind : t.kind = .semicolon) {row col : Nat} {tag : Tag} :
    HasTag table (a ++ b) (read (a ++ b)) row col tag ↔
      HasTag table a (read a) row col tag ∨
        ∃ row', row = row' + a.count '\n' ∧ HasTag table b (read b) row' col tag := by
  constructor
  · rintro ⟨last, path, hchar, hpath, htag⟩
    rcases (charAt_append hend).mp hchar with hleft | ⟨row', last', rfl, rfl, hright⟩
    · have hpath' := (pathAt_read_append_left h hkind hleft.lt_byteLength).mp hpath
      exact Or.inl ⟨last, path, hleft, hpath', htag⟩
    · have hpath' := (pathAt_read_append_right h hkind hright.lt_byteLength).mp hpath
      exact Or.inr ⟨row', rfl, last', path, hright, hpath', htag⟩
  · rintro (⟨last, path, hchar, hpath, htag⟩ | ⟨row', rfl, last, path, hchar, hpath, htag⟩)
    · exact ⟨last, path, (charAt_append hend).mpr (Or.inl hchar),
        (pathAt_read_append_left h hkind hchar.lt_byteLength).mpr hpath, htag⟩
    · exact ⟨byteLength a + last, path,
        (charAt_append hend).mpr (Or.inr ⟨row', last, rfl, rfl, hchar⟩),
        (pathAt_read_append_right h hkind hchar.lt_byteLength).mpr hpath, htag⟩

theorem hasTag_row_lt (hend : a.getLast? = some '\n') {row col : Nat} {tag : Tag}
    (h : HasTag table a (read a) row col tag) : row < a.count '\n' := by
  obtain ⟨last, path, hchar, -⟩ := h
  exact hchar.row_lt hend

section Lines

variable {language : String} (hend : a.getLast? = some '\n') (h : (tokenize a).getLast? = some t)
  (hkind : t.kind = .semicolon)

include hend h hkind

theorem line_append_left {row : Nat} (hrow : row < a.count '\n') :
    (paint language table (a ++ b) (read (a ++ b))).line row =
      (paint language table a (read a)).line row := by
  apply line_paint_read_eq
  intro col tag
  rw [hasTag_append hend h hkind, or_iff_left]
  rintro ⟨row', rfl, -⟩
  omega

theorem line_append_right (row : Nat) :
    (paint language table (a ++ b) (read (a ++ b))).line (row + a.count '\n') =
      (paint language table b (read b)).line row := by
  apply line_paint_read_eq
  intro col tag
  rw [hasTag_append hend h hkind, or_iff_right]
  · constructor
    · rintro ⟨row', hrow, htag⟩
      rwa [Nat.add_right_cancel hrow]
    · intro htag
      exact ⟨row, rfl, htag⟩
  · intro htag
    have hlt := hasTag_row_lt hend htag
    omega

end Lines

/-- The row behind the last line feed of a block is empty. -/
theorem lines_paint_of_newline {language : String} (hend : a.getLast? = some '\n') :
    (paint language table a (read a)).lines =
      Highlights.rowsAmong (paint language table a (read a)).line (List.range (a.count '\n')) := by
  have hlast : (paint language table a (read a)).line (a.count '\n') = [] := by
    apply line_paint_eq_nil (wellNested_read a)
    intro col tag htag
    exact Nat.lt_irrefl _ (hasTag_row_lt hend htag)
  have hnone : Highlights.rowsAmong (paint language table a (read a)).line [a.count '\n'] = [] := by
    simp [Highlights.rowsAmong, hlast]
  rw [lines_paint, List.range_succ, Highlights.rowsAmong_append, hnone, List.append_nil]

/-- If a block ends with a line feed and its last token is a semicolon, the highlights of the block
and a text after it are those of the block, followed by those of the text moved below it, whatever
the configuration. -/
theorem lines_highlight_append (config : Config) (a b : List Char) {t : Token}
    (hend : a.getLast? = some '\n') (h : (tokenize a).getLast? = some t)
    (hkind : t.kind = .semicolon) :
    ((language config.tagRules).highlight (a ++ b)).lines =
      ((language config.tagRules).highlight a).lines ++
        ((language config.tagRules).highlight b).lines.map fun entry =>
          (entry.1 + a.count '\n', entry.2) := by
  let lineOf (source : List Char) : Nat → List Highlight :=
    ((language config.tagRules).highlight source).line
  -- The empty row behind the last line feed of `a` is the first row of `b`.
  have hrows : List.range ((a ++ b).count '\n' + 1) = List.range (a.count '\n') ++
      (List.range (b.count '\n' + 1)).map fun row => row + a.count '\n' := by
    rw [List.count_append, Nat.add_assoc, List.range_add]
    simp only [Nat.add_comm]
  have hleft : Highlights.rowsAmong (lineOf (a ++ b)) (List.range (a.count '\n')) =
      Highlights.rowsAmong (lineOf a) (List.range (a.count '\n')) :=
    Highlights.rowsAmong_congr fun row hrow =>
      line_append_left hend h hkind (List.mem_range.mp hrow)
  have hright : (fun row => lineOf (a ++ b) (row + a.count '\n')) = lineOf b :=
    funext fun row => line_append_right hend h hkind row
  have hwhole : ((language config.tagRules).highlight (a ++ b)).lines =
      Highlights.rowsAmong (lineOf (a ++ b)) (List.range ((a ++ b).count '\n' + 1)) := lines_paint
  have htop : ((language config.tagRules).highlight a).lines =
      Highlights.rowsAmong (lineOf a) (List.range (a.count '\n')) := lines_paint_of_newline hend
  have hbottom : ((language config.tagRules).highlight b).lines =
      Highlights.rowsAmong (lineOf b) (List.range (b.count '\n' + 1)) := lines_paint
  rw [hwhole, htop, hbottom, hrows, Highlights.rowsAmong_append, Highlights.rowsAmong_map_add,
    hleft, hright]

/-- A message whose semicolon stands on the next row. -/
def blockText : List Char :=
  ['a', '-', '>', 'b', '\n', ';', '\n']

/-- The root is tagged, and so are messages. -/
def tintedConfig : Config :=
  ⟨[⟨"Program", .keyword⟩, ⟨"Program/Message", .string⟩]⟩

theorem lines_highlight_append_blockText :
    blockText.getLast? = some '\n' ∧
      (tokenize blockText).getLast? = some ⟨.semicolon, ⟨5, 6⟩⟩ ∧
      ⟨0, 1, .string⟩ ∈ ((language tintedConfig.tagRules).highlight blockText).line 1 ∧
      ⟨0, 1, .keyword⟩ ∈ ((language tintedConfig.tagRules).highlight [' ', '#']).line 0 ∧
      ((language tintedConfig.tagRules).highlight (blockText ++ [' ', '#'])).lines =
        ((language tintedConfig.tagRules).highlight blockText).lines ++
          ((language tintedConfig.tagRules).highlight [' ', '#']).lines.map fun entry =>
            (entry.1 + 2, entry.2) := by
  have hend : blockText.getLast? = some '\n' := by decide
  have hlast : (tokenize blockText).getLast? = some ⟨.semicolon, ⟨5, 6⟩⟩ := by decide +kernel
  refine ⟨hend, hlast, mem_line_paint.mpr ?_, mem_line_paint.mpr ?_,
    lines_highlight_append tintedConfig blockText [' ', '#'] hend hlast rfl⟩
  · rw [language, builtinRules_eq]
    decide +kernel
  · rw [language, builtinRules_eq]
    decide +kernel

end Diagram

end DiagramTint
