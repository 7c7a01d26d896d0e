import DiagramTint.Language
import DiagramTint.Proofs.Document.Layout
import DiagramTint.Proofs.Tree.Nesting

/-!
# Documents are well nested

Statements follow one another and so do their parts, so the tree of a document is well nested, and
every node of it starts and ends between two characters of the source.
-/

namespace DiagramTint

namespace Tree

variable {α β : Type}

theorem map_node (f : α → β) (label : α) (span : Span) (children : List (Tree α)) :
    map f (.node label span children) = .node (f label) span (children.map (map f)) := by
  have hforest : ∀ ts : List (Tree α), mapForest f ts = ts.map (map f) := by
    intro ts
    induction ts with
    | nil => rfl
    | cons t ts ih => rw [mapForest, ih, List.map_cons]
  rw [map, hforest]

theorem span_map (f : α → β) (t : Tree α) : (t.map f).span = t.span := by
  obtain ⟨label, span, children⟩ := t
  rfl

theorem children_map (f : α → β) (t : Tree α) : (t.map f).children = t.children.map (map f) := by
  obtain ⟨label, span, children⟩ := t
  rw [map_node]
  rfl

theorem preorder_map (f : α → β) (t : Tree α) : (t.map f).preorder = t.preorder.map (map f) := by
  induction t with
  | node label span children ih =>
      rw [map_node, preorder_node, preorder_node, List.map_cons, map_node, List.flatMap_map,
        List.map_flatMap, List.flatMap_congr ih]

/-- Children that follow one another inside a node are nested in it. -/
theorem nestsChildren_of_laidOut {P : Nat → Prop} {t : Tree α}
    (h : LaidOut P t.span.start t.span.stop (t.children.map span)) : t.NestsChildren := by
  refine ⟨h.le, ?_, ?_⟩
  · intro c hc
    obtain ⟨hstart, -, -, -, hstop⟩ := h.of_mem (List.mem_map_of_mem hc)
    exact ⟨hstart, hstop⟩
  · have hfollow := List.pairwise_map.mp h.pairwise
    refine hfollow.imp_of_mem ?_
    intro a b ha hb hab
    have hlt := (h.of_mem (List.mem_map_of_mem ha)).2.1
    refine ⟨by omega, ?_⟩
    intro byte hbyte
    simp only [Span.Contains] at hbyte
    omega

theorem wellNested_leaf {span : Span} (label : α) (h : span.start ≤ span.stop) :
    (leaf label span).WellNested :=
  wellNested_node.mpr ⟨⟨h, by simp [children], by simp [children]⟩, by simp⟩

theorem NestsChildren.map {t : Tree α} (h : t.NestsChildren) (f : α → β) :
    (t.map f).NestsChildren := by
  refine ⟨?_, ?_, ?_⟩
  · rw [span_map]
    exact h.ordered
  · intro c hc
    rw [children_map, List.mem_map] at hc
    obtain ⟨d, hd, rfl⟩ := hc
    rw [span_map, span_map]
    exact h.inside d hd
  · rw [children_map, List.pairwise_map]
    simp only [span_map]
    exact h.apart

theorem WellNested.map {t : Tree α} (h : t.WellNested) (f : α → β) : (t.map f).WellNested := by
  intro n hn
  rw [preorder_map, List.mem_map] at hn
  obtain ⟨m, hm, rfl⟩ := hn
  exact (h m hm).map f

/-- No node of a tree, cut down to a source, starts or ends inside a character of the source. -/
def OnBoundaries (source : List Char) (t : Tree α) : Prop :=
  ∀ n ∈ t.preorder, Text.IsBoundary source (n.span.clamp (Text.byteLength source)).start ∧
    Text.IsBoundary source (n.span.clamp (Text.byteLength source)).stop

theorem OnBoundaries.map {source : List Char} {t : Tree α} (h : t.OnBoundaries source)
    (f : α → β) : (t.map f).OnBoundaries source := by
  intro n hn
  rw [preorder_map, List.mem_map] at hn
  obtain ⟨m, hm, rfl⟩ := hn
  rw [span_map]
  exact h m hm

/-- If the children of every node follow one another inside it, all nodes lie in the root. -/
theorem ends_of_laidOut {P : Nat → Prop} {t n : Tree α} (hstart : P t.span.start)
    (hstop : P t.span.stop)
    (h : ∀ m ∈ t.preorder, LaidOut P m.span.start m.span.stop (m.children.map span))
    (hn : n ∈ t.preorder) : P n.span.start ∧ P n.span.stop ∧ n.span.stop ≤ t.span.stop := by
  induction t with
  | node label span children ih =>
      rw [preorder_node] at h hn
      obtain ⟨hroot, hbelow⟩ := List.forall_mem_cons.mp h
      rw [List.mem_cons, List.mem_flatMap] at hn
      rcases hn with rfl | ⟨c, hc, hn⟩
      · exact ⟨hstart, hstop, Nat.le_refl _⟩
      · obtain ⟨-, -, hcstart, hcstop, hle⟩ := hroot.of_mem (List.mem_map_of_mem hc)
        obtain ⟨hnstart, hnstop, hnle⟩ := ih c hc hcstart hcstop
          (fun m hm => hbelow m (List.mem_flatMap.mpr ⟨c, hc, hm⟩)) hn
        exact ⟨hnstart, hnstop, Nat.le_trans hnle hle⟩

end Tree

namespace Document

theorem Shallow.laidOut_of_mem_preorder {P : Nat → Prop} {n m : Tree Kind} (h : Shallow P n)
    (hm : m ∈ n.preorder) : LaidOut P m.span.start m.span.stop (m.children.map Tree.span) := by
  obtain ⟨label, span, children⟩ := n
  obtain ⟨hparts, hleaves⟩ := h
  rw [Tree.preorder_node, List.mem_cons, List.mem_flatMap] at hm
  rcases hm with rfl | ⟨c, hc, hm⟩
  · exact hparts
  · have hspan := hparts.of_mem (List.mem_map_of_mem hc)
    have hleaf := hleaves c hc
    obtain ⟨label, span, children⟩ := c
    obtain rfl : children = [] := hleaf
    rw [Tree.preorder_node, List.flatMap_nil, List.mem_singleton] at hm
    subst hm
    exact LaidOut.nil (Nat.le_of_lt hspan.2.1)

theorem laidOut_of_mem_preorder {source : List Char} {n : Tree Kind}
    (h : n ∈ (parse source).tree.preorder) :
    LaidOut (Text.IsBoundary source) n.span.start n.span.stop (n.children.map Tree.span) := by
  have hnodes := nodesLaidOut_parse source
  rw [parse, Tree.preorder_node, List.mem_cons, List.mem_flatMap] at h
  rcases h with rfl | ⟨c, hc, hn⟩
  · exact hnodes.1
  · exact (hnodes.2 c hc).laidOut_of_mem_preorder hn

theorem wellNested_parse (source : List Char) : (parse source).tree.WellNested :=
  fun _ hn => Tree.nestsChildren_of_laidOut (laidOut_of_mem_preorder hn)

theorem ends_of_mem_preorder {source : List Char} {n : Tree Kind}
    (h : n ∈ (parse source).tree.preorder) :
    Text.IsBoundary source n.span.start ∧ Text.IsBoundary source n.span.stop ∧
      n.span.stop ≤ Text.byteLength source :=
  Tree.ends_of_laidOut ⟨[], List.nil_prefix, rfl⟩ ⟨source, List.prefix_rfl, rfl⟩
    (fun _ hm => laidOut_of_mem_preorder hm) h

theorem onBoundaries_parse (source : List Char) : (parse source).tree.OnBoundaries source := by
  intro n hn
  obtain ⟨hstart, hstop, hle⟩ := ends_of_mem_preorder hn
  have hordered := (laidOut_of_mem_preorder hn).le
  rw [Span.clamp, Nat.min_eq_left (Nat.le_trans hordered hle), Nat.min_eq_left hle]
  exact ⟨hstart, hstop⟩

end Document

namespace Diagram

theorem wellNested_read (source : List Char) : (read source).WellNested :=
  (Document.wellNested_parse source).map Kind.name

theorem onBoundaries_read (source : List Char) : (read source).OnBoundaries source :=
  (Document.onBoundaries_parse source).map Kind.name

end Diagram

end DiagramTint
