import DiagramTint.Proofs.Document.Nesting
import DiagramTint.Proofs.Highlights.Pieces
import DiagramTint.Proofs.Tree.Links

/-!
# The walk over an arena

Walking over the cells of an arena does, task by task, what walking over the unfolded tree does.  So
it visits every cell once, in pre-order, and paints the pieces of the recursion over the tree.
-/

namespace DiagramTint

/-! ## Trees with other labels -/

namespace Tree

variable {α β : Type} (classify : β → List β → Option Tag) (f : α → β) (limit : Nat)

/-- A classification by other labels. -/
def classifyBy (label : α) (chain : List α) : Option Tag :=
  classify (f label) (chain.map f)

theorem piecesUntagged_map {chain : List α} {ts : List (Tree α)}
    (h : ∀ t ∈ ts, (t.map f).pieces classify limit (chain.map f) none =
      t.pieces (classifyBy classify f) limit chain none) :
    piecesUntagged classify limit (chain.map f) (ts.map (Tree.map f)) =
      piecesUntagged (classifyBy classify f) limit chain ts := by
  induction ts with
  | nil => rw [List.map_nil, piecesUntagged, piecesUntagged]
  | cons t ts ih =>
      obtain ⟨ht, hts⟩ := List.forall_mem_cons.mp h
      rw [List.map_cons, piecesUntagged, piecesUntagged, ht, ih hts]

theorem piecesBetween_map {chain : List α} {tag : Tag} {stop : Nat} {ts : List (Tree α)}
    (h : ∀ t ∈ ts, (t.map f).pieces classify limit (chain.map f) (some tag) =
      t.pieces (classifyBy classify f) limit chain (some tag)) (cursor : Nat) :
    piecesBetween classify limit (chain.map f) tag stop cursor (ts.map (Tree.map f)) =
      piecesBetween (classifyBy classify f) limit chain tag stop cursor ts := by
  induction ts generalizing cursor with
  | nil => rw [List.map_nil, piecesBetween, piecesBetween]
  | cons t ts ih =>
      obtain ⟨ht, hts⟩ := List.forall_mem_cons.mp h
      rw [List.map_cons, piecesBetween, piecesBetween, ht, ih hts, span_map]

/-- The pieces of a tree only depend on what the labels stand for. -/
theorem pieces_map (chain : List α) (inherited : Option Tag) (t : Tree α) :
    (t.map f).pieces classify limit (chain.map f) inherited =
      t.pieces (classifyBy classify f) limit chain inherited := by
  induction t generalizing chain inherited with
  | node label span children ih =>
      have hbelow : ∀ inherited, ∀ c ∈ children,
          (c.map f).pieces classify limit ((label :: chain).map f) inherited =
            c.pieces (classifyBy classify f) limit (label :: chain) inherited :=
        fun inherited c hc => ih c hc (label :: chain) inherited
      rw [map_node, pieces, pieces]
      cases hown : (classifyBy classify f label chain).or inherited with
      | none =>
          rw [classifyBy] at hown
          simp only [hown]
          exact piecesUntagged_map classify f limit (hbelow none)
      | some tag =>
          rw [classifyBy] at hown
          simp only [hown]
          exact piecesBetween_map classify f limit (hbelow (some tag)) _

end Tree

/-! ## Tasks and steps -/

namespace Visit

variable {table : RuleTable} {limit root : Nat} {cells : Arena String}

/-- The task that a step over a tree of numbers stands for. -/
def taskOf : Paint.Step Nat → Task
  | .enter _ inherited t => .enter t.label inherited
  | .fill piece => .fill piece

/-- The cells that a step will have visited in the end. -/
def cellsOf : Paint.Step Nat → List Nat
  | .enter _ _ t => t.preorder.map Tree.label
  | .fill _ => []

/-- The tree of a step is an unfolded part of the arena, below the ancestors of its root. -/
def Fits (cells : Arena String) : Paint.Step Nat → Prop
  | .enter up _ t => cells.Unfolds t ∧ cells.Ascends t.label up
  | .fill _ => True

section Expand

variable {t : Tree Nat} {up : List Nat}

theorem tasksBetween_eq {ts : List (Tree Nat)} (hts : ∀ c ∈ ts, c.span = cells.spanOf c.label)
    (chain : List Nat) (tag : Tag) (stop cursor : Nat) :
    tasksBetween limit cells tag stop cursor (ts.map Tree.label) =
      (Paint.stepsBetween limit chain tag stop cursor ts).map taskOf := by
  induction ts generalizing cursor with
  | nil => rfl
  | cons t ts ih =>
      obtain ⟨ht, hts⟩ := List.forall_mem_cons.mp hts
      rw [List.map_cons, tasksBetween, Paint.stepsBetween, ih hts, ← ht]
      rfl

/-- A visit is replaced by the same tasks in the arena and in the unfolded tree. -/
theorem expand_eq (h : cells.IsTree root) (ht : cells.Unfolds t) (hup : cells.Ascends t.label up)
    (inherited : Option Tag) :
    expand table limit cells t.label inherited =
      (Paint.expand (Tree.classifyBy table.resolve cells.labelOf) limit up inherited t).map
        taskOf := by
  obtain ⟨hlt, hspan, hchildren⟩ := ht t t.self_mem_preorder
  have hspans : ∀ c ∈ t.children, c.span = cells.spanOf c.label := by
    intro c hc
    exact (ht c (Tree.child_mem_preorder t.self_mem_preorder hc)).2.1
  have htag : cells.tagOf table t.label =
      Tree.classifyBy table.resolve cells.labelOf t.label up := by
    rw [Arena.tagOf, h.ancestors_eq hlt hup, Tree.classifyBy]
  rw [expand, Paint.expand, htag]
  cases (Tree.classifyBy table.resolve cells.labelOf t.label up).or inherited with
  | none =>
      simp only [hchildren, List.map_map]
      rfl
  | some tag =>
      simp only [hchildren, ← hspan]
      exact tasksBetween_eq hspans _ _ _ _

theorem cellsOf_stepsBetween (chain : List Nat) (tag : Tag) (stop cursor : Nat)
    (ts : List (Tree Nat)) :
    (Paint.stepsBetween limit chain tag stop cursor ts).flatMap cellsOf =
      ts.flatMap fun c => c.preorder.map Tree.label := by
  induction ts generalizing cursor with
  | nil => rfl
  | cons t ts ih =>
      rw [Paint.stepsBetween, List.flatMap_cons, List.flatMap_cons, ih, List.flatMap_cons]
      rfl

/-- What a visit leads to are the cells below. -/
theorem cellsOf_expand (classify : Nat → List Nat → Option Tag) (up : List Nat)
    (inherited : Option Tag) (t : Tree Nat) :
    t.label :: (Paint.expand classify limit up inherited t).flatMap cellsOf =
      t.preorder.map Tree.label := by
  obtain ⟨label, span, children⟩ := t
  rw [Tree.preorder_node, List.map_cons, List.map_flatMap, Paint.expand]
  simp only [Tree.label, Tree.span, Tree.children]
  cases (classify label up).or inherited with
  | none =>
      simp only [List.flatMap_map]
      rfl
  | some tag => simp only [cellsOf_stepsBetween]

theorem fits_stepsBetween {chain : List Nat} {ts : List (Tree Nat)}
    (hts : ∀ c ∈ ts, cells.Unfolds c ∧ cells.Ascends c.label chain) (tag : Tag)
    (stop cursor : Nat) :
    ∀ s ∈ Paint.stepsBetween limit chain tag stop cursor ts, Fits cells s := by
  induction ts generalizing cursor with
  | nil =>
      intro s hs
      rw [Paint.stepsBetween, List.mem_singleton] at hs
      rw [hs]
      trivial
  | cons t ts ih =>
      obtain ⟨ht, hts⟩ := List.forall_mem_cons.mp hts
      rw [Paint.stepsBetween, List.forall_mem_cons, List.forall_mem_cons]
      exact ⟨trivial, ht, ih hts _⟩

theorem fits_expand (h : cells.IsTree root) (ht : cells.Unfolds t)
    (hup : cells.Ascends t.label up) (classify : Nat → List Nat → Option Tag)
    (inherited : Option Tag) :
    ∀ s ∈ Paint.expand classify limit up inherited t, Fits cells s := by
  have hbelow : ∀ c ∈ t.children, cells.Unfolds c ∧ cells.Ascends c.label (t.label :: up) :=
    fun c hc => ht.child h hup hc
  unfold Paint.expand
  split
  · intro s hs
    obtain ⟨c, hc, rfl⟩ := List.mem_map.mp hs
    exact hbelow c hc
  · exact fits_stepsBetween hbelow _ _ _

end Expand

/-! ## The whole walk -/

/-- A walk gets through all steps that fit the arena: it visits the cells of their trees and paints
the pieces that walking over these gives. -/
theorem exists_iterate_step (h : cells.IsTree root) (steps : List (Paint.Step Nat))
    (hfits : ∀ s ∈ steps, Fits cells s) (visited : List Nat) (painted : List Piece) :
    ∃ n, (step table limit cells)^[n] ⟨steps.map taskOf, visited, painted⟩ =
      ⟨[], visited ++ steps.flatMap cellsOf, painted ++
        Paint.walk (Tree.classifyBy table.resolve cells.labelOf) limit steps⟩ := by
  induction steps using Paint.walk.induct (Tree.classifyBy table.resolve cells.labelOf) limit
    generalizing visited painted with
  | case1 =>
      refine ⟨0, ?_⟩
      rw [Paint.walk, List.flatMap_nil, List.append_nil, List.append_nil]
      rfl
  | case2 piece rest ih =>
      obtain ⟨n, hn⟩ := ih (List.forall_mem_cons.mp hfits).2 visited (painted ++ [piece])
      refine ⟨n + 1, ?_⟩
      rw [Function.iterate_succ_apply, Paint.walk, List.append_cons]
      exact hn
  | case3 up inherited t rest ih =>
      obtain ⟨⟨ht, hup⟩, hrest⟩ := List.forall_mem_cons.mp hfits
      have hall : ∀ s ∈ Paint.expand (Tree.classifyBy table.resolve cells.labelOf) limit up
          inherited t ++ rest, Fits cells s :=
        List.forall_mem_append.mpr ⟨fits_expand h ht hup _ _, hrest⟩
      obtain ⟨n, hn⟩ := ih hall (visited ++ [t.label]) painted
      refine ⟨n + 1, ?_⟩
      rw [Function.iterate_succ_apply, Paint.walk, List.flatMap_cons]
      rw [List.map_append, ← expand_eq h ht hup, List.flatMap_append, List.append_assoc,
        List.singleton_append, ← List.cons_append, cellsOf_expand] at hn
      exact hn

/-- Walking over an arena whose links form a tree comes to an end. By then it has visited every cell
exactly once, and it has painted, in order, the pieces that the recursion over the tree gives; these
are also the pieces of walking over the tree itself. -/
theorem walk_arena_eq_recursion (table : RuleTable) (source : List Char) (cells : Arena String)
    (root : Nat) (h : cells.IsTree root) :
    ∃ t : Tree Nat, t.label = root ∧ cells.Unfolds t ∧
      (∃ n, (step table (Text.byteLength source) cells)^[n] (start root) =
        { tasks := []
          visited := t.preorder.map Tree.label
          painted :=
            (t.map cells.labelOf).pieces table.resolve (Text.byteLength source) [] none }) ∧
      (t.preorder.map Tree.label).Nodup ∧
      (∀ i, i ∈ t.preorder.map Tree.label ↔ i < cells.length) ∧
      Paint.walk table.resolve (Text.byteLength source) [.enter [] none (t.map cells.labelOf)] =
        (t.map cells.labelOf).pieces table.resolve (Text.byteLength source) [] none := by
  obtain ⟨t, hroot, ht⟩ := h.exists_unfolds
  refine ⟨t, hroot, ht, ?_, ht.nodup_labels h hroot, fun i => ht.mem_labels_iff h hroot,
    Paint.walk_enter _ _ _ _ _⟩
  have hup : cells.Ascends t.label [] := .top (by rw [hroot]; exact h.root_parent)
  have hfits : ∀ s ∈ [Paint.Step.enter [] none t], Fits cells s := by
    simpa [Fits] using ⟨ht, hup⟩
  obtain ⟨n, hn⟩ := @exists_iterate_step table (Text.byteLength source) root cells h _ hfits [] []
  refine ⟨n, ?_⟩
  rw [Paint.walk_enter, ← Tree.pieces_map] at hn
  rw [start, ← hroot]
  simpa [taskOf, cellsOf] using hn

/-- Four cells in another order than that of the tree; one span is reversed. -/
def shuffledArena : Arena String :=
  [⟨"Name", ⟨9, 2⟩, some 3, []⟩, ⟨"Text", ⟨4, 6⟩, some 2, []⟩, ⟨"Root", ⟨0, 12⟩, none, [3, 1]⟩,
    ⟨"Part", ⟨1, 8⟩, some 2, [0]⟩]

def shuffledTable : RuleTable :=
  RuleTable.build [⟨⟨"Part", []⟩, .string⟩, ⟨⟨"Name", ["Part"]⟩, .variableName⟩]

theorem shuffledArena_isTree : shuffledArena.IsTree 2 where
  root_lt := by decide
  root_parent := by decide
  links := by
    intro p i
    rcases p with _ | _ | _ | _ | p <;> rcases i with _ | _ | _ | _ | i <;>
      simp [shuffledArena, Arena.childrenOf, Arena.parent?]
  once := by
    intro p
    rcases p with _ | _ | _ | _ | p <;> simp [shuffledArena, Arena.childrenOf]
  below := fun i hi => ⟨4, by revert i; decide⟩

example : (step shuffledTable 10 shuffledArena)^[7] (start 2) =
    { tasks := []
      visited := [2, 3, 0, 1]
      painted := [⟨⟨1, 8⟩, .string⟩, ⟨⟨9, 2⟩, .variableName⟩, ⟨⟨2, 8⟩, .string⟩] } := by
  decide

theorem walk_shuffledArena_eq_recursion :
    shuffledArena.IsTree 2 ∧ ∃ (t : Tree Nat) (n : Nat),
      t.label = 2 ∧ shuffledArena.Unfolds t ∧ (t.preorder.map Tree.label).Nodup ∧
      (step shuffledTable 10 shuffledArena)^[n] (start 2) =
        { tasks := []
          visited := t.preorder.map Tree.label
          painted := (t.map shuffledArena.labelOf).pieces shuffledTable.resolve 10 [] none } := by
  obtain ⟨t, hroot, ht, ⟨n, hn⟩, hnodup, -, -⟩ :=
    walk_arena_eq_recursion shuffledTable "0123456789".toList shuffledArena 2 shuffledArena_isTree
  exact ⟨shuffledArena_isTree, t, n, hroot, ht, hnodup, hn⟩

end Visit

end DiagramTint
