import DiagramTint.Document.Build
import DiagramTint.Proofs.Document.Layout
import DiagramTint.Proofs.Tree.Building

/-!
# The arena of a document

Building the arena of a source node by node gives the tree of the document, numbered in pre-order.
With the layout of that tree this says everything about the links and the spans of the arena.
-/

namespace DiagramTint

namespace Document

open DiagramTint.Tree

/-! ## Building follows reading -/

/-- The root of a document that is still open, with the nodes that are complete. -/
def openRoot (nodes : List (Tree Kind)) : Tree Kind :=
  .node .program ⟨0, 0⟩ nodes

/-- A builder that has the complete nodes and the open statement of a state. -/
def Builds (b : Builder Kind) (nodes : List (Tree Kind)) (state : State) : Prop :=
  match state.current with
  | none => b.Holds (openRoot nodes) []
  | some s => b.Holds (.node s.kind ⟨s.start, s.start⟩ s.parts) [openRoot nodes]

theorem builds_start {b : Builder Kind} {nodes : List (Tree Kind)} {last : Nat} {t : Token}
    (h : Builds b nodes ⟨last, none⟩) :
    Builds (buildStart b t) (nodes ++ (start t).1.nodes) (start t).2 := by
  have hroot : b.Holds (openRoot nodes) [] := h
  unfold buildStart start
  cases t.kind with
  | lineComment => exact hroot.add .lineComment t.span
  | aliasKeyword =>
      simp only [List.append_nil]
      exact (hroot.openAt .alias t.span.start).add .aliasKeyword t.span
  | identifier =>
      simp only [List.append_nil]
      exact (hroot.openAt .message t.span.start).add .identifier t.span
  | semicolon =>
      simp only [List.append_nil]
      exact hroot
  | string terminated => exact hroot.add .error t.span
  | arrow => exact hroot.add .error t.span
  | equals => exact hroot.add .error t.span
  | colon => exact hroot.add .error t.span
  | unknown => exact hroot.add .error t.span

/-- Closing the open statement completes its node. -/
theorem Builds.close {b : Builder Kind} {nodes : List (Tree Kind)} {last : Nat} {s : Statement}
    (h : Builds b nodes ⟨last, some s⟩) (stop next : Nat) :
    Builds (b.closeAt stop) (nodes ++ (abandon s last stop).nodes) ⟨next, none⟩ :=
  Builder.Holds.closeAt h stop

theorem Builds.take {b : Builder Kind} {nodes : List (Tree Kind)} {last : Nat} {s : Statement}
    (h : Builds b nodes ⟨last, some s⟩) (next : Nat) (stage : Stage) (kind : Kind) (span : Span) :
    Builds (b.add kind span) nodes
      ⟨next, some { s with stage := stage, parts := s.parts ++ [.leaf kind span] }⟩ :=
  Builder.Holds.add h kind span

theorem builds_advance {b : Builder Kind} {nodes : List (Tree Kind)} {last : Nat} {s : Statement}
    {t : Token} (h : Builds b nodes ⟨last, some s⟩) :
    Builds (buildAdvance b last s.stage t) (nodes ++ (advance last s t).1.nodes)
      (advance last s t).2 := by
  unfold buildAdvance advance
  by_cases hcomment : t.kind = .lineComment
  · rw [if_pos hcomment, if_pos hcomment]
    simp only [List.append_nil]
    exact h.take t.span.stop s.stage .lineComment t.span
  · rw [if_neg hcomment, if_neg hcomment]
    cases s.stage.react t.kind with
    | some r =>
        obtain ⟨node, fault, stage⟩ := r
        cases node with
        | none =>
            simp only [Option.toList_none, List.map_nil, List.append_nil]
            exact h
        | some kind =>
            simp only [Option.toList_some, List.map_cons, List.map_nil, List.append_nil]
            exact h.take t.span.stop stage kind t.span
    | none =>
        by_cases hsemicolon : t.kind = .semicolon
        · simp only [hsemicolon, if_true]
          exact h.close t.span.stop t.span.stop
        · -- The statement is closed first, and the token is then added below the root.
          simp only [hsemicolon, if_false]
          have hnext := builds_start (t := t) (h.close last last)
          rwa [List.append_assoc] at hnext

theorem holds_buildRun {b : Builder Kind} {nodes : List (Tree Kind)} {state : State}
    (h : Builds b nodes state) (ts : List Token) :
    (buildRun b state ts).Holds (openRoot (nodes ++ (run state ts).nodes)) [] := by
  induction ts generalizing b nodes state with
  | nil =>
      obtain ⟨last, current⟩ := state
      cases current with
      | none =>
          have hroot : b.Holds (openRoot nodes) [] := h
          simpa only [buildRun, run, finish, List.append_nil] using hroot
      | some s => exact h.close last last
  | cons t ts ih =>
      obtain ⟨last, current⟩ := state
      have happend : ∀ o : Output, ∀ later : Output,
          nodes ++ (o ++ later).nodes = nodes ++ o.nodes ++ later.nodes :=
        fun o later => (List.append_assoc nodes o.nodes later.nodes).symm
      rw [run, happend]
      cases current with
      | none => exact ih (builds_start h)
      | some s => exact ih (builds_advance h)

/-- The arena of a source is that of its document's tree. -/
theorem arena_eq_toArena (source : List Char) : arena source = (parse source).tree.toArena := by
  have hroot : Builds (Builder.openAt {} .program 0) [] {} :=
    Builder.holds_openAt_empty Kind.program 0
  have hall := holds_buildRun hroot (tokenize source)
  exact hall.cells_closeAt (Text.byteLength source)

/-! ## Links and spans -/

/-- What holds of the arena of a source: its links agree, the first cell is the program and covers
the source, all other cells cover whole characters and at least one, each lies inside its parent
and before the siblings after it, and none has more than two ancestors. -/
structure WellFormed (source : List Char) (cells : Arena Kind) : Prop extends cells.Linked where
  program : ∃ children, cells[0]? = some ⟨.program, ⟨0, Text.byteLength source⟩, none, children⟩
  span : ∀ (i : Nat) (c : Cell Kind), 0 < i → cells[i]? = some c → c.span.start < c.span.stop ∧
    Text.IsBoundary source c.span.start ∧ Text.IsBoundary source c.span.stop
  inside : ∀ (i p : Nat) (c d : Cell Kind), cells[i]? = some c → c.parent = some p →
    cells[p]? = some d → d.span.start ≤ c.span.start ∧ c.span.stop ≤ d.span.stop
  apart : ∀ p, (cells.childrenOf p).Pairwise fun i j => ∀ c d : Cell Kind,
    cells[i]? = some c → cells[j]? = some d → c.span.stop ≤ d.span.start
  depth : ∀ n i, (cells.climb n i).length ≤ 2

theorem hasNode_cases {root t : Tree Kind} {i : Nat} {up : List Nat} (h : HasNode root i up t)
    (hflat : ∀ n ∈ root.children, ∀ c ∈ n.children, c.children = []) :
    (up = [] ∧ t = root) ∨ (∃ p, up = [p] ∧ t ∈ root.children) ∨
      ∃ p q n, up = [p, q] ∧ n ∈ root.children ∧ t ∈ n.children := by
  induction h with
  | root => exact Or.inl ⟨rfl, rfl⟩
  | @child i j up u c hu hc ih =>
      have hmem : c ∈ u.children := (List.of_mem_zip hc).2
      rcases ih with ⟨rfl, rfl⟩ | ⟨p, rfl, hroot⟩ | ⟨p, q, n, rfl, hn, hun⟩
      · exact Or.inr (Or.inl ⟨i, rfl, hmem⟩)
      · exact Or.inr (Or.inr ⟨i, p, u, rfl, hroot, hmem⟩)
      · rw [hflat n hn u hun] at hmem
        cases hmem

/-- Every node of a document lays out its children, and none is deeper than the parts of a
statement. -/
theorem laidOut_of_hasNode {source : List Char} {t : Tree Kind} {i : Nat} {up : List Nat}
    (h : HasNode (parse source).tree i up t) :
    LaidOut (Text.IsBoundary source) t.span.start t.span.stop (t.children.map Tree.span) ∧
      up.length ≤ 2 := by
  have hnodes := nodesLaidOut_parse source
  have hcases := hasNode_cases h fun n hn => (hnodes.2 n hn).2
  rcases hcases with ⟨rfl, rfl⟩ | ⟨p, rfl, ht⟩ | ⟨p, q, n, rfl, hn, ht⟩
  · exact ⟨hnodes.1, by simp⟩
  · exact ⟨(hnodes.2 t ht).1, by simp⟩
  · obtain ⟨hparts, hleaves⟩ := hnodes.2 n hn
    have hspan := hparts.of_mem (List.mem_map_of_mem ht)
    rw [hleaves t ht]
    exact ⟨LaidOut.nil (Nat.le_of_lt hspan.2.1), by simp⟩

theorem span_of_child {source : List Char} {t c : Tree Kind} {i : Nat} {up : List Nat}
    (h : HasNode (parse source).tree i up t) (hc : c ∈ t.children) :
    t.span.start ≤ c.span.start ∧ c.span.start < c.span.stop ∧
      Text.IsBoundary source c.span.start ∧ Text.IsBoundary source c.span.stop ∧
      c.span.stop ≤ t.span.stop :=
  (laidOut_of_hasNode h).1.of_mem (List.mem_map_of_mem hc)

theorem pairwise_childrenOf (source : List Char) (p : Nat) :
    ((parse source).tree.toArena.childrenOf p).Pairwise fun i j => ∀ c d : Cell Kind,
      (parse source).tree.toArena[i]? = some c → (parse source).tree.toArena[j]? = some d →
      c.span.stop ≤ d.span.start := by
  by_cases hp : p < (parse source).tree.toArena.length
  · obtain ⟨up, t, ht⟩ := exists_hasNode hp
    have hspans := (laidOut_of_hasNode ht).1.pairwise
    rw [List.pairwise_map, ← map_snd_zip_numbers (p + 1) t.children, List.pairwise_map] at hspans
    rw [ht.childrenOf_eq, ← map_fst_zip_numbers, List.pairwise_map]
    refine hspans.imp_of_mem ?_
    intro x y hx hy hxy c d hc hd
    rw [(HasNode.child ht hx).getElem?_eq, Option.some.injEq] at hc
    rw [(HasNode.child ht hy).getElem?_eq, Option.some.injEq] at hd
    rw [← hc, ← hd]
    exact hxy
  · rw [Arena.childrenOf_of_length_le (Nat.le_of_not_lt hp)]
    exact List.Pairwise.nil

theorem length_climb_le (source : List Char) (n i : Nat) :
    ((parse source).tree.toArena.climb n i).length ≤ 2 := by
  by_cases hi : i < (parse source).tree.toArena.length
  · obtain ⟨up, t, ht⟩ := exists_hasNode hi
    have hup := (laidOut_of_hasNode ht).2
    rw [ht.climb_eq, List.length_take]
    omega
  · cases n with
    | zero => simp [Arena.climb]
    | succ n =>
        rw [Arena.climb, Arena.parent?, List.getElem?_eq_none (Nat.le_of_not_lt hi)]
        simp

theorem span_of_getElem? {source : List Char} {i : Nat} {c : Cell Kind} (hi : 0 < i)
    (hc : (parse source).tree.toArena[i]? = some c) :
    c.span.start < c.span.stop ∧ Text.IsBoundary source c.span.start ∧
      Text.IsBoundary source c.span.stop := by
  obtain ⟨up, t, ht, rfl⟩ := exists_hasNode_of_getElem? hc
  cases ht with
  | root => omega
  | child hparent hmem =>
      obtain ⟨-, hlt, hstart, hstop, -⟩ := span_of_child hparent (List.of_mem_zip hmem).2
      exact ⟨hlt, hstart, hstop⟩

theorem inside_of_getElem? {source : List Char} {i p : Nat} {c d : Cell Kind}
    (hc : (parse source).tree.toArena[i]? = some c) (hp : c.parent = some p)
    (hd : (parse source).tree.toArena[p]? = some d) :
    d.span.start ≤ c.span.start ∧ c.span.stop ≤ d.span.stop := by
  obtain ⟨up, t, ht, rfl⟩ := exists_hasNode_of_getElem? hc
  cases ht with
  | root => cases hp
  | child hparent hmem =>
      cases hp
      rw [hparent.getElem?_eq, Option.some.injEq] at hd
      obtain ⟨hstart, -, -, -, hstop⟩ := span_of_child hparent (List.of_mem_zip hmem).2
      rw [← hd]
      exact ⟨hstart, hstop⟩

/-- The arena that reading a source fills is well formed, and it is that of the document's tree. -/
theorem arena_wellFormed (source : List Char) :
    WellFormed source (arena source) ∧ arena source = (parse source).tree.toArena := by
  have htree : WellFormed source (parse source).tree.toArena :=
    { toLinked := linked_toArena _
      program := ⟨_, HasNode.root.getElem?_eq⟩
      span := fun _ _ hi hc => span_of_getElem? hi hc
      inside := fun _ _ _ _ hc hp hd => inside_of_getElem? hc hp hd
      apart := pairwise_childrenOf source
      depth := length_climb_le source }
  rw [arena_eq_toArena]
  exact ⟨htree, rfl⟩

end Document

end DiagramTint
