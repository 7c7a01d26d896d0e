import DiagramTint.Proofs.Tree.Numbering

/-!
# Building a tree node by node

An arena that is filled while nodes are open holds, at every moment, the tree that closing all of
them would give: opening a node, adding one and closing one act on the innermost open node only,
and the cells before it stay as they are.
-/

namespace DiagramTint

namespace Tree

variable {α : Type}

/-- A tree with one more child at the end. -/
def push (t c : Tree α) : Tree α :=
  .node t.label t.span (t.children ++ [c])

/-- A tree whose span ends at byte `stop`. -/
def stopAt (t : Tree α) (stop : Nat) : Tree α :=
  .node t.label ⟨t.span.start, stop⟩ t.children

/-- The tree of the open nodes `us`, innermost first, where `t` is the last child of the
innermost. -/
def assemble (t : Tree α) : List (Tree α) → Tree α
  | [] => t
  | u :: us => assemble (u.push t) us

/-- The number of a node that is added below the open nodes `us`. -/
def nextNumber : List (Tree α) → Nat
  | [] => 0
  | u :: us => nextNumber us + u.size

/-- The numbers of open nodes, innermost first. -/
def openNumbers : List (Tree α) → List Nat
  | [] => []
  | _ :: us => nextNumber us :: openNumbers us

/-- The cells of the open nodes `us` and of all that is complete below them, when one more child
hangs from the innermost. -/
def cellsBefore : List (Tree α) → Arena α
  | [] => []
  | u :: us =>
    cellsBefore us ++
      ⟨u.label, u.span, (openNumbers us).head?,
        numbers (nextNumber us + 1) u.children ++ [nextNumber us + u.size]⟩ ::
        cellsForest (nextNumber us + 1) (nextNumber us) u.children

theorem size_eq (t : Tree α) : t.size = 1 + sizeForest t.children := by
  obtain ⟨label, span, children⟩ := t
  rfl

theorem cellsFrom_eq (id : Nat) (parent : Option Nat) (t : Tree α) :
    cellsFrom id parent t =
      ⟨t.label, t.span, parent, numbers (id + 1) t.children⟩ ::
        cellsForest (id + 1) id t.children := by
  obtain ⟨label, span, children⟩ := t
  rfl

theorem cellsFrom_push (id : Nat) (parent : Option Nat) (t c : Tree α) :
    cellsFrom id parent (t.push c) =
      ⟨t.label, t.span, parent, numbers (id + 1) t.children ++ [id + t.size]⟩ ::
        cellsForest (id + 1) id t.children ++ cellsFrom (id + t.size) (some id) c := by
  have hnext : id + 1 + sizeForest t.children = id + t.size := by
    rw [size_eq]
    omega
  rw [push, cellsFrom, numbers_append, cellsForest_append, hnext]
  simp [numbers, cellsForest]

theorem length_cellsBefore (us : List (Tree α)) : (cellsBefore us).length = nextNumber us := by
  induction us with
  | nil => rfl
  | cons u us ih =>
      rw [cellsBefore, List.length_append, ih, List.length_cons, nextNumber, size_eq,
        length_cellsForest _ _ fun t _ id parent => length_cellsFrom id parent t]
      omega

/-- The cells of the innermost node follow all others, and these do not depend on it. -/
theorem toArena_assemble (t : Tree α) (us : List (Tree α)) :
    (assemble t us).toArena =
      cellsBefore us ++ cellsFrom (nextNumber us) (openNumbers us).head? t := by
  induction us generalizing t with
  | nil => rfl
  | cons u us ih =>
      rw [assemble, ih, cellsFrom_push, cellsBefore, List.append_assoc]
      rfl

end Tree

namespace Builder

variable {α : Type}

open DiagramTint.Tree

theorem modify_append_cons (before after : Arena α) (c : Cell α) (f : Cell α → Cell α) :
    (before ++ c :: after).modify before.length f = before ++ f c :: after := by
  induction before with
  | nil => rfl
  | cons d before ih => simp [ih]

/-- A builder whose innermost open node is `t` so far, below the open nodes `us`. -/
structure Holds (b : Builder α) (t : Tree α) (us : List (Tree α)) : Prop where
  cells : b.cells = (assemble t us).toArena
  opened : b.opened = openNumbers (t :: us)

theorem holds_openAt_empty (label : α) (start : Nat) :
    (Builder.openAt {} label start).Holds (.leaf label ⟨start, start⟩) [] :=
  ⟨rfl, rfl⟩

theorem Holds.length_cells {b : Builder α} {t : Tree α} {us : List (Tree α)} (h : b.Holds t us) :
    b.cells.length = nextNumber us + t.size := by
  rw [h.cells, toArena_assemble, List.length_append, length_cellsBefore, length_cellsFrom]

theorem Holds.cells_modify {b : Builder α} {t : Tree α} {us : List (Tree α)} (h : b.Holds t us)
    (f : Cell α → Cell α) :
    b.cells.modify (nextNumber us) f =
      cellsBefore us ++
        f ⟨t.label, t.span, (openNumbers us).head?, numbers (nextNumber us + 1) t.children⟩ ::
          cellsForest (nextNumber us + 1) (nextNumber us) t.children := by
  rw [h.cells, toArena_assemble, cellsFrom_eq, ← length_cellsBefore, modify_append_cons]

theorem Holds.cells_add {b : Builder α} {t : Tree α} {us : List (Tree α)} (h : b.Holds t us)
    (label : α) (span : Span) :
    (b.add label span).cells = (assemble (t.push (.leaf label span)) us).toArena := by
  rw [toArena_assemble, cellsFrom_push]
  simp only [add, h.opened, openNumbers, List.head?_cons, h.cells_modify, h.length_cells]
  simp [Tree.leaf, cellsFrom, numbers, cellsForest]

theorem Holds.add {b : Builder α} {t : Tree α} {us : List (Tree α)} (h : b.Holds t us)
    (label : α) (span : Span) : (b.add label span).Holds (t.push (.leaf label span)) us :=
  ⟨h.cells_add label span, h.opened⟩

theorem Holds.openAt {b : Builder α} {t : Tree α} {us : List (Tree α)} (h : b.Holds t us)
    (label : α) (start : Nat) :
    (b.openAt label start).Holds (.leaf label ⟨start, start⟩) (t :: us) := by
  refine ⟨h.cells_add label ⟨start, start⟩, ?_⟩
  rw [Builder.openAt, h.length_cells, h.opened]
  rfl

theorem Holds.cells_closeAt {b : Builder α} {t : Tree α} {us : List (Tree α)} (h : b.Holds t us)
    (stop : Nat) : (b.closeAt stop).cells = (assemble (t.stopAt stop) us).toArena := by
  rw [toArena_assemble, stopAt, cellsFrom]
  simp only [closeAt, h.opened, openNumbers, h.cells_modify]

theorem Holds.closeAt {b : Builder α} {t u : Tree α} {us : List (Tree α)}
    (h : b.Holds t (u :: us)) (stop : Nat) :
    (b.closeAt stop).Holds (u.push (t.stopAt stop)) us := by
  refine ⟨h.cells_closeAt stop, ?_⟩
  rw [Builder.closeAt, h.opened]
  rfl

end Builder

end DiagramTint
