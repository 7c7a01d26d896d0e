import DiagramTint.Highlights.Paint
import DiagramTint.Tree.Arena

/-!
# Visiting an arena

The walk of a painter over the cells of an arena, one step at a time. A node is known by its number
only: its children are those that its cell lists, and the labels above it, which the rules look at,
are found by going up along the parents.
-/

namespace DiagramTint

namespace Arena

variable {α : Type}

/-- The label of cell `i`. -/
def labelOf [Inhabited α] (cells : Arena α) (i : Nat) : α :=
  (cells[i]?.map Cell.label).getD default

/-- The span of cell `i`. -/
def spanOf (cells : Arena α) (i : Nat) : Span :=
  (cells[i]?.map Cell.span).getD default

/-- The tag that the rules give to cell `i` below its ancestors. -/
def tagOf (table : RuleTable) (cells : Arena String) (i : Nat) : Option Tag :=
  table.resolve (cells.labelOf i) ((cells.ancestors i).map cells.labelOf)

end Arena

namespace Visit

/-- What is left to do: visit a cell that inherits a tag, or paint a piece. -/
inductive Task where
  | enter (id : Nat) (inherited : Option Tag)
  | fill (piece : Piece)
deriving DecidableEq

/-- How far a walk has got: what is left to do, next task first, the cells that it has visited and
the pieces that it has painted. -/
structure Progress where
  tasks : List Task
  visited : List Nat := []
  painted : List Piece := []
deriving DecidableEq

/-- A walk that is about to start at a cell. -/
def start (root : Nat) : Progress :=
  { tasks := [.enter root none] }

variable (table : RuleTable) (limit : Nat) (cells : Arena String)

/-- The tasks for the children of a tagged cell and for the gaps around them. -/
def tasksBetween (tag : Tag) (stop cursor : Nat) : List Nat → List Task
  | [] => [.fill ⟨⟨cursor, stop⟩, tag⟩]
  | i :: is =>
    let span := (cells.spanOf i).clamp limit
    .fill ⟨⟨cursor, min span.start stop⟩, tag⟩ :: .enter i (some tag) ::
      tasksBetween tag stop (max cursor (min span.stop stop)) is

/-- The tasks that take the place of a visit. -/
def expand (i : Nat) (inherited : Option Tag) : List Task :=
  match (cells.tagOf table i).or inherited with
  | none => (cells.childrenOf i).map fun c => .enter c none
  | some tag =>
    let span := (cells.spanOf i).clamp limit
    tasksBetween limit cells tag span.stop span.start (cells.childrenOf i)

/-- Does the next task, if there is one. -/
def step (p : Progress) : Progress :=
  match p.tasks with
  | [] => p
  | .fill piece :: tasks => { p with tasks := tasks, painted := p.painted ++ [piece] }
  | .enter i inherited :: tasks =>
    { p with
      tasks := expand table limit cells i inherited ++ tasks
      visited := p.visited ++ [i] }

end Visit

end DiagramTint
