import DiagramTint.Tree

/-!
# Arenas

A tree kept as a growing list of cells, each with the numbers of its parent and its children. An
arena is filled while nodes are still open: a node gets its number when it is opened, hangs from
the node that is innermost then, and gets the end of its span only when it is closed.
-/

namespace DiagramTint

/-- One node of an arena. -/
structure Cell (α : Type) where
  label : α
  span : Span
  parent : Option Nat
  children : List Nat

/-- The cells of a tree, by number. -/
abbrev Arena (α : Type) := List (Cell α)

namespace Arena

variable {α : Type}

/-- The number of the parent of cell `i`. -/
def parent? (cells : Arena α) (i : Nat) : Option Nat :=
  cells[i]?.bind Cell.parent

/-- The numbers of the children of cell `i`. -/
def childrenOf (cells : Arena α) (i : Nat) : List Nat :=
  (cells[i]?.map Cell.children).getD []

/-- The first `n` numbers that a walk yields: the number on top of the stack, in whose place the
children of its cell are then put. -/
def walk (cells : Arena α) : Nat → List Nat → List Nat
  | 0, _ => []
  | _ + 1, [] => []
  | n + 1, i :: stack => i :: walk cells n (cells.childrenOf i ++ stack)

/-- The first `n` ancestors of cell `i`, nearest first. -/
def climb (cells : Arena α) : Nat → Nat → List Nat
  | 0, _ => []
  | n + 1, i =>
    match cells.parent? i with
    | none => []
    | some p => p :: climb cells n p

/-- The ancestors of cell `i`, nearest first: no more than there are cells. -/
def ancestors (cells : Arena α) (i : Nat) : List Nat :=
  cells.climb cells.length i

end Arena

/-- An arena that is being filled, and the numbers of its open nodes, innermost first. -/
structure Builder (α : Type) where
  cells : Arena α := []
  opened : List Nat := []

namespace Builder

variable {α : Type}

/-- Adds a node as the last child of the innermost open one. -/
def add (b : Builder α) (label : α) (span : Span) : Builder α :=
  let linked :=
    match b.opened.head? with
    | none => b.cells
    | some p => b.cells.modify p fun c => { c with children := c.children ++ [b.cells.length] }
  { b with cells := linked ++ [⟨label, span, b.opened.head?, []⟩] }

/-- Opens a node at byte `start`; its span is empty for the time being. -/
def openAt (b : Builder α) (label : α) (start : Nat) : Builder α :=
  { b.add label ⟨start, start⟩ with opened := b.cells.length :: b.opened }

/-- Closes the innermost open node at byte `stop`. -/
def closeAt (b : Builder α) (stop : Nat) : Builder α :=
  match b.opened with
  | [] => b
  | i :: opened =>
    { cells := b.cells.modify i fun c => { c with span := ⟨c.span.start, stop⟩ }
      opened := opened }

end Builder

end DiagramTint
