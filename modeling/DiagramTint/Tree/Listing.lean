import DiagramTint.Tree

/-!
# Trees as listings

The same tree written row by row: each row names the number of its parent row, which stands
earlier, and siblings follow one another in the order of their rows. Row 0 is the root.
-/

namespace DiagramTint

/-- One row of a listing. -/
structure Row (α : Type) where
  label : α
  span : Span
  parent : Option Nat

/-- A tree given by rows that point to their parents. -/
abbrev Listing (α : Type) := List (Row α)

namespace Listing

variable {α : Type}

/-- The rows below row `i`, in order. -/
def childrenOf (rows : Listing α) (i : Nat) : List Nat :=
  (List.range rows.length).filter fun j => i < j && (rows[j]?.bind Row.parent) == some i

/-- The labels of the ancestors of row `i`, nearest first. -/
def chain (rows : Listing α) (i : Nat) : List α :=
  match rows[i]?.bind Row.parent with
  | none => []
  | some p =>
    if p < i then
      match rows[p]? with
      | none => []
      | some row => row.label :: chain rows p
    else []
termination_by i

/-- The tree that hangs from row `i`, whose content is `row`. -/
def subtree (rows : Listing α) (i : Nat) (row : Row α) : Tree α :=
  .node row.label row.span <|
    (childrenOf rows i).attach.filterMap fun j =>
      match rows[j.val]? with
      | none => none
      | some child => some (subtree rows j.val child)
termination_by rows.length - i
decreasing_by
  have h := j.property
  simp only [childrenOf, List.mem_filter, List.mem_range, Bool.and_eq_true,
    decide_eq_true_eq] at h
  omega

/-- The tree of a listing; an empty listing has none. -/
def toTree? (rows : Listing α) : Option (Tree α) :=
  rows.head?.map (subtree rows 0)

end Listing

namespace Tree

variable {α : Type}

mutual

/-- The rows of a tree whose root gets number `id` and hangs from row `parent`. -/
def rowsFrom (id : Nat) (parent : Option Nat) : Tree α → Listing α
  | .node l s cs => ⟨l, s, parent⟩ :: rowsForest (id + 1) id cs

def rowsForest (id parent : Nat) : List (Tree α) → Listing α
  | [] => []
  | t :: ts => rowsFrom id (some parent) t ++ rowsForest (id + size t) parent ts

end

/-- The listing of a tree in pre-order. -/
def toListing (t : Tree α) : Listing α :=
  rowsFrom 0 none t

end Tree

end DiagramTint
