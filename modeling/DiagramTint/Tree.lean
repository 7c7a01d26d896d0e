import DiagramTint.Text.Bytes

/-!
# Labelled trees over a text

A node has a label, the span of bytes it covers and its children in order. Spans are data: a child
may stick out of its parent, overlap its siblings or be reversed.
-/

namespace DiagramTint

/-- An ordered tree whose nodes carry a label and a span. -/
inductive Tree (α : Type) where
  | node (label : α) (span : Span) (children : List (Tree α))

namespace Tree

variable {α β : Type}

instance [Inhabited α] : Inhabited (Tree α) :=
  ⟨.node default default []⟩

def label : Tree α → α
  | .node l _ _ => l

def span : Tree α → Span
  | .node _ s _ => s

def children : Tree α → List (Tree α)
  | .node _ _ cs => cs

/-- A node without children. -/
def leaf (label : α) (span : Span) : Tree α :=
  .node label span []

mutual

/-- The number of nodes. -/
def size : Tree α → Nat
  | .node _ _ cs => 1 + sizeForest cs

def sizeForest : List (Tree α) → Nat
  | [] => 0
  | t :: ts => size t + sizeForest ts

end

mutual

/-- Changes every label and nothing else. -/
def map (f : α → β) : Tree α → Tree β
  | .node l s cs => .node (f l) s (mapForest f cs)

def mapForest (f : α → β) : List (Tree α) → List (Tree β)
  | [] => []
  | t :: ts => map f t :: mapForest f ts

end

mutual

/-- All nodes in pre-order, each with the labels of its ancestors, nearest first. The tree itself
stands below the ancestors `chain`. -/
def visits (chain : List α) : Tree α → List (List α × Tree α)
  | .node l s cs => (chain, .node l s cs) :: visitsForest (l :: chain) cs

def visitsForest (chain : List α) : List (Tree α) → List (List α × Tree α)
  | [] => []
  | t :: ts => visits chain t ++ visitsForest chain ts

end

/-- All nodes in pre-order. -/
def preorder (t : Tree α) : List (Tree α) :=
  (t.visits []).map Prod.snd

/-- The node with a given number in pre-order. -/
def node? (t : Tree α) (id : Nat) : Option (Tree α) :=
  t.preorder[id]?

/-- The first child with a given label. -/
def child? [DecidableEq α] (t : Tree α) (label : α) : Option (Tree α) :=
  t.children.find? fun c => c.label = label

end Tree

end DiagramTint
