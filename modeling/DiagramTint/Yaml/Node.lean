import DiagramTint.Yaml.Token

/-!
# Nodes and documents of YAML

A document is a tree of scalars, sequences and mappings, in which an alias stands for the node of an
anchor by the number of that anchor.
-/

namespace DiagramTint.Yaml

inductive Node where
  | scalar (tag : Option String) (style : Style) (text : List Char)
  | sequence (tag : Option String) (items : List Node)
  | mapping (tag : Option String) (pairs : List (Node × Node))
  | alias (number : Nat)

/-- The node that stands where nothing is written. -/
def Node.empty : Node :=
  .scalar none .plain []

/-- Whether a node has to be followed to another one. -/
def Node.isAlias : Node → Bool
  | .alias _ => true
  | _ => false

mutual

/-- The number of marks that make up a node: one for a scalar or an alias, and a start and an end
for a collection besides what is in it. -/
def Node.size : Node → Nat
  | .scalar _ _ _ | .alias _ => 1
  | .sequence _ items => 2 + Node.sizeItems items
  | .mapping _ pairs => 2 + Node.sizePairs pairs

/-- The sum of the sizes of some items. -/
def Node.sizeItems : List Node → Nat
  | [] => 0
  | n :: ns => n.size + Node.sizeItems ns

/-- The sum of the sizes of some pairs. -/
def Node.sizePairs : List (Node × Node) → Nat
  | [] => 0
  | p :: ps => Node.sizePair p + Node.sizePairs ps

/-- The size of a key and its value. -/
def Node.sizePair : Node × Node → Nat
  | (k, v) => k.size + v.size

end

/-- The anchors of a document. Each gets the number of names known before it, so that naming a node
by a name that is already known uses the number that the next new name will get; an alias takes the
latest node with its number. -/
structure Anchors where
  /-- The names and the number each stands for. -/
  names : List (String × Nat) := []
  /-- The numbers that were given, the latest first, each with the place of its node. -/
  given : List (Nat × Nat) := []
  /-- The nodes by place. -/
  nodes : List (Nat × Node) := []

namespace Anchors

/-- The number that a name stands for. -/
def number? (a : Anchors) (name : String) : Option Nat :=
  (a.names.find? fun entry => entry.1 = name).map Prod.snd

/-- Gives a number to a name and reserves the place for its node. -/
def define (a : Anchors) (name : String) : Nat × Anchors :=
  let number := a.names.length
  let place := a.given.length
  (place,
    { a with
      names := (name, number) :: a.names.filter fun entry => entry.1 ≠ name
      given := (number, place) :: a.given })

/-- Puts a node in its place. -/
def complete (a : Anchors) (place : Option Nat) (n : Node) : Anchors :=
  match place with
  | none => a
  | some place => { a with nodes := (place, n) :: a.nodes }

/-- The node of a number. -/
def node? (a : Anchors) (number : Nat) : Option Node :=
  match a.given.find? fun entry => entry.1 = number with
  | none => none
  | some (_, place) => (a.nodes.find? fun entry => entry.1 = place).map Prod.snd

end Anchors

structure Document where
  root : Node
  anchors : Anchors

/-- What an alias stands for; any other node stands for itself. -/
def Document.follow (d : Document) : Node → Node
  | .alias number => (d.anchors.node? number).getD .empty
  | n => n

end DiagramTint.Yaml
