import DiagramTint.Rule.Table

/-!
# Indexed rules

A rule table laid out for look-up: the rules in effect are grouped by the node type of their
selector, each with the number of the rule that put it there, and the order in which they took
effect is a list of selectors beside the groups.
-/

namespace DiagramTint

/-- A rule in effect and the number of the rule, counted from 0, that put it there. -/
structure RuleEntry where
  selector : Selector
  tag : Tag
  number : Nat
deriving DecidableEq

namespace RuleEntry

/-- Whether an entry ranks at most as high as another: by number of segments, then by number of
segments other than `*`, then by number. -/
def ranksBelow (a b : RuleEntry) : Bool :=
  a.selector.length < b.selector.length ||
    (a.selector.length = b.selector.length &&
      (a.selector.concreteLength < b.selector.concreteLength ||
        (a.selector.concreteLength = b.selector.concreteLength && a.number ≤ b.number)))

/-- Of a choice so far and one more entry, the one that ranks higher; the latter on a tie. -/
def higher (best : Option RuleEntry) (e : RuleEntry) : Option RuleEntry :=
  match best with
  | none => some e
  | some b => if b.ranksBelow e then some e else some b

/-- Gives the first entry with the selector of a rule the tag and the number of that rule. Answers
with the tag it had before, or not at all if there is no such entry. -/
def revise (r : Rule) (number : Nat) : List RuleEntry → Option (Tag × List RuleEntry)
  | [] => none
  | e :: es =>
    if e.selector = r.selector then
      some (e.tag, { e with tag := r.tag, number := number } :: es)
    else
      match revise r number es with
      | none => none
      | some (previous, revised) => some (previous, e :: revised)

end RuleEntry

structure RuleIndex where
  /-- The entries by node type; the first group of a node type is the one that counts. -/
  groups : List (String × List RuleEntry) := []
  /-- The selectors in the order in which their rules took effect. -/
  order : List Selector := []
  warnings : List Replacement := []

namespace RuleIndex

/-- The entries for nodes of a type. -/
def entries (x : RuleIndex) (nodeType : String) : List RuleEntry :=
  (x.groups.lookup nodeType).getD []

/-- Enters the rule with a given number. -/
def insert (x : RuleIndex) (r : Rule) (number : Nat) : RuleIndex :=
  let nodeType := r.selector.nodeType
  match RuleEntry.revise r number (x.entries nodeType) with
  | some (previous, revised) =>
    { groups := (nodeType, revised) :: x.groups
      order := x.order.filter (· ≠ r.selector) ++ [r.selector]
      warnings := x.warnings ++ [⟨r.selector, previous, r.tag⟩] }
  | none =>
    { x with
      groups := (nodeType, x.entries nodeType ++ [⟨r.selector, r.tag, number⟩]) :: x.groups
      order := x.order ++ [r.selector] }

/-- The index of a list of rules, entered one after the other. -/
def build (rules : List Rule) : RuleIndex :=
  rules.zipIdx.foldl (fun x e => x.insert e.1 e.2) {}

/-- The tag of exactly this selector. -/
def get? (x : RuleIndex) (s : Selector) : Option Tag :=
  ((x.entries s.nodeType).find? fun e => e.selector = s).map RuleEntry.tag

/-- The rules in effect, in the order in which they took effect. -/
def rules (x : RuleIndex) : List Rule :=
  x.order.filterMap fun s => (x.get? s).map fun tag => ⟨s, tag⟩

/-- The number of rules in effect. -/
def size (x : RuleIndex) : Nat :=
  x.order.length

/-- The tag of a node of type `nodeType` below the ancestors `chain`, nearest first. -/
def resolve (x : RuleIndex) (nodeType : String) (chain : List String) : Option Tag :=
  (((x.entries nodeType).filter fun e => e.selector.selects nodeType chain).foldl
    RuleEntry.higher none).map RuleEntry.tag

end RuleIndex

end DiagramTint
