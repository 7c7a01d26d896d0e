import DiagramTint.Rule

/-!
# Rule tables

A table holds at most one rule per selector, in the order in which the rules took effect: a rule
whose selector is already present takes the place of the earlier one, moves to the end and leaves a
warning. The tag of a node comes from the most specific rule that selects it, by number of
segments, then by number of segments other than `*`, then by order.
-/

namespace DiagramTint

/-- Left by a rule that replaced an earlier rule with the same selector. -/
structure Replacement where
  selector : Selector
  previous : Tag
  replacement : Tag
deriving DecidableEq

def Replacement.render (r : Replacement) : String :=
  "duplicate selector `" ++ r.selector.render ++ "`: " ++ r.previous.name ++ " replaced by " ++
    r.replacement.name

/-- Rules with pairwise different selectors, and the replacements that led to them. -/
structure RuleTable where
  rules : List Rule := []
  warnings : List Replacement := []

namespace RuleTable

/-- The tag of exactly this selector. -/
def get? (t : RuleTable) (s : Selector) : Option Tag :=
  (t.rules.find? fun r => r.selector = s).map Rule.tag

/-- Adds a rule at the end, in the place of an earlier rule with the same selector. -/
def insert (t : RuleTable) (r : Rule) : RuleTable :=
  { rules := t.rules.filter (fun old => old.selector ≠ r.selector) ++ [r]
    warnings :=
      match t.get? r.selector with
      | none => t.warnings
      | some previous => t.warnings ++ [⟨r.selector, previous, r.tag⟩] }

/-- The table of a list of rules, entered one after the other. -/
def build (rules : List Rule) : RuleTable :=
  rules.foldl insert {}

/-- Whether a selector is at most as specific as another, order apart. -/
def atMostAsSpecific (a b : Selector) : Bool :=
  a.length < b.length || (a.length = b.length && a.concreteLength ≤ b.concreteLength)

/-- Of a choice so far and a later rule, the one that is more specific; the later one on a tie. -/
def prefer (best : Option Rule) (r : Rule) : Option Rule :=
  match best with
  | none => some r
  | some b => if atMostAsSpecific b.selector r.selector then some r else some b

/-- The tag of a node of type `nodeType` below the ancestors `chain`, nearest first. -/
def resolve (t : RuleTable) (nodeType : String) (chain : List String) : Option Tag :=
  ((t.rules.filter fun r => r.selector.selects nodeType chain).foldl prefer none).map Rule.tag

end RuleTable

end DiagramTint
