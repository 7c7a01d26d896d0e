import DiagramTint.Text.Blank

/-!
# Selectors

A selector such as `Alias/Identifier` names the type of a node and the types of the ancestors above
it, outermost first; `*` stands for any one ancestor.
-/

namespace DiagramTint

/-- A node type and the ancestors it must have, nearest first. -/
structure Selector where
  nodeType : String
  ancestors : List String
deriving DecidableEq, Inhabited

/-- Why a text is no selector. -/
inductive SelectorError where
  /-- Nothing but blanks. -/
  | empty
  /-- Some segment has nothing but blanks. -/
  | emptySegment (selector : String)
  /-- The last segment is `*`. -/
  | wildcardTarget (selector : String)
deriving DecidableEq

def SelectorError.message : SelectorError → String
  | .empty => "empty selector"
  | .emptySegment s => "empty segment in selector `" ++ s ++ "`"
  | .wildcardTarget s => "selector `" ++ s ++ "` must end in a concrete node type"

namespace Selector

/-- The segment that stands for any one ancestor. -/
def wildcard : String := "*"

/-- The segments of a trimmed selector text, each trimmed, outermost first. -/
def segments (cs : List Char) : List (List Char) :=
  (Text.splitWhere (· == '/') cs).map Text.trimChars

/-- Reads a selector. -/
def parse (text : String) : Except SelectorError Selector :=
  let trimmed := Text.trimChars text.toList
  let whole := String.ofList trimmed
  if trimmed.isEmpty then .error .empty
  else if (segments trimmed).any List.isEmpty then .error (.emptySegment whole)
  else
    match (segments trimmed).reverse.map String.ofList with
    | [] => .error .empty
    | target :: ancestors =>
      if target = wildcard then .error (.wildcardTarget whole) else .ok ⟨target, ancestors⟩

/-- The written form of a selector. -/
def render (s : Selector) : String :=
  "/".intercalate (s.ancestors.reverse ++ [s.nodeType])

/-- The number of segments. -/
def length (s : Selector) : Nat :=
  s.ancestors.length + 1

/-- The number of segments that name a type. -/
def concreteLength (s : Selector) : Nat :=
  (s.ancestors.filter (· ≠ wildcard)).length + 1

/-- Whether the nearest ancestors of a node are the required ones. -/
def ancestorsMatch : List String → List String → Bool
  | [], _ => true
  | _ :: _, [] => false
  | required :: rs, actual :: as =>
    (required = wildcard || required = actual) && ancestorsMatch rs as

/-- Whether a node of type `nodeType` below the ancestors `chain`, nearest first, is selected. -/
def selects (s : Selector) (nodeType : String) (chain : List String) : Bool :=
  s.nodeType = nodeType && ancestorsMatch s.ancestors chain

/-- There are as many ancestors as are required, and each required one is `*` or the ancestor in its
place. -/
theorem ancestorsMatch_iff {required chain : List String} :
    ancestorsMatch required chain = true ↔
      required.length ≤ chain.length ∧
        ∀ pair ∈ required.zip chain, pair.1 = wildcard ∨ pair.1 = pair.2 := by
  induction required generalizing chain with
  | nil => simp [ancestorsMatch]
  | cons name required ih =>
    cases chain with
    | nil => simp [ancestorsMatch]
    | cons actual chain =>
      rw [ancestorsMatch, Bool.and_eq_true, ih, List.zip_cons_cons, List.forall_mem_cons,
        List.length_cons, List.length_cons, Nat.add_le_add_iff_right]
      simp only [Bool.or_eq_true, decide_eq_true_eq]
      constructor
      · intro ⟨hname, hle, hrest⟩
        exact ⟨hle, hname, hrest⟩
      · intro ⟨hle, hname, hrest⟩
        exact ⟨hname, hle, hrest⟩

/-- A selector selects the nodes of its type whose nearest ancestors are the required ones. -/
theorem selects_iff {s : Selector} {nodeType : String} {chain : List String} :
    s.selects nodeType chain = true ↔
      s.nodeType = nodeType ∧ s.ancestors.length ≤ chain.length ∧
        ∀ pair ∈ s.ancestors.zip chain, pair.1 = wildcard ∨ pair.1 = pair.2 := by
  rw [selects, Bool.and_eq_true, decide_eq_true_eq, ancestorsMatch_iff]

theorem nodeType_eq_of_selects {s : Selector} {nodeType : String} {chain : List String}
    (h : s.selects nodeType chain = true) : s.nodeType = nodeType :=
  (selects_iff.mp h).1

/-- Selectors that select one node are of one type. -/
theorem nodeType_eq_of_both_select {s t : Selector} {nodeType : String} {chain : List String}
    (hs : s.selects nodeType chain = true) (ht : t.selects nodeType chain = true) :
    s.nodeType = t.nodeType := by
  rw [nodeType_eq_of_selects hs, nodeType_eq_of_selects ht]

end Selector

end DiagramTint
