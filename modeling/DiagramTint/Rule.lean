import DiagramTint.Selector
import DiagramTint.Tag

/-!
# Tag rules

A rule gives a tag to the nodes of one selector. A rule key may hold several selectors with blanks
between them; each becomes a rule of its own.
-/

namespace DiagramTint

structure Rule where
  selector : Selector
  tag : Tag
deriving DecidableEq, Inhabited

namespace Rule

/-- Reads a rule from one selector. -/
def parse (selector : String) (tag : Tag) : Except SelectorError Rule :=
  match Selector.parse selector with
  | .ok s => .ok ⟨s, tag⟩
  | .error e => .error e

/-- Reads one rule per text; the first text that is no selector decides the error. -/
def parseAll (tag : Tag) : List String → Except SelectorError (List Rule)
  | [] => .ok []
  | w :: ws =>
    match parse w tag with
    | .error e => .error e
    | .ok rule =>
      match parseAll tag ws with
      | .error e => .error e
      | .ok rules => .ok (rule :: rules)

/-- Reads the rules of a key, which must hold at least one selector. -/
def parseMany (key : String) (tag : Tag) : Except SelectorError (List Rule) :=
  match Text.words key with
  | [] => .error .empty
  | ws => parseAll tag ws

/-- The rules of a key; none if the key cannot be read. -/
def ofKey (key : String) (tag : Tag) : List Rule :=
  match parseMany key tag with
  | .ok rules => rules
  | .error _ => []

theorem ofKey_of_ok {key : String} {tag : Tag} {rules : List Rule}
    (h : parseMany key tag = .ok rules) : ofKey key tag = rules := by
  rw [ofKey, h]

theorem ofKey_of_error {key : String} {tag : Tag} {e : SelectorError}
    (h : parseMany key tag = .error e) : ofKey key tag = [] := by
  rw [ofKey, h]

end Rule

end DiagramTint
