import DiagramTint.Rule

/-!
# Configurations

A configuration is a list of user rules, each with a key that may hold several selectors. It is
valid if every key can be read; using one skips the keys that cannot be read.
-/

namespace DiagramTint

/-- One user rule: a key with one or more selectors, and the tag for all of them. -/
structure ConfigRule where
  selector : String
  tag : Tag
deriving DecidableEq, Inhabited

structure Config where
  rules : List ConfigRule := []
deriving DecidableEq, Inhabited

/-- A key that cannot be read, and why. -/
structure InvalidSelector where
  selector : String
  error : SelectorError
deriving DecidableEq

def InvalidSelector.message (e : InvalidSelector) : String :=
  "Invalid selector `" ++ e.selector ++ "`: " ++ e.error.message

namespace Config

/-- The first key of a list of rules that cannot be read. -/
def firstInvalid? : List ConfigRule → Option InvalidSelector
  | [] => none
  | r :: rs =>
    match Rule.parseMany r.selector r.tag with
    | .ok _ => firstInvalid? rs
    | .error e => some ⟨r.selector, e⟩

/-- Accepts a configuration all of whose keys can be read. -/
def validate (c : Config) : Except InvalidSelector Unit :=
  match firstInvalid? c.rules with
  | none => .ok ()
  | some e => .error e

/-- The rules of a configuration, in order. A key that cannot be read gives none. -/
def tagRules (c : Config) : List Rule :=
  c.rules.flatMap fun r => Rule.ofKey r.selector r.tag

end Config

end DiagramTint
