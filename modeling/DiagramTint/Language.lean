import DiagramTint.Document
import DiagramTint.Highlights.Paint

/-!
# Languages

A language is a name, a way to read a source as a tree, and a rule table. The diagram language
comes with its own rules, after which the rules of a user are entered.
-/

namespace DiagramTint

/-- A named language. A source that it cannot read has no tree. -/
structure Language where
  name : String
  read : List Char → Option (Tree String)
  rules : RuleTable

/-- Why a language could not be defined. -/
inductive LanguageError where
  | missingParser (language : String)
deriving DecidableEq

def LanguageError.message : LanguageError → String
  | .missingParser language => "language `" ++ language ++ "` has no parser"

namespace Language

/-- A language from its parts; it needs a way to read sources. -/
def define (name : String) (read : Option (List Char → Option (Tree String))) (rules : RuleTable) :
    Except LanguageError Language :=
  match read with
  | none => .error (.missingParser name)
  | some read => .ok ⟨name, read, rules⟩

/-- The tag that the rules give to a node below the ancestors `chain`, nearest first. -/
def category (l : Language) (chain : List String) (nodeType : String) : Option Tag :=
  l.rules.resolve nodeType chain

/-- The highlights of a source; none for a source without tree. -/
def highlight (l : Language) (source : List Char) : Highlights :=
  match l.read source with
  | none => ⟨l.name, []⟩
  | some tree => paint l.name l.rules source tree

end Language

namespace Diagram

/-- The name of the diagram language. -/
def name : String := "diagwiz"

/-- The tree of a diagram source, with the names of the kinds as labels. -/
def read (source : List Char) : Tree String :=
  (Document.parse source).tree.map Kind.name

/-- The keys of the rules that the diagram language comes with. -/
def builtinKeys : List (String × Tag) :=
  [("LineComment", .lineComment),
   ("Alias/alias", .definitionKeyword),
   ("Alias/Identifier", .variableName),
   ("Alias/String", .string),
   ("Message/Identifier", .variableName),
   ("Message/String", .string)]

/-- The rules that the diagram language comes with. A key that cannot be read gives none. -/
def builtinRules : List Rule :=
  builtinKeys.flatMap fun key => Rule.ofKey key.1 key.2

/-- Every key can be read, as one selector. -/
theorem builtinRules_eq : builtinRules =
    [⟨⟨Kind.lineComment.name, []⟩, .lineComment⟩,
     ⟨⟨Kind.aliasKeyword.name, [Kind.alias.name]⟩, .definitionKeyword⟩,
     ⟨⟨Kind.identifier.name, [Kind.alias.name]⟩, .variableName⟩,
     ⟨⟨Kind.string.name, [Kind.alias.name]⟩, .string⟩,
     ⟨⟨Kind.identifier.name, [Kind.message.name]⟩, .variableName⟩,
     ⟨⟨Kind.string.name, [Kind.message.name]⟩, .string⟩] := by
  decide +kernel

/-- The diagram language with further rules entered after its own. -/
def language (userRules : List Rule) : Language :=
  ⟨name, fun source => some (read source), RuleTable.build (builtinRules ++ userRules)⟩

end Diagram

end DiagramTint
