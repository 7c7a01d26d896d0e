import DiagramTint.Config
import DiagramTint.Yaml.Node.Build

/-!
# Configurations from YAML text

A configuration is a mapping whose field `rules` is a sequence of mappings with the fields
`selector` and `tag`; other fields do not matter. Only a valid configuration is accepted.
-/

namespace DiagramTint

/-- Why a YAML document is no configuration. -/
inductive ShapeError where
  | expectedMapping
  | expectedSequence
  | expectedScalar
  | duplicateField (name : String)
  | missingField (name : String)
  | unknownTag (name : String)
  | unexpectedContent
  | tooManyAliases
deriving DecidableEq

def ShapeError.message : ShapeError → String
  | .expectedMapping => "expected a mapping"
  | .expectedSequence => "expected a sequence"
  | .expectedScalar => "expected a scalar"
  | .duplicateField name => "duplicate field `" ++ name ++ "`"
  | .missingField name => "missing field `" ++ name ++ "`"
  | .unknownTag name => "unknown tag `" ++ name ++ "`"
  | .unexpectedContent => "a tag name is followed by content"
  | .tooManyAliases => "repetition limit exceeded"

/-- Why a text is no configuration. -/
inductive ConfigError where
  | syntaxError (e : Yaml.Error)
  | shape (e : ShapeError)
  | selector (e : InvalidSelector)

def ConfigError.message : ConfigError → String
  | .syntaxError e => "Parse error: " ++ e.message
  | .shape e => "Parse error: " ++ e.message
  | .selector e => e.message

namespace Config

/-- The text of a scalar, however it is written. -/
def text (d : Yaml.Document) (n : Yaml.Node) : Except ShapeError String :=
  match d.follow n with
  | .scalar _ _ text => .ok (String.ofList text)
  | _ => .error .expectedScalar

/-- The pairs of a mapping. An empty plain scalar is a mapping without pairs. -/
def pairs (d : Yaml.Document) (n : Yaml.Node) : Except ShapeError (List (Yaml.Node × Yaml.Node)) :=
  match d.follow n with
  | .mapping _ pairs => .ok pairs
  | .scalar _ .plain [] => .ok []
  | _ => .error .expectedMapping

/-- The items of a sequence. An empty plain scalar is a sequence without items. -/
def items (d : Yaml.Document) (n : Yaml.Node) : Except ShapeError (List Yaml.Node) :=
  match d.follow n with
  | .sequence _ items => .ok items
  | .scalar _ .plain [] => .ok []
  | _ => .error .expectedSequence

/-- The value of the field `name`. All keys are scalars, and other fields do not matter. -/
def field (d : Yaml.Document) (name : String) :
    List (Yaml.Node × Yaml.Node) → Except ShapeError (Option Yaml.Node)
  | [] => .ok none
  | (k, v) :: rest =>
    match text d k, field d name rest with
    | .error e, _ => .error e
    | _, .error e => .error e
    | .ok key, .ok later =>
      if key = name then
        match later with
        | none => .ok (some v)
        | some _ => .error (.duplicateField name)
      else .ok later

/-- The value of a field that must be there. -/
def requiredField (d : Yaml.Document) (name : String) (ps : List (Yaml.Node × Yaml.Node)) :
    Except ShapeError Yaml.Node :=
  match field d name ps with
  | .error e => .error e
  | .ok none => .error (.missingField name)
  | .ok (some v) => .ok v

/-- The name in a local YAML tag. -/
def localName? (tag : Option String) : Option String :=
  match tag.map String.toList with
  | some ['!'] => some "!"
  | some ('!' :: name) => some (String.ofList name)
  | _ => none

/-- Whether a plain scalar stands for nothing. -/
def isNull (text : List Char) : Bool :=
  text.isEmpty || ["~", "null", "Null", "NULL"].contains (String.ofList text)

/-- The highlight tag with a given name. -/
def tagNamed (name : String) : Except ShapeError Tag :=
  match Tag.ofName? name with
  | none => .error (.unknownTag name)
  | some t => .ok t

/-- A highlight tag, written as its name, or as a local YAML tag on nothing. -/
def tag (d : Yaml.Document) (n : Yaml.Node) : Except ShapeError Tag :=
  match d.follow n with
  | .scalar yamlTag style text =>
    match localName? yamlTag with
    | none => tagNamed (String.ofList text)
    | some name =>
      match tagNamed name with
      | .error e => .error e
      | .ok t => if style = .plain && isNull text then .ok t else .error .unexpectedContent
  | _ => .error .expectedScalar

/-- One rule of a configuration. -/
def rule (d : Yaml.Document) (n : Yaml.Node) : Except ShapeError ConfigRule := do
  let ps ← pairs d n
  let selector ← requiredField d "selector" ps
  let tagNode ← requiredField d "tag" ps
  return ⟨← text d selector, ← tag d tagNode⟩

/-- The rules of a document; without the field `rules` it has none. -/
def rulesOf (d : Yaml.Document) : Except ShapeError (List Yaml.Node) := do
  match ← field d "rules" (← pairs d d.root) with
  | none => return []
  | some n => items d n

/-- The nodes that are read of a mapping: itself, its keys and the values of the given fields. -/
def visited (d : Yaml.Document) (names : List String) (n : Yaml.Node) : List Yaml.Node :=
  let ps := (pairs d n).toOption.getD []
  let values := ps.filter fun (k, _) => names.any fun name => (text d k).toOption = some name
  n :: ps.map Prod.fst ++ values.map Prod.snd

/-- The number of aliases among the nodes that are read of a document, each counted as often as it
is read. -/
def aliasCount (d : Yaml.Document) : Nat :=
  let rules := (rulesOf d).toOption.getD []
  let nodes := visited d ["rules"] d.root ++ rules.flatMap (visited d ["selector", "tag"])
  nodes.countP Yaml.Node.isAlias

/-- The configuration of a document. Reading it may follow a hundred aliases for each mark of the
document and no more, which bounds what a short text can stand for. -/
def ofDocument (d : Yaml.Document) : Except ShapeError Config := do
  let rules ← (← rulesOf d).mapM (rule d)
  if 100 * d.root.size < aliasCount d then throw .tooManyAliases
  return ⟨rules⟩

/-- Reads a configuration, which must be valid. A text without content is the empty one. -/
def ofYaml (cs : List Char) : Except ConfigError Config :=
  if (Text.trimChars cs).isEmpty then .ok {}
  else
    match Yaml.Document.parse cs with
    | .error e => .error (.syntaxError e)
    | .ok none => .ok {}
    | .ok (some d) =>
      match ofDocument d with
      | .error e => .error (.shape e)
      | .ok c =>
        match c.validate with
        | .error e => .error (.selector e)
        | .ok () => .ok c

end Config

end DiagramTint
