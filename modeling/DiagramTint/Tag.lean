/-!
# Highlight tags

The fixed vocabulary of categories that a rule can give to a node.
-/

namespace DiagramTint

inductive Tag where
  | comment
  | lineComment
  | blockComment
  | docComment
  | keyword
  | definitionKeyword
  | controlKeyword
  | operatorKeyword
  | variableName
  | typeName
  | propertyName
  | functionName
  | string
  | number
  | bool
  | null
  | constant
  | operator
  | punctuation
  | bracket
  | separator
  | invalid
deriving DecidableEq, Inhabited

namespace Tag

/-- Every tag, in the order of declaration. -/
def all : List Tag :=
  [comment, lineComment, blockComment, docComment, keyword, definitionKeyword, controlKeyword,
   operatorKeyword, variableName, typeName, propertyName, functionName, string, number, bool, null,
   constant, operator, punctuation, bracket, separator, invalid]

/-- The name of a tag, the same in configurations and in output. -/
def name : Tag → String
  | comment => "comment"
  | lineComment => "line-comment"
  | blockComment => "block-comment"
  | docComment => "doc-comment"
  | keyword => "keyword"
  | definitionKeyword => "definition-keyword"
  | controlKeyword => "control-keyword"
  | operatorKeyword => "operator-keyword"
  | variableName => "variable-name"
  | typeName => "type-name"
  | propertyName => "property-name"
  | functionName => "function-name"
  | string => "string"
  | number => "number"
  | bool => "bool"
  | null => "null"
  | constant => "constant"
  | operator => "operator"
  | punctuation => "punctuation"
  | bracket => "bracket"
  | separator => "separator"
  | invalid => "invalid"

/-- The position of a tag in the vocabulary. -/
def index (t : Tag) : Nat :=
  all.findIdx (· = t)

/-- The tag with a given name. -/
def ofName? (name : String) : Option Tag :=
  all.find? fun t => t.name = name

theorem ofName?_name (t : Tag) : ofName? t.name = some t := by
  cases t <;> decide

/-- A name is made of small letters and hyphens. -/
theorem all_name (t : Tag) : (t.name.toList.all fun c => c.isLower || c == '-') = true := by
  cases t <;> rfl

end Tag

/-- The refusal of a name that no tag has. -/
structure UnknownTag where
  name : String
deriving DecidableEq

def UnknownTag.message (e : UnknownTag) : String :=
  "unknown highlight tag: " ++ e.name

/-- The tag with a given name, or the refusal of that name. -/
def Tag.parse (name : String) : Except UnknownTag Tag :=
  match Tag.ofName? name with
  | some t => .ok t
  | none => .error ⟨name⟩

end DiagramTint
