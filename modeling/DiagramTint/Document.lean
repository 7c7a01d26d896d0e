import DiagramTint.Token
import DiagramTint.Tree

/-!
# Diagram documents

A document is a list of statements, `alias name = "text";` and `from -> to: "text";`, with the
`=`, the label and the `;` optional and comments allowed everywhere. Reading never fails: it goes
through the tokens once with the statement that is still open, and whatever does not fit becomes a
diagnostic. A token that an open statement cannot use closes the statement and is read again as the
start of the next one; a comment belongs to whatever is open.
-/

namespace DiagramTint

/-- The kinds of nodes in a document's tree. -/
inductive Kind where
  | program
  | lineComment
  | alias
  | aliasKeyword
  | identifier
  | string
  | message
  | arrow
  /-- A token that starts no statement. -/
  | error
deriving DecidableEq, Inhabited

/-- The name of a kind, as selectors and outlines write it. -/
def Kind.name : Kind → String
  | .program => "Program"
  | .lineComment => "LineComment"
  | .alias => "Alias"
  | .aliasKeyword => "alias"
  | .identifier => "Identifier"
  | .string => "String"
  | .message => "Message"
  | .arrow => "Arrow"
  | .error => "⚠"

/-- Every kind, in the order of declaration. -/
def Kind.all : List Kind :=
  [.program, .lineComment, .alias, .aliasKeyword, .identifier, .string, .message, .arrow, .error]

/-- The kind with a given name. -/
def Kind.ofName? (name : String) : Option Kind :=
  Kind.all.find? fun k => k.name = name

/-- What can be wrong with a document. -/
inductive Fault where
  | expectedStatement
  | expectedAliasName
  | expectedArrow
  | expectedTarget
  | expectedString
  | unterminatedString
deriving DecidableEq, Inhabited

def Fault.message : Fault → String
  | .expectedStatement => "expected alias or message"
  | .expectedAliasName => "expected alias name"
  | .expectedArrow => "expected message arrow"
  | .expectedTarget => "expected message target"
  | .expectedString => "expected string"
  | .unterminatedString => "unterminated string"

/-- A fault and where it was noticed. -/
structure Diagnostic where
  fault : Fault
  span : Span
deriving DecidableEq, Inhabited

def Diagnostic.render (d : Diagnostic) : String :=
  d.fault.message ++ " at " ++ d.span.render

/-- What an open statement awaits next. -/
inductive Stage where
  | aliasName
  /-- The text of an alias; `equals` says whether an equals sign may still come before it. -/
  | aliasText (equals : Bool)
  | messageArrow
  | messageTarget
  | messageColon
  | messageLabel
  | semicolon
deriving DecidableEq, Inhabited

namespace Stage

/-- The fault of a statement that ends at this stage, if something was still required. -/
def wanted : Stage → Option Fault
  | .aliasName => some .expectedAliasName
  | .aliasText _ => some .expectedString
  | .messageArrow => some .expectedArrow
  | .messageTarget => some .expectedTarget
  | .messageLabel => some .expectedString
  | .messageColon | .semicolon => none

/-- What a statement does with a token that it takes: the node it makes of it, if any, a fault of
the token itself, and the stage after it. -/
structure Reaction where
  node : Option Kind := none
  fault : Option Fault := none
  next : Stage

/-- A string that is taken; it may be the last part of its statement. -/
def takeString (terminated : Bool) : Reaction :=
  { node := some .string
    fault := if terminated then none else some .unterminatedString
    next := .semicolon }

/-- The reaction to a token, or none if the statement cannot take it at this stage. -/
def react : Stage → TokenKind → Option Reaction
  | .aliasName, .identifier => some { node := some .identifier, next := .aliasText true }
  | .aliasText true, .equals => some { next := .aliasText false }
  | .aliasText _, .string terminated => some (takeString terminated)
  | .messageArrow, .arrow => some { node := some .arrow, next := .messageTarget }
  | .messageTarget, .identifier => some { node := some .identifier, next := .messageColon }
  | .messageColon, .colon => some { next := .messageLabel }
  | .messageLabel, .string terminated => some (takeString terminated)
  | _, _ => none

end Stage

/-- A statement that is still being read. -/
structure Statement where
  kind : Kind
  start : Nat
  stage : Stage
  parts : List (Tree Kind)

/-- The node of a statement that ends at byte `stop`. -/
def Statement.close (s : Statement) (stop : Nat) : Tree Kind :=
  .node s.kind ⟨s.start, stop⟩ s.parts

/-- A document: its tree and what is wrong with it, in the order of the text. -/
structure Document where
  tree : Tree Kind
  diagnostics : List Diagnostic

namespace Document

/-- Top-level nodes and diagnostics, in the order in which they are completed. -/
structure Output where
  nodes : List (Tree Kind) := []
  diagnostics : List Diagnostic := []

instance : Append Output :=
  ⟨fun a b => ⟨a.nodes ++ b.nodes, a.diagnostics ++ b.diagnostics⟩⟩

/-- Where reading stands: the end of the last token taken, and the open statement. -/
structure State where
  last : Nat := 0
  current : Option Statement := none

/-- Reads a token while no statement is open. -/
def start (t : Token) : Output × State :=
  match t.kind with
  | .lineComment => ({ nodes := [.leaf .lineComment t.span] }, { last := t.span.stop })
  | .aliasKeyword =>
    ({}, { last := t.span.stop
           current := some ⟨.alias, t.span.start, .aliasName, [.leaf .aliasKeyword t.span]⟩ })
  | .identifier =>
    ({}, { last := t.span.stop
           current := some ⟨.message, t.span.start, .messageArrow, [.leaf .identifier t.span]⟩ })
  | .semicolon => ({}, { last := t.span.stop })
  | _ =>
    ({ nodes := [.leaf .error t.span], diagnostics := [⟨.expectedStatement, t.span⟩] },
      { last := t.span.stop })

/-- Ends a statement before its next token; its last token ended at byte `last`. -/
def abandon (s : Statement) (last stop : Nat) : Output :=
  { nodes := [s.close stop]
    diagnostics := s.stage.wanted.toList.map fun fault => ⟨fault, last, last⟩ }

/-- Reads a token while a statement is open. -/
def advance (last : Nat) (s : Statement) (t : Token) : Output × State :=
  if t.kind = .lineComment then
    ({}, { last := t.span.stop
           current := some { s with parts := s.parts ++ [.leaf .lineComment t.span] } })
  else
    match s.stage.react t.kind with
    | some r =>
      let parts := s.parts ++ (r.node.toList.map fun kind => .leaf kind t.span)
      ({ diagnostics := r.fault.toList.map fun fault => ⟨fault, t.span⟩ },
        { last := t.span.stop, current := some { s with stage := r.next, parts := parts } })
    | none =>
      if t.kind = .semicolon then (abandon s last t.span.stop, { last := t.span.stop })
      else
        let (output, state) := start t
        (abandon s last last ++ output, state)

/-- Reads one token. -/
def step (state : State) (t : Token) : Output × State :=
  match state.current with
  | none => start t
  | some s => advance state.last s t

/-- Ends the open statement, if there is one. -/
def finish (state : State) : Output :=
  match state.current with
  | none => {}
  | some s => abandon s state.last state.last

/-- Reads all tokens that are left. -/
def run (state : State) : List Token → Output
  | [] => finish state
  | t :: ts =>
    let (output, next) := step state t
    output ++ run next ts

/-- The document of a source. The root covers all of it. -/
def parse (source : List Char) : Document :=
  let output := run {} (tokenize source)
  { tree := .node .program ⟨0, Text.byteLength source⟩ output.nodes
    diagnostics := output.diagnostics }

end Document

end DiagramTint
