import DiagramTint.Document
import DiagramTint.Tree.Arena

/-!
# Building the arena of a document

The nodes of a document, numbered in the order in which reading makes them: a statement is opened
before its parts and closed when it is complete or abandoned, and the root stays open to the end.
-/

namespace DiagramTint

namespace Document

/-- What a token adds to the arena while no statement is open. -/
def buildStart (b : Builder Kind) (t : Token) : Builder Kind :=
  match t.kind with
  | .lineComment => b.add .lineComment t.span
  | .aliasKeyword => (b.openAt .alias t.span.start).add .aliasKeyword t.span
  | .identifier => (b.openAt .message t.span.start).add .identifier t.span
  | .semicolon => b
  | _ => b.add .error t.span

/-- What a token adds to the arena while a statement at stage `stage` is open. -/
def buildAdvance (b : Builder Kind) (last : Nat) (stage : Stage) (t : Token) : Builder Kind :=
  if t.kind = .lineComment then b.add .lineComment t.span
  else
    match stage.react t.kind with
    | some r =>
      match r.node with
      | none => b
      | some kind => b.add kind t.span
    | none =>
      if t.kind = .semicolon then b.closeAt t.span.stop
      else buildStart (b.closeAt last) t

/-- Builds the nodes of all tokens that are left, and closes the statement that is open then. -/
def buildRun (b : Builder Kind) (state : State) : List Token → Builder Kind
  | [] =>
    match state.current with
    | none => b
    | some _ => b.closeAt state.last
  | t :: ts =>
    let next :=
      match state.current with
      | none => buildStart b t
      | some s => buildAdvance b state.last s.stage t
    buildRun next (step state t).2 ts

/-- The arena of a source. -/
def arena (source : List Char) : Arena Kind :=
  let root : Builder Kind := Builder.openAt {} .program 0
  ((buildRun root {} (tokenize source)).closeAt (Text.byteLength source)).cells

end Document

end DiagramTint
