import DiagramTint.Language

/-!
# JSON documents

A second language: JSON texts as trees. The lexemes of a text are leaves, except that a string has
its quotes, its runs of plain characters and its escapes as children. Containers are then built
with a stack of those that are still open.
-/

namespace DiagramTint.Json

/-- The characters between lexemes. -/
def isBlank (c : Char) : Bool :=
  c = ' ' || c = '\t' || c = '\n' || c = '\r'

/-- The run of plain characters of a string from `start` to `stop`, if it has any. -/
def content (start stop : Nat) : List (Tree String) :=
  if start < stop then [.leaf "string_content" ⟨start, stop⟩] else []

/-- The rest of a string, the closing quote included: its parts, and how many characters it takes.
The next character stands at `pos` and the plain characters just before it start at `start`. -/
def stringRest (start pos : Nat) : List Char → Option (List (Tree String) × Nat)
  | [] => none
  | '"' :: _ => some (content start pos ++ [.leaf "\"" ⟨pos, pos + 1⟩], 1)
  | '\n' :: _ => none
  | ['\\'] => none
  | '\\' :: c :: cs =>
    if ['"', '\\', '/', 'b', 'f', 'n', 'r', 't', 'u'].contains c then
      match stringRest (pos + 2) (pos + 2) cs with
      | none => none
      | some (parts, n) =>
        some (content start pos ++ .leaf "escape_sequence" ⟨pos, pos + 2⟩ :: parts, n + 2)
    else none
  | c :: cs =>
    match stringRest start (pos + c.utf8Size) cs with
    | none => none
    | some (parts, n) => some (parts, n + 1)

/-- How many digits a text starts with. -/
def digits (cs : List Char) : Nat :=
  (cs.takeWhile Char.isDigit).length

/-- The length of the integer part of a number: zero alone, or digits that do not start with it. -/
def integerPart : List Char → Option Nat
  | [] => none
  | c :: cs => if c = '0' then some 1 else if c.isDigit then some (digits cs + 1) else none

/-- The length of a fraction, if there is one. -/
def fractionPart : List Char → Nat
  | '.' :: cs => digits cs + 1
  | _ => 0

/-- The length of an exponent, if there is a complete one. -/
def exponentPart : List Char → Nat
  | c :: cs =>
    if c = 'e' || c = 'E' then
      let sign := if cs.head? = some '-' || cs.head? = some '+' then 1 else 0
      let n := digits (cs.drop sign)
      if n = 0 then 0 else n + sign + 1
    else 0
  | [] => 0

/-- The length of a number. -/
def number (cs : List Char) : Option Nat :=
  let sign := if cs.head? = some '-' then 1 else 0
  match integerPart (cs.drop sign) with
  | none => none
  | some n =>
    let whole := sign + n
    let fraction := fractionPart (cs.drop whole)
    some (whole + fraction + exponentPart (cs.drop (whole + fraction)))

/-- The lexeme at the start of a text whose first character `c` stands at `pos`, and how many of
the characters `cs` after `c` belong to it. -/
def lexeme (pos : Nat) (c : Char) (cs : List Char) : Option (Tree String × Nat) :=
  if ['\x7b', '\x7d', '[', ']', ':', ','].contains c then
    some (.leaf c.toString ⟨pos, pos + 1⟩, 0)
  else if c = '"' then
    match stringRest (pos + 1) (pos + 1) cs with
    | none => none
    | some (parts, n) =>
      let stop := pos + 1 + Text.byteLength (cs.take n)
      some (.node "string" ⟨pos, stop⟩ (.leaf "\"" ⟨pos, pos + 1⟩ :: parts), n)
  else
    match ["true", "false", "null"].find? fun word => word.toList.isPrefixOf (c :: cs) with
    | some word => some (.leaf word ⟨pos, pos + word.length⟩, word.length - 1)
    | none =>
      match number (c :: cs) with
      | none => none
      | some n => some (.leaf "number" ⟨pos, pos + n⟩, n - 1)

/-- The lexemes of a text whose first character stands at byte `pos`. -/
def scan (pos : Nat) : List Char → Option (List (Tree String))
  | [] => some []
  | c :: cs =>
    if isBlank c then scan (pos + 1) cs
    else
      match lexeme pos c cs with
      | none => none
      | some (t, n) => (scan t.span.stop (cs.drop n)).map (t :: ·)
termination_by cs => cs.length
decreasing_by
  · simp
  · simp only [List.length_drop, List.length_cons]
    omega

/-- What may come next in an open container. -/
inductive Stage where
  /-- An item or the end. -/
  | first
  /-- An item, or in an object the key of one. -/
  | item
  | colon
  | value
  /-- A comma or the end. -/
  | next
deriving DecidableEq, Inhabited

/-- A container that is still open: its parts so far and those of an unfinished pair, the latest
first in both. -/
structure Frame where
  isObject : Bool
  start : Nat
  parts : List (Tree String)
  pair : List (Tree String) := []
  stage : Stage := .first

namespace Frame

/-- The container that a bracket opens. -/
def opening? (t : Tree String) : Option Frame :=
  if t.label = "[" then some { isObject := false, start := t.span.start, parts := [t] }
  else if t.label = "\x7b" then some { isObject := true, start := t.span.start, parts := [t] }
  else none

/-- The container after a complete value, if it can take one. -/
def take (f : Frame) (value : Tree String) : Option Frame :=
  match f.isObject, f.stage, f.pair with
  | false, .first, _ | false, .item, _ =>
    some { f with parts := value :: f.parts, stage := .next }
  | true, .first, _ | true, .item, _ =>
    if value.label = "string" then some { f with pair := [value], stage := .colon } else none
  | true, .value, [colon, key] =>
    let node := .node "pair" ⟨key.span.start, value.span.stop⟩ [key, colon, value]
    some { f with parts := node :: f.parts, pair := [], stage := .next }
  | _, _, _ => none

/-- The container after a comma or a colon. -/
def divide (f : Frame) (t : Tree String) : Option Frame :=
  if t.label = "," && f.stage = .next then some { f with parts := t :: f.parts, stage := .item }
  else if t.label = ":" && f.stage = .colon then
    some { f with pair := t :: f.pair, stage := .value }
  else none

/-- The node of a container that a bracket closes. -/
def close (f : Frame) (t : Tree String) : Option (Tree String) :=
  if (f.stage = .first || f.stage = .next) &&
      t.label = (if f.isObject then "\x7d" else "]") then
    some (.node (if f.isObject then "object" else "array") ⟨f.start, t.span.stop⟩
      (t :: f.parts).reverse)
  else none

end Frame

/-- The open containers, the innermost first, and the finished values, the latest first. -/
structure State where
  stack : List Frame := []
  values : List (Tree String) := []

namespace State

/-- Hands a complete value to the innermost container, or to the document. -/
def give (s : State) (value : Tree String) : Option State :=
  match s.stack with
  | [] => some { s with values := value :: s.values }
  | f :: rest => (f.take value).map fun f => { s with stack := f :: rest }

/-- Reads one lexeme. -/
def step (s : State) (t : Tree String) : Option State :=
  match Frame.opening? t with
  | some f => some { s with stack := f :: s.stack }
  | none =>
    if t.label = "]" || t.label = "\x7d" then
      match s.stack with
      | [] => none
      | f :: rest => (f.close t).bind fun node => give { s with stack := rest } node
    else if t.label = "," || t.label = ":" then
      match s.stack with
      | [] => none
      | f :: rest => (f.divide t).map fun f => { s with stack := f :: rest }
    else s.give t

end State

/-- The document node over the finished values. It ends where the source ends, and starts at its
first value, or at that end if it has none. -/
def document (source : List Char) (values : List (Tree String)) : Tree String :=
  let stop := Text.byteLength source
  .node "document" ⟨(values.head?.map fun t => t.span.start).getD stop, stop⟩ values

/-- The tree of a source that holds any number of JSON values; none for any other source. -/
def read (source : List Char) : Option (Tree String) :=
  match (scan 0 source).bind fun lexemes => lexemes.foldlM State.step {} with
  | some { stack := [], values } => some (document source values.reverse)
  | _ => none

/-- The JSON language with given rules. -/
def language (rules : List Rule) : Language :=
  ⟨"json", read, RuleTable.build rules⟩

end DiagramTint.Json
