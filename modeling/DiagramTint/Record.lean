import DiagramTint.Highlights
import DiagramTint.Text.Lines

/-!
# Printed records

Highlights as they are shown to a reader: one record per highlight with its line and columns
counted from 1, the last column included, and the text it covers. Records are printed one per line
or as a JSON array.
-/

namespace DiagramTint

structure Record where
  line : Nat
  start : Nat
  stop : Nat
  tag : Tag
  text : List Char
deriving DecidableEq

namespace Record

/-- The record of a highlight in a text with these lines. The text of the record is cut down to
what the line has. -/
def ofHighlight (lines : List (List Char)) (row : Nat) (h : Highlight) : Record :=
  ⟨row + 1, h.first + 1, h.stop, h.tag, Text.columns (lines[row]?.getD []) h.first h.stop⟩

/-- The records of the highlights of a source, in order. -/
def ofHighlights (source : List Char) (h : Highlights) : List Record :=
  let lines := Text.printedLines source
  h.flatten.map fun entry => ofHighlight lines entry.1 entry.2

/-- The line `line:start-stop tag text`. -/
def renderText (r : Record) : List Char :=
  (toString r.line).toList ++ ':' :: (toString r.start).toList ++ '-' :: (toString r.stop).toList ++
    ' ' :: r.tag.name.toList ++ ' ' :: r.text ++ ['\n']

/-- How a character stands inside a JSON string. -/
def jsonChar (c : Char) : List Char :=
  if c = '"' then ['\\', '"']
  else if c = '\\' then ['\\', '\\']
  else if c = '\x08' then ['\\', 'b']
  else if c = '\x0c' then ['\\', 'f']
  else if c = '\n' then ['\\', 'n']
  else if c = '\r' then ['\\', 'r']
  else if c = '\t' then ['\\', 't']
  else if c.toNat < 0x20 then
    ['\\', 'u', '0', '0', Nat.digitChar (c.toNat / 16), Nat.digitChar (c.toNat % 16)]
  else [c]

/-- A JSON string. -/
def jsonString (cs : List Char) : List Char :=
  '"' :: cs.flatMap jsonChar ++ ['"']

/-- One field of a JSON object, on a line of its own. -/
def jsonField (key : String) (value : List Char) : List Char :=
  ' ' :: ' ' :: ' ' :: ' ' :: jsonString key.toList ++ ':' :: ' ' :: value

/-- A record as a JSON object. -/
def renderJson (r : Record) : List Char :=
  let fields :=
    [jsonField "line" (toString r.line).toList, jsonField "start" (toString r.start).toList,
     jsonField "end" (toString r.stop).toList, jsonField "tag" (jsonString r.tag.name.toList),
     jsonField "text" (jsonString r.text)]
  [' ', ' ', '\x7b', '\n'] ++ List.intercalate [',', '\n'] fields ++ ['\n', ' ', ' ', '\x7d']

end Record

/-- How records are printed. -/
inductive Format where
  | text
  | json
deriving DecidableEq, Inhabited

/-- The printed form of records. -/
def Format.render : Format → List Record → List Char
  | .text, rs => rs.flatMap Record.renderText
  | .json, [] => ['[', ']']
  | .json, rs =>
    ['[', '\n'] ++ List.intercalate [',', '\n'] (rs.map Record.renderJson) ++ ['\n', ']']

end DiagramTint
