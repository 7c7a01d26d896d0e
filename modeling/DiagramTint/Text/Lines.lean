import DiagramTint.Text.Bytes
import DiagramTint.Text.Blank

/-!
# Lines

Two views of a text as lines. `lines` gives every row that a byte offset can fall on, with the
offset at which it starts and its characters without the line terminator. `printedLines` gives the
rows that are shown to a reader, where an empty row after the last line feed does not count.
-/

namespace DiagramTint.Text

/-- A row of a text: the byte offset of its first character and its characters, without the line
feed that ends it and without one carriage return at its end. -/
structure Line where
  start : Nat
  chars : List Char
deriving DecidableEq, Inhabited

/-- Drops one carriage return at the end. -/
def dropReturn (cs : List Char) : List Char :=
  if cs.getLast? = some '\r' then cs.dropLast else cs

/-- Rows as cut at the line feeds, the first of which starts at byte `start`. -/
def linesFrom (start : Nat) : List (List Char) → List Line
  | [] => []
  | row :: rows => ⟨start, dropReturn row⟩ :: linesFrom (start + byteLength row + 1) rows

/-- All rows of a text; there is one more than there are line feeds. -/
def lines (cs : List Char) : List Line :=
  linesFrom 0 (splitWhere (· == '\n') cs)

/-- The row of a byte offset: how many later rows start at or before it. -/
def rowOf (rows : List Line) (byte : Nat) : Nat :=
  (rows.filter fun line => line.start ≤ byte).length - 1

/-- How many of the characters end within the first `n` bytes. -/
def charsWithin : Nat → List Char → Nat
  | _, [] => 0
  | n, c :: cs => if c.utf8Size ≤ n then charsWithin (n - c.utf8Size) cs + 1 else 0

/-- The character column of a byte offset on a line. Past the end of the line it is the length of
the line, inside a character the column of that character. -/
def Line.column (line : Line) (byte : Nat) : Nat :=
  charsWithin (byte - line.start) line.chars

/-- The rows shown to a reader. A carriage return is dropped only in front of a line feed, and
nothing follows a line feed that ends the text. -/
def printedLines (cs : List Char) : List (List Char) :=
  let rows := splitWhere (· == '\n') cs
  let last := (rows.getLast?).getD []
  rows.dropLast.map dropReturn ++ (if last.isEmpty then [] else [last])

/-- The characters from column `first` up to column `stop`, as far as the line has them. -/
def columns (line : List Char) (first stop : Nat) : List Char :=
  (line.take stop).drop first

end DiagramTint.Text
