import DiagramTint.Text.Lines

/-!
# Line index

The rows of a text, found from the byte offsets at which they start. Every look-up, cut and
subtraction is checked: an offset that lies outside the text, cuts a character or comes before the
one it is counted from has no answer.
-/

namespace DiagramTint.Text

/-- The difference of two numbers, if it is not negative. -/
def minus? (a b : Nat) : Option Nat :=
  if b ≤ a then some (a - b) else none

/-- The offsets behind the line feeds of a text that starts at byte `offset`. -/
def startsAfter (offset : Nat) : List Char → List Nat
  | [] => []
  | c :: cs =>
    if c = '\n' then (offset + c.utf8Size) :: startsAfter (offset + c.utf8Size) cs
    else startsAfter (offset + c.utf8Size) cs

/-- The place of a number in an ascending list, or else the place where it would have to be put. -/
def search (xs : List Nat) (x : Nat) : Except Nat Nat :=
  let place := (xs.takeWhile (· < x)).length
  if xs[place]? = some x then .ok place else .error place

/-- The last offset up to `n` that cuts no character of a text. -/
def snap (cs : List Char) : Nat → Nat
  | 0 => 0
  | n + 1 => if (takeBytes (n + 1) cs).isSome then n + 1 else snap cs n

/-- The column of a byte offset on a line. -/
def columnOf? (line : List Char) (byte : Nat) : Option Nat :=
  (slice? line ⟨0, snap line (min byte (byteLength line))⟩).map List.length

/-- The byte at which a column of a line starts; past the end of the line that is its end. -/
def byteAt (line : List Char) (col : Nat) : Nat :=
  byteLength (line.take col)

/-- The text from column `first` up to column `stop`. -/
def columns? (line : List Char) (first stop : Nat) : Option (List Char) :=
  slice? line ⟨byteAt line first, byteAt line stop⟩

/-- A text and the offsets at which its rows start. -/
structure Index where
  source : List Char
  starts : List Nat

namespace Index

def ofText (source : List Char) : Index :=
  ⟨source, 0 :: startsAfter 0 source⟩

/-- The row of a byte offset. -/
def rowOf? (x : Index) (byte : Nat) : Option Nat :=
  match search x.starts byte with
  | .ok row => some row
  | .error next => minus? next 1

/-- Where a row ends: in front of the line feed before the next row, or at the end of the text. -/
def stop? (x : Index) (row : Nat) : Option Nat :=
  match x.starts[row + 1]? with
  | some next => minus? next 1
  | none => some (byteLength x.source)

/-- The characters of a row, without the line feed that ends it and without one carriage return at
its end. -/
def line? (x : Index) (row : Nat) : Option (List Char) := do
  let start ← x.starts[row]?
  let stop ← x.stop? row
  let line ← slice? x.source ⟨start, stop⟩
  return dropReturn line

/-- The column of a byte offset on a row. -/
def column? (x : Index) (row byte : Nat) : Option Nat := do
  let line ← x.line? row
  let start ← x.starts[row]?
  let offset ← minus? byte start
  columnOf? line offset

end Index

end DiagramTint.Text
