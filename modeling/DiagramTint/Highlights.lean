import DiagramTint.Tag

/-!
# Highlights

The tags of a text, row by row: each row that has any is listed with its highlights, a highlight
being a run of character columns with one tag.
-/

namespace DiagramTint

/-- The columns from `first` up to but not including `stop` have a tag. -/
structure Highlight where
  first : Nat
  stop : Nat
  tag : Tag
deriving DecidableEq, Inhabited

namespace Highlight

/-- Whether a column lies in a highlight. -/
def covers (h : Highlight) (col : Nat) : Bool :=
  h.first ≤ col && col < h.stop

/-- The order of the highlights of a row: by first column, then by end. -/
def before (a b : Highlight) : Bool :=
  a.first < b.first || (a.first = b.first && a.stop ≤ b.stop)

/-- The tag of a column of a row whose highlights are ordered by first column: looking stops at
the first highlight that starts past the column. -/
def tagAt (col : Nat) : List Highlight → Option Tag
  | [] => none
  | h :: hs =>
    if h.covers col then some h.tag
    else if col < h.first then none
    else tagAt col hs

end Highlight

/-- The highlights of a text in one language. The rows are ascending. -/
structure Highlights where
  language : String
  lines : List (Nat × List Highlight) := []

namespace Highlights

/-- The highlights of a row. -/
def line (h : Highlights) (row : Nat) : List Highlight :=
  ((h.lines.find? fun entry => entry.1 = row).map Prod.snd).getD []

/-- The tag of a position. -/
def tagAt (h : Highlights) (row col : Nat) : Option Tag :=
  Highlight.tagAt col (h.line row)

/-- All highlights with their rows, in order. -/
def flatten (h : Highlights) : List (Nat × Highlight) :=
  h.lines.flatMap fun entry => entry.2.map fun x => (entry.1, x)

/-- The number of highlights. -/
def count (h : Highlights) : Nat :=
  h.flatten.length

/-- Puts a row in its place among ascending rows; a row already there is replaced. -/
def setLine (row : Nat) (hs : List Highlight) :
    List (Nat × List Highlight) → List (Nat × List Highlight)
  | [] => [(row, hs)]
  | entry :: rest =>
    if row < entry.1 then (row, hs) :: entry :: rest
    else if row = entry.1 then (row, hs) :: rest
    else entry :: setLine row hs rest

/-- Highlights from rows in any order. -/
def ofLines (language : String) (rows : List (Nat × List Highlight)) : Highlights :=
  ⟨language, rows.foldl (fun lines entry => setLine entry.1 entry.2 lines) []⟩

end Highlights

end DiagramTint
