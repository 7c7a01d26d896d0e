import DiagramTint.Highlights.Paint
import DiagramTint.Record
import DiagramTint.Text.Index

/-!
# Painting and printing with every step checked

The highlights of a tree and the records of highlights, computed from the byte offsets at which the
rows of the text start. There is no result if any look-up, cut or subtraction on the way has none.
-/

namespace DiagramTint

namespace Highlights

/-- Adds a highlight at the end of a row among ascending rows. -/
def addTo (row : Nat) (h : Highlight) :
    List (Nat × List Highlight) → List (Nat × List Highlight)
  | [] => [(row, [h])]
  | entry :: rest =>
    if row < entry.1 then (row, [h]) :: entry :: rest
    else if row = entry.1 then (row, entry.2 ++ [h]) :: rest
    else entry :: addTo row h rest

/-- Adds a highlight unless it covers no column. -/
def push (lines : List (Nat × List Highlight)) (item : Nat × Highlight) :
    List (Nat × List Highlight) :=
  if item.2.first < item.2.stop then addTo item.1 item.2 lines else lines

end Highlights

namespace Paint

/-- The columns of a piece that stands on a single row. -/
def onRow? (x : Text.Index) (p : Piece) (row : Nat) : Option (Nat × Highlight) := do
  let first ← x.column? row p.span.start
  let stop ← x.column? row p.span.stop
  return (row, ⟨first, stop, p.tag⟩)

/-- The columns, on one of its rows, of a piece that starts on row `top` and ends below it, on row
`bottom`. -/
def acrossRow? (x : Text.Index) (p : Piece) (top bottom row : Nat) : Option (Nat × Highlight) := do
  let line ← x.line? row
  if row = top then
    let first ← x.column? row p.span.start
    return (row, ⟨first, line.length, p.tag⟩)
  else if row = bottom then
    let stop ← x.column? row p.span.stop
    return (row, ⟨0, stop, p.tag⟩)
  else return (row, ⟨0, line.length, p.tag⟩)

/-- The columns of a piece on every row from its first to its last. -/
def rowsOf? (x : Text.Index) (p : Piece) : Option (List (Nat × Highlight)) := do
  let top ← x.rowOf? p.span.start
  let bottom ← x.rowOf? p.span.stop
  if top = bottom then
    let item ← onRow? x p top
    return [item]
  else (List.range' top (bottom + 1 - top)).mapM (acrossRow? x p top bottom)

end Paint

/-- The highlights that a rule table gives to the tree of a source. -/
def paint? (language : String) (table : RuleTable) (source : List Char) (tree : Tree String) :
    Option Highlights := do
  let pieces := Paint.walk table.resolve (Text.byteLength source) [.enter [] none tree]
  let items ← (Paint.joinAll pieces).mapM (Paint.rowsOf? (Text.Index.ofText source))
  let lines := items.flatten.foldl Highlights.push []
  return ⟨language, lines.map fun entry => (entry.1, entry.2.mergeSort Highlight.before)⟩

namespace Record

/-- The record of a highlight in a text with these lines. -/
def ofHighlight? (lines : List (List Char)) (row : Nat) (h : Highlight) : Option Record := do
  let text ←
    match lines[row]? with
    | some line => Text.columns? line h.first h.stop
    | none => some []
  return ⟨row + 1, h.first + 1, h.stop, h.tag, text⟩

/-- The records of the highlights of a source, in order. -/
def ofHighlights? (source : List Char) (h : Highlights) : Option (List Record) :=
  h.flatten.mapM fun entry => ofHighlight? (Text.printedLines source) entry.1 entry.2

end Record

end DiagramTint
