import DiagramTint.Document
import DiagramTint.Text.Quoted

/-!
# Outlines

A document's tree, one line per node in pre-order: two spaces for each ancestor, the kind, the
span, and for a node without children its text in quotes.
-/

namespace DiagramTint

/-- The form `kind@start..stop` that names a node in messages. -/
def Tree.brief (t : Tree Kind) : String :=
  t.label.name ++ "@" ++ t.span.render

namespace Document

/-- The outline line of a node below `depth` ancestors. -/
def outlineLine (source : List Char) (depth : Nat) (t : Tree Kind) : List Char :=
  let text :=
    if t.children.isEmpty then
      ((Text.slice? source t.span).map fun cs => ' ' :: Text.quoted cs).getD []
    else []
  List.replicate (2 * depth) ' ' ++ t.label.name.toList ++ ' ' :: t.span.render.toList ++ text
    ++ ['\n']

/-- The outline of a document that was read from `source`. -/
def outline (source : List Char) (d : Document) : List Char :=
  (d.tree.visits []).flatMap fun (chain, t) => outlineLine source chain.length t

end Document

end DiagramTint
