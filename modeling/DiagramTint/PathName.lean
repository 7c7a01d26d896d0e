import DiagramTint.Text.Blank

/-!
# Paths

A path is a text whose parts are divided by slashes. Empty parts and the part `.` stay where they
are, the part `..` leads up; nothing is shortened in the text itself.
-/

namespace DiagramTint

/-- A path taken apart. -/
structure PathName where
  /-- Starts at the root and not in the working directory. -/
  absolute : Bool
  parts : List String
  /-- Ends in a slash or in the part `.`, and so can only name a directory. -/
  namesDirectory : Bool
deriving DecidableEq, Inhabited

namespace PathName

/-- Takes a path apart. -/
def parse (text : String) : PathName :=
  let pieces := Text.splitWhere (· == '/') text.toList
  let stays : List Char → Bool := fun piece => piece = [] || piece = ['.']
  { absolute := text.toList.head? = some '/'
    parts := (pieces.filter fun piece => !stays piece).map String.ofList
    namesDirectory := (pieces.getLast?.map stays).getD true }

/-- The path of the directory that holds the last part. -/
def parent (p : PathName) : PathName :=
  { p with parts := p.parts.dropLast, namesDirectory := true }

/-- The path text of `name` inside the directory `base`; an absolute name stands for itself. -/
def join (base name : String) : String :=
  if name.toList.head? = some '/' then name
  else if base.isEmpty || base.toList.getLast? = some '/' then base ++ name
  else base ++ "/" ++ name

end PathName

end DiagramTint
