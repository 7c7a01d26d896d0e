import DiagramTint.Language

/-!
# File types

What an editor needs to know about a language: what it is called, which file names belong to it and
how its line comments start.
-/

namespace DiagramTint

structure FileType where
  displayName : String
  extensions : List String
  lineComment : Option String

namespace FileType

/-- The last part of a path, if it names a file: slashes and `.` parts at the end do not count, and
`..` is no file name. -/
def fileName? (path : List Char) : Option (List Char) :=
  let parts := (Text.splitWhere (· == '/') path).filter fun part => part ≠ [] ∧ part ≠ ['.']
  match parts.getLast? with
  | none => none
  | some name => if name = ['.', '.'] then none else some name

/-- What follows the last dot of a file name. A dot at the very start divides nothing. -/
def extension? (path : List Char) : Option (List Char) :=
  match fileName? path with
  | none => none
  | some name =>
    let after := name.reverse.takeWhile (· ≠ '.')
    if after.length + 1 < name.length then some after.reverse else none

/-- Whether an extension belongs to the type, whatever the case of its letters. Only ASCII letters
are mapped: the extensions are made of some of these, and no other letter has one of them as its
small form. -/
def hasExtension (f : FileType) (extension : List Char) : Bool :=
  f.extensions.any fun e => e.toList = extension.map Char.toLower

/-- Whether a file with this path belongs to the type. -/
def matchesPath (f : FileType) (path : List Char) : Bool :=
  ((extension? path).map f.hasExtension).getD false

end FileType

/-- Files of the diagram language. -/
def Diagram.fileType : FileType :=
  ⟨"Diagwiz", ["diag", "diagwiz"], some "//"⟩

end DiagramTint
