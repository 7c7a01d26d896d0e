import DiagramTint.PathName

/-!
# File systems

A file system holds files and directories at places, a place being the list of names that leads to
it from the root. The operations resolve a path part by part, and all but the last part must lead
to directories.
-/

namespace DiagramTint

/-- Why an operation on files failed. -/
inductive FileError where
  | notFound
  | alreadyExists
  | notDirectory
  | isDirectory
  /-- The content is no UTF-8 text. -/
  | notText
  /-- Any other refusal of the operating system, with its number. -/
  | refused (description : String) (number : Nat)
deriving DecidableEq

namespace FileError

/-- A refusal of the operating system, with its number. -/
def systemMessage (description : String) (number : Nat) : String :=
  description ++ " (os error " ++ toString number ++ ")"

def message : FileError → String
  | .notFound => systemMessage "No such file or directory" 2
  | .alreadyExists => systemMessage "File exists" 17
  | .notDirectory => systemMessage "Not a directory" 20
  | .isDirectory => systemMessage "Is a directory" 21
  | .notText => "stream did not contain valid UTF-8"
  | .refused description number => systemMessage description number

end FileError

/-- What can stand at a place. -/
inductive Entry where
  | file (content : ByteArray)
  | directory

/-- The names that lead to an entry from the root. -/
abbrev Place := List String

/-- Entries at places, the latest first, and the directory in which relative paths start. -/
structure FileSystem where
  entries : List (Place × Entry) := []
  current : Place := []

namespace FileSystem

/-- What stands at a place. The root is always a directory. -/
def entry? (fs : FileSystem) : Place → Option Entry
  | [] => some .directory
  | place => fs.entries.lookup place

/-- Puts an entry at a place. -/
def put (fs : FileSystem) (place : Place) (entry : Entry) : FileSystem :=
  { fs with entries := (place, entry) :: fs.entries }

/-- The place that one part of a path leads to from a place, which must be a directory. -/
def enter (fs : FileSystem) (place : Place) (part : String) : Except FileError Place :=
  match fs.entry? place with
  | none => .error .notFound
  | some (.file _) => .error .notDirectory
  | some .directory => .ok (if part = ".." then place.dropLast else place ++ [part])

/-- Where a path starts. -/
def origin (fs : FileSystem) (path : PathName) : Place :=
  if path.absolute then [] else fs.current

/-- The place that a path names, whether or not something stands there. -/
def locate (fs : FileSystem) (path : PathName) : Except FileError Place :=
  path.parts.foldlM fs.enter (fs.origin path)

/-- The content of a file. -/
def read (fs : FileSystem) (path : PathName) : Except FileError ByteArray :=
  match fs.locate path with
  | .error e => .error e
  | .ok place =>
    match fs.entry? place with
    | none => .error .notFound
    | some .directory => .error .isDirectory
    | some (.file content) => if path.namesDirectory then .error .notDirectory else .ok content

/-- Whether a path leads to a directory. -/
def isDirectory (fs : FileSystem) (path : PathName) : Bool :=
  match fs.locate path with
  | .error _ => false
  | .ok place =>
    match fs.entry? place with
    | some .directory => true
    | _ => false

/-- Writes a file, in the place of a file that is already there. -/
def write (fs : FileSystem) (path : PathName) (content : ByteArray) :
    Except FileError FileSystem :=
  match fs.locate path with
  | .error e => .error e
  | .ok place =>
    if path.namesDirectory then .error .isDirectory
    else
      match fs.entry? place with
      | some .directory => .error .isDirectory
      | _ => .ok (fs.put place (.file content))

/-- Makes the directories that lead from a place along `parts`, as far as they are missing. What
was made stays, also if a later part is refused. -/
def makeAlong (fs : FileSystem) (place : Place) : List String → FileSystem × Except FileError Unit
  | [] => (fs, .ok ())
  | part :: parts =>
    match fs.enter place part with
    | .error e => (fs, .error e)
    | .ok next =>
      match fs.entry? next with
      | none => makeAlong (fs.put next .directory) next parts
      | some .directory => makeAlong fs next parts
      | some (.file _) => (fs, .error (if parts.isEmpty then .alreadyExists else .notDirectory))

/-- Makes a directory and all directories above it that are missing. -/
def makeDirectories (fs : FileSystem) (path : PathName) : FileSystem × Except FileError Unit :=
  fs.makeAlong (fs.origin path) path.parts

end FileSystem

/-- The text of a file's content. -/
def decodeText (content : ByteArray) : Except FileError (List Char) :=
  match String.fromUTF8? content with
  | none => .error .notText
  | some text => .ok text.toList

/-- The content of a file with a given text. -/
def encodeText (text : List Char) : ByteArray :=
  (String.ofList text).toUTF8

theorem decodeText_encodeText (text : List Char) : decodeText (encodeText text) = .ok text := by
  have h : String.fromUTF8? (String.ofList text).toUTF8 = some (String.ofList text) := by
    simp only [String.fromUTF8?, String.toUTF8_eq_toByteArray,
      dif_pos (String.ofList text).isValidUTF8]
    rfl
  rw [decodeText, encodeText, h]
  simp

end DiagramTint
