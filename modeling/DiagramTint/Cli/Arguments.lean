import DiagramTint.Record

/-!
# Command-line arguments

Arguments are read from left to right. A value that stands apart from its option, like the path,
is checked only when the next argument that is understood begins or when the arguments end; an
argument that is not understood at all is therefore reported in preference to a bad value just
before it. A value attached to its option is checked at once.
-/

namespace DiagramTint.Cli

/-- What the arguments can set to a value. -/
inductive Setting where
  /-- The source file. It has no option: an argument that is no option is its value. -/
  | path
  | config
  | format
deriving DecidableEq, Inhabited

/-- Options without a value. -/
inductive Flag where
  | noConfig
  | tree
  | help
  | version
deriving DecidableEq, Inhabited

/-- An option. -/
inductive Switch where
  | setting (s : Setting)
  | flag (f : Flag)
deriving DecidableEq, Inhabited

/-- The option with a long name. -/
def Switch.ofLong? (name : String) : Option Switch :=
  match name with
  | "config" => some (.setting .config)
  | "format" => some (.setting .format)
  | "no-config" => some (.flag .noConfig)
  | "tree" => some (.flag .tree)
  | "help" => some (.flag .help)
  | "version" => some (.flag .version)
  | _ => none

/-- The option with a one-letter name. -/
def Switch.ofShort? (c : Char) : Option Switch :=
  match c with
  | 'c' => some (.setting .config)
  | 'f' => some (.setting .format)
  | 'h' => some (.flag .help)
  | 'V' => some (.flag .version)
  | _ => none

/-- Why arguments are not run. -/
inductive Stop where
  /-- A value is missing, empty or unknown. -/
  | invalidValue
  | unknownArgument
  /-- Something is given twice. -/
  | repeated
  /-- A flag has a value. -/
  | unexpectedValue
  | helpAsked
  | versionAsked
deriving DecidableEq

/-- What the arguments say. -/
structure Arguments where
  path : Option String := none
  config : Option String := none
  format : Option Format := none
  noConfig : Bool := false
  tree : Bool := false
deriving DecidableEq, Inhabited

namespace Arguments

/-- Whether a setting already has a value. -/
def isSet (a : Arguments) : Setting → Bool
  | .path => a.path.isSome
  | .config => a.config.isSome
  | .format => a.format.isSome

/-- A path must not be empty. -/
def checkPath (value : String) : Except Stop String :=
  if value.isEmpty then .error .invalidValue else .ok value

/-- A format is one of two words. -/
def checkFormat (value : String) : Except Stop Format :=
  match value with
  | "text" => .ok .text
  | "json" => .ok .json
  | _ => .error .invalidValue

/-- Gives a setting its value, which may still be missing. -/
def assign (a : Arguments) (s : Setting) (value : Option String) : Except Stop Arguments :=
  match value with
  | none => .error .invalidValue
  | some v =>
    if a.isSet s then .error .repeated
    else
      match s with
      | .path => (checkPath v).map fun v => { a with path := some v }
      | .config => (checkPath v).map fun v => { a with config := some v }
      | .format => (checkFormat v).map fun v => { a with format := some v }

/-- Raises a flag. -/
def raise (a : Arguments) : Flag → Except Stop Arguments
  | .noConfig => if a.noConfig then .error .repeated else .ok { a with noConfig := true }
  | .tree => if a.tree then .error .repeated else .ok { a with tree := true }
  | .help => .error .helpAsked
  | .version => .error .versionAsked

end Arguments

/-- Arguments that are still being read. -/
structure Reading where
  settled : Arguments := {}
  /-- A setting that has not been assigned yet, and its value unless that is still awaited. -/
  pending : Option (Setting × Option String) := none
  /-- The path has been seen, be it settled or pending. -/
  hasPath : Bool := false
  /-- All further arguments are values. -/
  literal : Bool := false

namespace Reading

/-- Assigns what is pending. -/
def settle (r : Reading) : Except Stop Reading :=
  match r.pending with
  | none => .ok r
  | some (s, value) =>
    (r.settled.assign s value).map fun a => { r with settled := a, pending := none }

/-- Reads an option whose value, if it has one, is attached. -/
def switch (r : Reading) (attached : Option String) : Switch → Except Stop Reading
  | .setting s =>
    match attached with
    | none => r.settle.map fun r => { r with pending := some (s, none) }
    | some v => do
      let r ← r.settle
      let a ← r.settled.assign s (some v)
      return { r with settled := a }
  | .flag f =>
    match attached with
    | some _ => .error .unexpectedValue
    | none => do
      let r ← r.settle
      let a ← r.settled.raise f
      return { r with settled := a }

/-- The value attached to a one-letter option, from the characters after it. An equals sign may
stand between them. -/
def attachedValue : List Char → Option String
  | [] => none
  | '=' :: cs => some (String.ofList cs)
  | cs => some (String.ofList cs)

/-- Reads one-letter options, all in one argument. The first that takes a value takes the rest. -/
def shorts (r : Reading) : List Char → Except Stop Reading
  | [] => .ok r
  | c :: cs =>
    match Switch.ofShort? c with
    | none => .error .unknownArgument
    | some (.setting s) => r.switch (attachedValue cs) (.setting s)
    | some (.flag f) =>
      match r.switch none (.flag f) with
      | .error e => .error e
      | .ok r => shorts r cs

/-- Reads an option with a long name. An equals sign divides the name from an attached value. -/
def long (r : Reading) (cs : List Char) : Except Stop Reading :=
  let name := cs.takeWhile (· ≠ '=')
  let value := (cs.dropWhile (· ≠ '=')).tail?
  match Switch.ofLong? (String.ofList name) with
  | none => .error .unknownArgument
  | some s => r.switch (value.map String.ofList) s

/-- Reads an argument that is no option: the value that is awaited, or else the path. -/
def value (r : Reading) (arg : List Char) : Except Stop Reading :=
  match r.literal, r.pending with
  | false, some (s, none) => .ok { r with pending := some (s, some (String.ofList arg)) }
  | _, _ =>
    if r.hasPath then .error .unknownArgument
    else
      r.settle.map fun r =>
        { r with pending := some (.path, some (String.ofList arg)), hasPath := true }

/-- Reads one argument. -/
def step (r : Reading) (arg : String) : Except Stop Reading :=
  let cs := arg.toList
  if r.literal then r.value cs
  else
    match cs with
    | ['-', '-'] => .ok { r with literal := true }
    | '-' :: '-' :: cs => r.long cs
    | ['-'] => r.value cs
    | '-' :: cs => r.shorts cs
    | cs => r.value cs

end Reading

/-- Reads the arguments of the program, its own name left out. -/
def Arguments.parse (args : List String) : Except Stop Arguments := do
  let r ← args.foldlM Reading.step {}
  return (← r.settle).settled

end DiagramTint.Cli
