import DiagramTint.Cli.Arguments

/-!
# Requests

What a run of the program is to do, once the arguments have been found to fit together.
-/

namespace DiagramTint.Cli

/-- Where the source comes from. -/
inductive Input where
  | standard
  | file (path : String)
deriving DecidableEq, Inhabited

/-- Which rules are used after the built-in ones. -/
inductive ConfigSource where
  | builtinOnly
  /-- The user's own configuration, as far as it can be used. -/
  | user
  /-- A given file, which must load. -/
  | file (path : String)
deriving DecidableEq, Inhabited

/-- What is printed. -/
inductive Output where
  | records (format : Format)
  | tree
deriving DecidableEq, Inhabited

structure Request where
  input : Input
  config : ConfigSource
  output : Output
deriving DecidableEq, Inhabited

/-- Why arguments do not fit together. -/
inductive RequestError where
  | contradictoryConfig
  | directory (path : String)
deriving DecidableEq

def RequestError.message : RequestError → String
  | .contradictoryConfig => "--config and --no-config cannot be used together"
  | .directory path => path ++ " is a directory"

namespace Arguments

/-- The rules that the arguments ask for. -/
def configSource (a : Arguments) : Except RequestError ConfigSource :=
  match a.config, a.noConfig with
  | some _, true => .error .contradictoryConfig
  | some path, false => .ok (.file path)
  | none, true => .ok .builtinOnly
  | none, false => .ok .user

/-- The source that the arguments ask for; the path `-` stands for the standard input. -/
def input (a : Arguments) (isDirectory : Bool) : Except RequestError Input :=
  match a.path with
  | none => .ok .standard
  | some path =>
    if path = "-" then .ok .standard
    else if isDirectory then .error (.directory path)
    else .ok (.file path)

/-- The request that the arguments stand for, where `isDirectory` says whether their path leads to
a directory. -/
def request (a : Arguments) (isDirectory : Bool) : Except RequestError Request := do
  let config ← a.configSource
  let input ← a.input isDirectory
  return ⟨input, config, if a.tree then .tree else .records (a.format.getD .text)⟩

end Arguments

end DiagramTint.Cli
