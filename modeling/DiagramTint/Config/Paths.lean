import DiagramTint.PathName

/-!
# Where configurations are kept

The user's configuration is a file in a directory that the environment names.
-/

namespace DiagramTint

/-- The environment variables that matter; one that is not set is absent. -/
structure Environment where
  /-- Names the configuration directory itself. -/
  configDir : Option String := none
  /-- Names the directory that holds the configuration directories of all programs. -/
  configHome : Option String := none
  home : Option String := none
deriving DecidableEq, Inhabited

namespace Environment

/-- The value of a variable; an empty one counts as not set. -/
def set? (value : Option String) : Option String :=
  value.filter fun s => !s.isEmpty

/-- The configuration directory: the one that is named, or else one below the directory for all
configurations, or else one below the home directory. -/
def configDirectory? (env : Environment) : Option String :=
  match set? env.configDir with
  | some dir => some dir
  | none =>
    let base := (set? env.configHome).or (env.home.map fun home => PathName.join home ".config")
    base.map fun dir => PathName.join dir "diagwiz"

/-- The file that holds the user's configuration. -/
def configFile? (env : Environment) : Option String :=
  env.configDirectory?.map fun dir => PathName.join dir "config.yaml"

/-- The directory of the log files. -/
def logsDirectory? (env : Environment) : Option String :=
  env.configDirectory?.map fun dir => PathName.join dir "logs"

end Environment

end DiagramTint
