import DiagramTint.Config.Paths
import DiagramTint.Config.Reader
import DiagramTint.Config.Writer
import DiagramTint.FileSystem

/-!
# Stored configurations

Saving writes a valid configuration to a file and refuses any other before it touches the file
system. Loading is strict for a given file, and lenient for the user's own: whatever is wrong with
that one, the empty configuration stands in.
-/

namespace DiagramTint

/-- Why a configuration file could not be loaded. -/
inductive LoadError where
  | file (e : FileError)
  | content (e : ConfigError)

def LoadError.message : LoadError → String
  | .file e => "IO error: " ++ e.message
  | .content e => e.message

/-- Why a configuration could not be saved. -/
inductive SaveError where
  /-- The environment names no place for it. -/
  | noDirectory
  | invalid (e : InvalidSelector)
  | directory (e : FileError)
  | file (path : String) (e : FileError)
deriving DecidableEq

def SaveError.message : SaveError → String
  | .noDirectory => "No config directory available"
  | .invalid e => "Refusing to save invalid config: " ++ e.message
  | .directory e => "Failed to create config directory: " ++ e.message
  | .file path e => "Failed to write config to " ++ path ++ ": " ++ e.message

/-- Why there is no directory for log files. -/
inductive LogsError where
  /-- The environment names no place for it. -/
  | noDirectory
  | directory (path : String) (e : FileError)
deriving DecidableEq

def LogsError.message : LogsError → String
  | .noDirectory => "No config directory available"
  | .directory path e => "Failed to create " ++ path ++ ": " ++ e.message

namespace Config

/-- The configuration in what was read from a file. -/
def ofContent (content : Except FileError ByteArray) : Except LoadError Config :=
  match content.bind decodeText with
  | .error e => .error (.file e)
  | .ok text =>
    match ofYaml text with
    | .error e => .error (.content e)
    | .ok c => .ok c

/-- A configuration, or the empty one. -/
def orEmpty (loaded : Except LoadError Config) : Config :=
  match loaded with
  | .ok c => c
  | .error _ => {}

/-- Loads a configuration from a given file. -/
def loadFrom (fs : FileSystem) (path : String) : Except LoadError Config :=
  ofContent (fs.read (.parse path))

/-- The user's configuration; the empty one if there is none that can be used. -/
def load (env : Environment) (fs : FileSystem) : Config :=
  match env.configFile? with
  | none => {}
  | some path => orEmpty (loadFrom fs path)

/-- Saves a valid configuration to a given file and makes the directory for it. -/
def saveTo (fs : FileSystem) (path : String) (c : Config) : FileSystem × Except SaveError Unit :=
  match c.validate with
  | .error e => (fs, .error (.invalid e))
  | .ok () =>
    match fs.makeDirectories (PathName.parse path).parent with
    | (made, .error e) => (made, .error (.directory e))
    | (made, .ok ()) =>
      match made.write (.parse path) (encodeText c.toYaml) with
      | .error e => (made, .error (.file path e))
      | .ok written => (written, .ok ())

/-- Saves a valid configuration as the user's own. -/
def save (env : Environment) (fs : FileSystem) (c : Config) : FileSystem × Except SaveError Unit :=
  match env.configFile? with
  | none => (fs, .error .noDirectory)
  | some path => saveTo fs path c

end Config

/-- Makes the directory of the log files and answers with its path. -/
def ensureLogs (env : Environment) (fs : FileSystem) : FileSystem × Except LogsError String :=
  match env.logsDirectory? with
  | none => (fs, .error .noDirectory)
  | some path =>
    match fs.makeDirectories (.parse path) with
    | (made, .error e) => (made, .error (.directory path e))
    | (made, .ok ()) => (made, .ok path)

end DiagramTint
