import DiagramTint.Cli.Request
import DiagramTint.Config.Store
import DiagramTint.Document.Outline
import DiagramTint.Language

/-!
# Runs of the program

A run goes from the arguments to what is printed and the exit code. It meets the outside world
through a `Host` only, which can be a file system held in memory as well as the real one.
-/

namespace DiagramTint.Cli

/-- What a run needs from its surroundings. -/
structure Host (m : Type → Type) where
  readFile : String → m (Except FileError ByteArray)
  readStandardInput : m (Except FileError ByteArray)
  isDirectory : String → m Bool
  /-- The file that holds the user's configuration. -/
  configFile : Option String

/-- A host with its files in memory. -/
def Host.ofFileSystem (env : Environment) (fs : FileSystem) (standardInput : ByteArray) :
    Host Id where
  readFile path := fs.read (.parse path)
  readStandardInput := .ok standardInput
  isDirectory path := fs.isDirectory (.parse path)
  configFile := env.configFile?

/-- What a run prints, and its exit code. -/
structure Outcome where
  code : Nat
  output : List Char := []
  diagnostics : List Char := []

/-- Why a run failed: what was being done, and the cause if that does not say it all. -/
structure Failure where
  context : String
  cause : Option String := none

/-- The report of a failure. The lines of the cause are indented. -/
def Failure.report (f : Failure) : List Char :=
  let cause :=
    match f.cause with
    | none => []
    | some cause =>
      "\nCaused by:\n    ".toList ++
        cause.toList.flatMap (fun c => if c = '\n' then "\n    ".toList else [c]) ++ ['\n']
  "Error: ".toList ++ f.context.toList ++ '\n' :: cause

/-- The name of the program. -/
def programName : String := "diagwiz-highlight"

/-- The version of the program. -/
def version : String := "0.1.0"

/-- How the program is used. -/
def usage : String :=
  "Print highlight tags for a diagwiz source\n\n" ++
  "Usage: " ++ programName ++ " [OPTIONS] [FILE]\n\n" ++
  "Arguments:\n" ++
  "  [FILE]  Source file to highlight (reads stdin if omitted or `-`)\n\n" ++
  "Options:\n" ++
  "  -c, --config <PATH>    Load tag rules from this config file instead of the user config\n" ++
  "      --no-config        Use only the built-in tag rules\n" ++
  "  -f, --format <FORMAT>  Output format for highlight tokens [default: text] " ++
  "[possible values: text, json]\n" ++
  "      --tree             Print the syntax tree instead of highlight tokens\n" ++
  "  -h, --help             Print help\n" ++
  "  -V, --version          Print version\n"

/-- What is wrong with arguments that were not understood. -/
def Stop.message : Stop → String
  | .invalidValue => "a value is missing or invalid"
  | .unknownArgument => "unexpected argument found"
  | .repeated => "an argument cannot be used multiple times"
  | .unexpectedValue => "unexpected value for a flag"
  | .helpAsked => "help was asked for"
  | .versionAsked => "the version was asked for"

/-- The outcome of arguments that ask for no run. -/
def Stop.outcome : Stop → Outcome
  | .helpAsked => { code := 0, output := usage.toList }
  | .versionAsked => { code := 0, output := (programName ++ " " ++ version ++ "\n").toList }
  | e => { code := 2, diagnostics := ("error: " ++ e.message ++ "\n\n" ++ usage).toList }

/-- A list of lines, each of them ended. -/
def lines (ls : List String) : List Char :=
  ls.flatMap fun l => l.toList ++ ['\n']

/-- What is printed about a source under a configuration. -/
def render (output : Output) (config : Config) (source : List Char) : Outcome :=
  let language := Diagram.language config.tagRules
  let document := Document.parse source
  { code := 0
    output :=
      match output with
      | .tree => document.outline source
      | .records format =>
        format.render (Record.ofHighlights source (language.highlight source)) ++
          (if format = .json then ['\n'] else [])
    diagnostics :=
      lines (language.rules.warnings.map fun w => "warning: " ++ w.render) ++
        lines (document.diagnostics.map Diagnostic.render) }

section

variable {m : Type → Type} [Monad m] (host : Host m)

/-- The text of the source. -/
def readSource (input : Input) : m (Except Failure (List Char)) := do
  match input with
  | .standard =>
    match (← host.readStandardInput).bind decodeText with
    | .ok text => return .ok text
    | .error e => return .error ⟨"Failed to read stdin", some e.message⟩
  | .file path =>
    match (← host.readFile path).bind decodeText with
    | .ok text => return .ok text
    | .error e => return .error ⟨"Failed to read " ++ path, some e.message⟩

/-- The configuration. -/
def readConfig (source : ConfigSource) : m (Except Failure Config) := do
  match source with
  | .builtinOnly => return .ok {}
  | .user =>
    match host.configFile with
    | none => return .ok {}
    | some path => return .ok (Config.orEmpty (Config.ofContent (← host.readFile path)))
  | .file path =>
    match Config.ofContent (← host.readFile path) with
    | .ok config => return .ok config
    | .error e => return .error ⟨"Failed to load config " ++ path, some e.message⟩

/-- Does what a request asks for: the source is read first, then the configuration. -/
def Request.run (r : Request) : m (Except Failure Outcome) := do
  match ← readSource host r.input with
  | .error f => return .error f
  | .ok source =>
    match ← readConfig host r.config with
    | .error f => return .error f
    | .ok config => return .ok (render r.output config source)

/-- Runs the program. -/
def run (args : List String) : m Outcome := do
  match Arguments.parse args with
  | .error stop => return stop.outcome
  | .ok a =>
    let isDirectory ←
      match a.path with
      | none => pure false
      | some path => host.isDirectory path
    match a.request isDirectory with
    | .error e => return { code := 1, diagnostics := Failure.report ⟨e.message, none⟩ }
    | .ok request =>
      match ← request.run host with
      | .error f => return { code := 1, diagnostics := f.report }
      | .ok outcome => return outcome

end

end DiagramTint.Cli
