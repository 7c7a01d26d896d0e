import DiagramTint.Cli.Run

/-!
# The program

Runs the command line on the real files and the real environment.
-/

namespace DiagramTint.Cli

/-- The number of a system error, which may come with its sign turned around. -/
def errorNumber (n : UInt32) : Nat :=
  min n.toNat (0 - n).toNat

/-- What a refusal of the operating system means. -/
def errorOfSystem (e : IO.Error) : FileError :=
  match e with
  | .noFileOrDirectory .. => .notFound
  | .alreadyExists .. => .alreadyExists
  | .inappropriateType _ number details =>
    match errorNumber number with
    | 20 => .notDirectory
    | 21 => .isDirectory
    | n => .refused details n
  | .permissionDenied _ number _ => .refused "Permission denied" (errorNumber number)
  | other => .refused (toString other) 0

/-- What an action gives, or why it failed. -/
def attempt {α : Type} (action : IO α) : IO (Except FileError α) := do
  try
    return .ok (← action)
  catch e =>
    return .error (errorOfSystem e)

/-- Reads a stream to its end. -/
partial def readToEnd (stream : IO.FS.Stream) (done : ByteArray) : IO ByteArray := do
  let part ← stream.read 65536
  if part.isEmpty then return done else readToEnd stream (done ++ part)

/-- The real files, environment and standard input. -/
def Host.real : IO (Host IO) := do
  let env : Environment :=
    ⟨← IO.getEnv "DIAGWIZ_CONFIG_DIR", ← IO.getEnv "XDG_CONFIG_HOME", ← IO.getEnv "HOME"⟩
  return {
    readFile := fun path => attempt (IO.FS.readBinFile path)
    readStandardInput := do attempt (readToEnd (← IO.getStdin) .empty)
    isDirectory := fun path => do ((← IO.currentDir) / path).isDir
    configFile := env.configFile? }

end DiagramTint.Cli

open DiagramTint.Cli in
/-- Runs the program on its arguments. -/
def main (args : List String) : IO UInt32 := do
  let outcome ← run (← Host.real) args
  (← IO.getStderr).putStr (String.ofList outcome.diagnostics)
  (← IO.getStdout).putStr (String.ofList outcome.output)
  return outcome.code.toUInt32
