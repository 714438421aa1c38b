/-
  ApiModel.Main

  The program: it reads the files that the arguments name, and prints what `CommandLine.run` says.
-/
import ApiModel.CommandLine

open ApiModel.CommandLine

/-- The text of a file, if it can be read. -/
def readFileText (path : String) : IO File := do
  try
    return ⟨path, some (← IO.FS.readFile path)⟩
  catch _ => return ⟨path, none⟩

/-- The entry point. -/
def main (arguments : List String) : IO UInt32 := do
  match readArguments arguments with
  | none =>
    IO.eprintln "usage: inspect|schema --spec FILE [--format json|yaml] [--config FILE] [--json] [--pointer POINTER] [--verbose]"
    return 2
  | some (command, spec, format, config) =>
    let spec ← readFileText spec
    let config ← config.mapM readFileText
    let outcome := run ⟨command, spec, format, config⟩
    IO.print outcome.stdout
    IO.eprint outcome.stderr
    return outcome.code.toUInt32
