import OnePass.Cli

/-!
# OnePass.Main

The program: reads the arguments and the file, and writes what `Cli.run` comes to.
-/

namespace OnePass.Cli

/-- The bytes of a file. -/
def readFile (name : String) : IO (Except Unreadable (List UInt8)) := do
  try
    return .ok (← IO.FS.readBinFile name).toList
  catch
    | .noFileOrDirectory .. => return .error .missing
    | e => return .error ⟨toString e⟩

/-- Where a log is kept. -/
def logFile : String := "onepass.log"

/-- Note what was run, and how it ended. -/
def writeLog (args : List String) (exit : UInt32) : IO Unit :=
  IO.FS.writeFile logFile s!"arguments: {args}\nexit code: {exit}\n"

end OnePass.Cli

open OnePass.Cli in
def main (args : List String) : IO UInt32 := do
  match Options.ofArgs? args with
  | none =>
    IO.eprintln usage
    return 2
  | some options =>
    let outcome := run options (← readFile options.fileName)
    if options.log then writeLog args outcome.exit
    IO.print outcome.stdout
    IO.eprint outcome.stderr
    return outcome.exit
