import PDA.CommandLine.Report

/-!
# The command line

Reads the arguments and the file that they name, and prints the report.
-/

namespace PDA.CommandLine

open Format

/-- The text of the file at a path. -/
def readText (path : String) : IO (Except ReadError String) := do
  try
    return decodeText (← IO.FS.readBinFile path)
  catch
    | .noFileOrDirectory .. => return .error .notFound
    | .inappropriateType _ 21 _ => return .error .isDirectory
    | .inappropriateType .. => return .error .notDirectory
    | .invalidArgument .. => return .error .nameTooLong
    | e => return .error (.other (toString e))

/-- Print the report for a command line; the result is the exit code. -/
def run (args : List String) : IO UInt32 := do
  match Arguments.parse args with
  | .error e =>
    IO.eprint ("error: " ++ e.message ++ "\n")
    return 2
  | .ok args =>
    let answer := report args (← readText args.config)
    IO.eprint answer.stderr
    IO.print answer.stdout
    return answer.exit.toUInt32

end PDA.CommandLine

/-- Run the command line. -/
def main (args : List String) : IO UInt32 := PDA.CommandLine.run args
