import PDA.Automaton.Issue
import PDA.CommandLine.Arguments
import PDA.Format.Diagnostic
import PDA.Format.File
import PDA.Format.Save
import PDA.Machine.Process
import PDA.Sampling.Input
import PDA.Sampling.Xoshiro

/-!
# The report of the command line

What the command line prints, as a function of its arguments and of the text of the file: one block
for every input, first those that are given and then the random ones. The exit code says only
whether the automaton could be loaded.
-/

namespace PDA.CommandLine

open Format Sampling

/-- What a run of the command line leaves behind. -/
@[ext]
structure Report where
  /-- The exit code. -/
  exit : UInt8
  /-- What is printed. -/
  stdout : String := ""
  /-- What is printed to the error channel. -/
  stderr : String := ""
  deriving DecidableEq

/-- The inputs that are tested if none are given. -/
def defaultInputs : List String :=
  ["1*(4+6)$", "4+3$", "5*(1+2)$", "1+4*7$", "(9+1)(2-5)$", "4$", "*7*(8+9)$", "1/(5+5)$",
    "(1+4)/(7+9)$", "9+1$"]

/-- The inputs that the arguments name. -/
def Arguments.namedInputs (args : Arguments) : List String :=
  if args.inputs.isEmpty then defaultInputs else args.inputs

/-- Random inputs of one to eight letters, followed by `extra`. There are fewer than `count` only if
the automaton has no letters, and then there are none. -/
def drawInputs {γ : Type} [Source γ] (A : Automaton) (extra : String) :
    (count : Nat) → γ → List String
  | 0, _ => []
  | count + 1, g =>
    let (length, g) := drawBetween 1 8 g
    match A.randomInput length extra g with
    | (some input, g) => input :: drawInputs A extra count g
    | (none, _) => []

/-- The random inputs that the arguments ask for. -/
def Arguments.randomInputs (args : Arguments) (A : Automaton) : List String :=
  drawInputs A args.endMarker args.random (Xoshiro.ofSeed args.seed)

/-- All inputs that are tested, in order. -/
def Arguments.testedInputs (args : Arguments) (A : Automaton) : List String :=
  args.namedInputs ++ args.randomInputs A

/-! ## What is printed -/

/-- The automaton and its issues. -/
def preamble (args : Arguments) (A : Automaton) : String :=
  "Loaded: " ++ args.config ++ "\n" ++ save args.epsilon A ++
    String.join (A.issues.map fun issue => "note: " ++ issue.message ++ "\n") ++ "\n"

/-- The line above the blocks. -/
def header : String := "\nTesting multiple expressions:\n"

/-- A trace with a line feed after every step. -/
def traceLines (trace : List Step) : String := String.join (trace.map fun s => s.render ++ "\n")

/-- The word for a verdict. -/
def verdict (accepted : Bool) : String := if accepted then "Accepted" else "Rejected"

/-- The block of one input. -/
def block (A : Automaton) (verbose : Bool) (input : String) : String :=
  let outcome := A.process input
  "\nTesting: " ++ input ++ "\nResult: " ++ verdict outcome.accepted ++ "\n" ++
    (if outcome.accepted || verbose then "Trace:\n" ++ traceLines outcome.trace else "")

/-- What is printed about a loaded automaton. -/
def body (args : Arguments) (A : Automaton) : String :=
  (if args.verbose then preamble args A else "") ++ header ++
    String.join ((args.testedInputs A).map (block A args.verbose))

/-- The complaint about random inputs that could not be drawn. -/
def complaint (args : Arguments) (A : Automaton) : String :=
  if (args.randomInputs A).length < args.random then
    "Input alphabet has no single character symbols.\n"
  else ""

/-- The report for arguments and the text of the file that they name. -/
def report (args : Arguments) (file : Except ReadError String) : Report :=
  match file with
  | .error reason =>
    { exit := 1, stderr := "Failed to load " ++ args.config ++ ": " ++ reason.message ++ "\n" }
  | .ok text =>
    match load args.epsilon text with
    | .error faults =>
      { exit := 1, stderr := renderDiagnostics args.config text (faults.map Fault.diagnostic) }
    | .ok loaded =>
      let warnings :=
        if args.verbose then
          renderDiagnostics args.config text (loaded.notices.map Notice.diagnostic)
        else ""
      { exit := 0
        stdout := body args loaded.automaton
        stderr := warnings ++ complaint args loaded.automaton }

end PDA.CommandLine
