import PDA.Machine.Process

/-!
# Runs one character at a time

A run that is fed its input piecemeal, so that several runs over one automaton can go on side by
side. A run that was rejected stays as it is, whatever it is fed.
-/

namespace PDA

/-- A run of `A` in progress. -/
structure Run (A : Automaton) where
  /-- The configuration reached. -/
  config : Configuration := A.initial
  /-- The steps so far, without the `final` one. -/
  trace : Array Step := #[]
  /-- Whether the run got stuck. -/
  rejected : Bool := false
  /-- The number of rules taken. -/
  stepCount : Nat := 0

namespace Run

variable {A : Automaton}

/-- A run that has not read anything. -/
def new (A : Automaton) : Run A := {}

/-- Feed a character to a run. The flag says whether the run goes on. -/
def step (run : Run A) (c : Char) : Bool × Run A :=
  if run.rejected then (false, run)
  else
    let looked := run.trace.push (.consumed run.config c)
    match A.next? run.config c with
    | some k => (true, { run with config := k, trace := looked, stepCount := run.stepCount + 1 })
    | none =>
      (false, { run with trace := looked.push (.rejected run.config c), rejected := true })

/-- Feed characters one after the other, also after a rejection. The flags are those of the single
steps. -/
def feed (run : Run A) : List Char → List Bool × Run A
  | [] => ([], run)
  | c :: cs =>
    let (flag, run) := run.step c
    let (flags, run) := run.feed cs
    (flag :: flags, run)

/-- End a run. -/
def finish (run : Run A) : Outcome :=
  if run.rejected then ⟨false, run.trace.toList⟩
  else ⟨A.Accepting run.config.state, (run.trace.push (.final run.config)).toList⟩

end Run

end PDA
