import PDA.Proofs.CommandLine.Report

/-!
# The command line as a program

A program that prints line by line, exits as soon as the file turns out not to be a definition, and collects
the random inputs in a loop before it tests the first input. What it leaves behind is the report
(`leaves_runCommand`).
-/

namespace PDA.CommandLine

open Text Format Sampling

/-! ## Programs that print and may exit -/

/-- What has been printed so far. -/
structure Console where
  /-- What is printed. -/
  stdout : String := ""
  /-- What is printed to the error channel. -/
  stderr : String := ""

/-- A program that prints, and may exit with a code before it has a result. -/
abbrev Program (α : Type) := ExceptT UInt8 (StateM Console) α

/-- Print a text. -/
def print (text : String) : Program Unit :=
  modify fun console => { console with stdout := console.stdout ++ text }

/-- Print a text to the error channel. -/
def printError (text : String) : Program Unit :=
  modify fun console => { console with stderr := console.stderr ++ text }

/-- Exit with a code. -/
def quit {α : Type} (code : UInt8) : Program α := throw code

/-- What a program leaves behind that starts with nothing printed; one that does not exit before it ends
exits with code 0 then. -/
def Program.leaves (program : Program Unit) : Report :=
  match program.run.run {} with
  | (.ok (), console) => ⟨0, console.stdout, console.stderr⟩
  | (.error code, console) => ⟨code, console.stdout, console.stderr⟩

/-- The program ends like this, having added these texts to what was printed before. -/
def Ends {α : Type} (program : Program α) (result : Except UInt8 α) (out err : String) : Prop :=
  ∀ console, program.run.run console = (result, ⟨console.stdout ++ out, console.stderr ++ err⟩)

section Ends

variable {α β : Type} {p : Program α} {f : α → Program β} {a : α} {result : Except UInt8 β}
  {out out' err err' : String} {code : UInt8}

theorem ends_pure (a : α) : Ends (pure a) (.ok a) "" "" := by
  intro console
  rw [String.append_empty, String.append_empty]
  rfl

theorem ends_print (text : String) : Ends (print text) (.ok ()) text "" := by
  intro console
  rw [String.append_empty]
  rfl

theorem ends_printError (text : String) : Ends (printError text) (.ok ()) "" text := by
  intro console
  rw [String.append_empty]
  rfl

theorem ends_quit (code : UInt8) : Ends (quit code : Program α) (.error code) "" "" := by
  intro console
  rw [String.append_empty, String.append_empty]
  rfl

/-- Two parts of a program, one after the other, print the output of the first and then that of the second. -/
theorem Ends.bind (hp : Ends p (.ok a) out err) (hf : Ends (f a) result out' err') :
    Ends (p >>= f) result (out ++ out') (err ++ err') := by
  intro console
  rw [ExceptT.run_bind, StateT.run_bind, hp console]
  refine (hf _).trans ?_
  rw [String.append_assoc, String.append_assoc]

/-- Nothing comes after an exit. -/
theorem Ends.exit (hp : Ends p (.error code) out err) (f : α → Program β) :
    Ends (p >>= f) (.error code) out err := by
  intro console
  rw [ExceptT.run_bind, StateT.run_bind, hp console]
  rfl

theorem Ends.seq {p : Program Unit} {q : Program β} (hp : Ends p (.ok ()) out err)
    (hq : Ends q result out' err') : Ends (do p; q) result (out ++ out') (err ++ err') :=
  Ends.bind (f := fun _ => q) hp hq

theorem Ends.after_print {q : Program β} (hq : Ends q result out err) (text : String) :
    Ends (do print text; q) result (text ++ out) err := by
  have h := (ends_print text).seq hq
  rwa [String.empty_append] at h

/-- What comes before a part that prints nothing is all that is printed. -/
theorem Ends.before_silence {p : Program Unit} {q : Program β} (hp : Ends p (.ok ()) out err)
    (hq : Ends q result "" "") : Ends (do p; q) result out err := by
  have h := hp.seq hq
  rwa [String.append_empty, String.append_empty] at h

/-- A loop prints the output of each round, in order. -/
theorem Ends.forM {g : α → Program Unit} {o e : α → String}
    (h : ∀ a, Ends (g a) (.ok ()) (o a) (e a)) (as : List α) :
    Ends (as.forM g) (.ok ()) (String.join (as.map o)) (String.join (as.map e)) := by
  induction as with
  | nil => exact ends_pure ()
  | cons a as ih =>
    rw [List.map_cons, List.map_cons, String.join_cons, String.join_cons]
    exact (h a).seq ih

theorem join_map_empty (as : List α) : String.join (as.map fun _ => "") = "" := by
  induction as with
  | nil => rfl
  | cons a as ih => rw [List.map_cons, String.join_cons, ih, String.append_empty]

theorem Ends.forM_stdout {g : α → Program Unit} {o : α → String} (h : ∀ a, Ends (g a) (.ok ()) (o a) "")
    (as : List α) : Ends (as.forM g) (.ok ()) (String.join (as.map o)) "" := by
  have hloop := Ends.forM h as
  rwa [join_map_empty] at hloop

theorem Ends.forM_stderr {g : α → Program Unit} {e : α → String} (h : ∀ a, Ends (g a) (.ok ()) "" (e a))
    (as : List α) : Ends (as.forM g) (.ok ()) "" (String.join (as.map e)) := by
  have hloop := Ends.forM h as
  rwa [join_map_empty] at hloop

/-- A program that comes to its end exits with 0. -/
theorem Ends.leaves_ok {p : Program Unit} (h : Ends p (.ok ()) out err) : p.leaves = ⟨0, out, err⟩ := by
  rw [Program.leaves, h]
  simp only [String.empty_append]

/-- A program that quits exits with its code, and keeps what it printed before. -/
theorem Ends.leaves_error {p : Program Unit} (h : Ends p (.error code) out err) :
    p.leaves = ⟨code, out, err⟩ := by
  rw [Program.leaves, h]
  simp only [String.empty_append]

end Ends

/-! ## The program -/

/-- The text of the file. -/
def readSource (args : Arguments) (file : Except ReadError ByteArray) : Program String :=
  match file.bind decodeText with
  | .ok text => pure text
  | .error reason => do
    printError ("Failed to load " ++ args.config ++ ": " ++ reason.message ++ "\n")
    quit 1

/-- The automaton that the text defines. -/
def loadSource (args : Arguments) (text : String) : Program Automaton :=
  match load args.epsilon text with
  | .ok loaded => do
    if args.verbose then
      loaded.notices.forM fun notice =>
        printError (notice.diagnostic.render args.config (Line.ofText text.toList))
    pure loaded.automaton
  | .error faults => do
    faults.forM fun fault =>
      printError (fault.diagnostic.render args.config (Line.ofText text.toList))
    quit 1

/-- Print the automaton and its issues, if more is asked for. -/
def printAutomaton (args : Arguments) (A : Automaton) : Program Unit := do
  if args.verbose then
    print ("Loaded: " ++ args.config ++ "\n")
    print (save args.epsilon A)
    A.issues.forM fun issue => print ("note: " ++ issue.message ++ "\n")
    print "\n"

/-- Draw random inputs and put each of them behind those that are there. -/
def pushRandom {γ : Type} [Source γ] (A : Automaton) (extra : String) :
    (count : Nat) → γ → (inputs : List String) → Program (List String)
  | 0, _, inputs => pure inputs
  | count + 1, g, inputs =>
    let (length, g) := drawBetween 1 8 g
    match A.randomInput length extra g with
    | (some input, g) => pushRandom A extra count g (inputs ++ [input])
    | (none, _) => do
      printError "Input alphabet has no single character symbols.\n"
      pure inputs

/-- Print the steps of a run. -/
def printTrace (trace : List Step) : Program Unit := trace.forM fun s => print (s.render ++ "\n")

/-- Test an input. -/
def testInput (A : Automaton) (verbose : Bool) (input : String) : Program Unit := do
  print ("\nTesting: " ++ input ++ "\n")
  let outcome := A.process input
  print ("Result: " ++ (if outcome.accepted then "Accepted" else "Rejected") ++ "\n")
  if outcome.accepted || verbose then
    print "Trace:\n"
    printTrace outcome.trace

/-- Test inputs one after the other. -/
def testInputs (A : Automaton) (verbose : Bool) (inputs : List String) : Program Unit := do
  print "\nTesting multiple expressions:\n"
  inputs.forM (testInput A verbose)

/-- Run the command line on the file that its arguments name. -/
def runCommand (args : Arguments) (file : Except ReadError ByteArray) : Program Unit := do
  let text ← readSource args file
  let A ← loadSource args text
  printAutomaton args A
  let named := if args.inputs.isEmpty then defaultInputs else args.inputs
  let inputs ← pushRandom A args.endMarker args.random (Xoshiro.ofSeed args.seed) named
  testInputs A args.verbose inputs

/-! ## What the program prints -/

section Prints

variable {γ : Type} [Source γ] {args : Arguments} {file : Except ReadError ByteArray} {text : String}
  {loaded : Loaded}

theorem ends_printTrace (trace : List Step) : Ends (printTrace trace) (.ok ()) (traceLines trace) "" :=
  Ends.forM_stdout (fun s : Step => ends_print (s.render ++ "\n")) trace

/-- Testing an input prints its block. -/
theorem ends_testInput (A : Automaton) (verbose : Bool) (input : String) :
    Ends (testInput A verbose input) (.ok ()) (block A verbose input) "" := by
  have htrace : Ends (if (A.process input).accepted || verbose then do
        print "Trace:\n"
        printTrace (A.process input).trace
      else pure ()) (.ok ())
      (if (A.process input).accepted || verbose then "Trace:\n" ++ traceLines (A.process input).trace
      else "") "" := by
    split
    · exact (ends_printTrace _).after_print _
    · exact ends_pure ()
  have h := (htrace.after_print ("Result: " ++ verdict (A.process input).accepted ++ "\n")).after_print
    ("\nTesting: " ++ input ++ "\n")
  have htext : block A verbose input = "\nTesting: " ++ input ++ "\n" ++
      ("Result: " ++ verdict (A.process input).accepted ++ "\n" ++
        if (A.process input).accepted || verbose then "Trace:\n" ++ traceLines (A.process input).trace
        else "") := by
    -- The line feed that ends the first line belongs to the next piece in `block`.
    have hresult : "\nResult: " = "\n" ++ "Result: " := rfl
    simp only [block, hresult, String.append_assoc]
  rw [htext]
  exact h

theorem ends_printAutomaton (args : Arguments) (A : Automaton) :
    Ends (printAutomaton args A) (.ok ()) (if args.verbose then preamble args A else "") "" := by
  rw [printAutomaton]
  split
  · have hissues : Ends (A.issues.forM fun issue => print ("note: " ++ issue.message ++ "\n")) (.ok ())
        (String.join (A.issues.map fun issue => "note: " ++ issue.message ++ "\n")) "" :=
      Ends.forM_stdout (fun issue : Issue => ends_print _) A.issues
    have h := ((hissues.seq (ends_print "\n")).after_print (save args.epsilon A)).after_print
      ("Loaded: " ++ args.config ++ "\n")
    rw [preamble]
    simp only [String.append_assoc] at h ⊢
    exact h
  · exact ends_pure ()

/-- The loop puts the random inputs behind the others, and complains if it has to stop early. -/
theorem ends_pushRandom (A : Automaton) (extra : String) (count : Nat) (g : γ) (inputs : List String) :
    Ends (pushRandom A extra count g inputs) (.ok (inputs ++ drawInputs A extra count g)) ""
      (if (drawInputs A extra count g).length < count then
        "Input alphabet has no single character symbols.\n"
      else "") := by
  -- The inputs that are there already grow with every round, so they are not fixed in the induction.
  induction count generalizing g inputs with
  | zero =>
    rw [drawInputs, List.append_nil, if_neg (Nat.not_lt_zero _)]
    exact ends_pure inputs
  | succ count ih =>
    rcases hinput : A.randomInput (drawBetween 1 8 g).1 extra (drawBetween 1 8 g).2 with ⟨_ | input, g'⟩
    · have hdraw : drawInputs A extra (count + 1) g = [] := by simp only [drawInputs, hinput]
      simp only [pushRandom, hinput, hdraw, List.append_nil, List.length_nil, Nat.succ_pos, if_true]
      exact (ends_printError _).seq (ends_pure inputs)
    · have hdraw : drawInputs A extra (count + 1) g = input :: drawInputs A extra count g' := by
        simp only [drawInputs, hinput]
      simp only [pushRandom, hinput, hdraw, List.length_cons, Nat.add_lt_add_iff_right]
      rw [List.append_cons inputs input (drawInputs A extra count g')]
      exact ih g' (inputs ++ [input])

theorem ends_readSource_ok (h : file.bind decodeText = .ok text) :
    Ends (readSource args file) (.ok text) "" "" := by
  simp only [readSource, h]
  exact ends_pure text

/-- A file that cannot be read, or is not text, ends the program with one line about it. -/
theorem ends_readSource_error {reason : ReadError} (h : file.bind decodeText = .error reason) :
    Ends (readSource args file) (.error 1) ""
      ("Failed to load " ++ args.config ++ ": " ++ reason.message ++ "\n") := by
  simp only [readSource, h]
  have hquit : Ends (quit 1 : Program String) (.error 1) "" "" := ends_quit 1
  exact (ends_printError _).before_silence hquit

theorem ends_printDiagnostics {β : Type} (name text : String) (shown : β → Diagnostic) (bs : List β) :
    Ends (bs.forM fun b => printError ((shown b).render name (Line.ofText text.toList))) (.ok ()) ""
      (renderDiagnostics name text (bs.map shown)) := by
  have h := Ends.forM_stderr
    (fun b : β => ends_printError ((shown b).render name (Line.ofText text.toList))) bs
  rw [renderDiagnostics, List.map_map]
  exact h

theorem ends_loadSource_ok (h : load args.epsilon text = .ok loaded) :
    Ends (loadSource args text) (.ok loaded.automaton) "" (if args.verbose then
      renderDiagnostics args.config text (loaded.notices.map Notice.diagnostic) else "") := by
  simp only [loadSource, h]
  have hpure : Ends (pure loaded.automaton : Program Automaton) (.ok loaded.automaton) "" "" := ends_pure _
  split
  · exact (ends_printDiagnostics args.config text Notice.diagnostic loaded.notices).before_silence hpure
  · exact hpure

/-- A text that does not load ends the program with all of its faults. -/
theorem ends_loadSource_error {faults : List Fault} (h : load args.epsilon text = .error faults) :
    Ends (loadSource args text) (.error 1) ""
      (renderDiagnostics args.config text (faults.map Fault.diagnostic)) := by
  simp only [loadSource, h]
  have hquit : Ends (quit 1 : Program Automaton) (.error 1) "" "" := ends_quit 1
  exact (ends_printDiagnostics args.config text Fault.diagnostic faults).before_silence hquit

/-- Testing the inputs prints the header and the blocks, in order. -/
theorem ends_testInputs (A : Automaton) (verbose : Bool) (inputs : List String) :
    Ends (testInputs A verbose inputs) (.ok ())
      (header ++ String.join (inputs.map (block A verbose))) "" :=
  (Ends.forM_stdout (ends_testInput A verbose) inputs).after_print header

/-- What comes after loading: the automaton if more is asked for, the random inputs, and the tests. -/
theorem ends_afterLoading (args : Arguments) (A : Automaton) : Ends (do
      printAutomaton args A
      let inputs ← pushRandom A args.endMarker args.random (Xoshiro.ofSeed args.seed) args.namedInputs
      testInputs A args.verbose inputs) (.ok ()) (body args A) (complaint args A) := by
  have hinputs := Ends.bind (f := testInputs A args.verbose)
    (ends_pushRandom A args.endMarker args.random (Xoshiro.ofSeed args.seed) args.namedInputs)
    (ends_testInputs A args.verbose _)
  have h := (ends_printAutomaton args A).seq hinputs
  simp only [String.append_empty, String.empty_append, ← String.append_assoc] at h
  exact h

/-- **The report is what the program leaves behind.** -/
theorem leaves_runCommand (args : Arguments) (file : Except ReadError ByteArray) :
    (runCommand args file).leaves = answer args file := by
  cases hread : file.bind decodeText with
  | error reason =>
    have hquit : Ends (runCommand args file) (.error 1) _ _ := (ends_readSource_error hread).exit _
    simp only [hquit.leaves_error, answer, report, hread]
  | ok text =>
    have hsource : Ends (readSource args file) (.ok text) "" "" := ends_readSource_ok hread
    cases hload : load args.epsilon text with
    | error faults =>
      have hquit : Ends (runCommand args file) (.error 1) _ _ :=
        hsource.bind ((ends_loadSource_error hload).exit _)
      simp only [hquit.leaves_error, answer, report, hread, hload, String.empty_append]
    | ok loaded =>
      have hall : Ends (runCommand args file) (.ok ()) _ _ :=
        hsource.bind ((ends_loadSource_ok hload).bind (ends_afterLoading args loaded.automaton))
      simp only [hall.leaves_ok, answer, report, hread, hload, String.empty_append]

end Prints

end PDA.CommandLine
