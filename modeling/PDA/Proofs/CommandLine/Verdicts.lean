import PDA.Proofs.CommandLine.Program
import PDA.Proofs.CommandLine.RandomInputs

/-!
# The report says what the library decides

A command line tests its own inputs, or ten others if it has none, and then random ones (`Tests`). Its report
has one block for each of them, which says what the library decides (`Reports`). Asking for more changes
neither the inputs nor the verdicts, and every block begins as it did before (`SaysMore`).
-/

namespace PDA.CommandLine

open Format Sampling

/-- The inputs that are tested, in order: those of the command line, or these ten if it has none, and then the
random ones. -/
structure Tests (args : Arguments) (A : Automaton) (named drawn : List String) : Prop where
  own : args.inputs ≠ [] → named = args.inputs
  default : args.inputs = [] → named =
    ["1*(4+6)$", "4+3$", "5*(1+2)$", "1+4*7$", "(9+1)(2-5)$", "4$", "*7*(8+9)$", "1/(5+5)$",
      "(1+4)/(7+9)$", "9+1$"]
  drawn_eq : drawn = drawInputs A args.endMarker args.random (Xoshiro.ofSeed args.seed)
  random : AreRandomInputs A args.endMarker args.random drawn

/-- What is printed about the automaton itself: where it comes from, its definition, and its issues. -/
def IsPreamble (args : Arguments) (A : Automaton) (text : String) : Prop :=
  text = "Loaded: " ++ args.config ++ "\n" ++ save args.epsilon A ++
    String.join (A.issues.map fun issue => "note: " ++ issue.message ++ "\n") ++ "\n"

/-- A text about a loaded automaton: the preamble if more is asked for, a headline, and one block for each
input that is tested. -/
structure IsReportOn (args : Arguments) (A : Automaton) (named drawn : List String) (blocks : List Block)
    (text : String) : Prop where
  tests : Tests args A named drawn
  said : List.Forall₂ (Block.IsFor A args.verbose) (named ++ drawn) blocks
  text_eq : ∃ opening, (args.verbose = true → IsPreamble args A opening) ∧
    (args.verbose = false → opening = "") ∧
    text = opening ++ "\nTesting multiple expressions:\n" ++ String.join (blocks.map Block.text)

/-- The report says what is decided about the file and about the inputs. -/
structure Reports (args : Arguments) (file : Except ReadError ByteArray) (r : Report) : Prop where
  failed : (∀ loaded, ¬ Holds file args.epsilon loaded) → r.exit = 1 ∧ r.stdout = ""
  loaded : ∀ loaded, Holds file args.epsilon loaded →
    r.exit = 0 ∧ ∃ named drawn blocks, IsReportOn args loaded.automaton named drawn blocks r.stdout

/-- What is different about the report if more is asked for: the inputs and the verdicts are the same, and
every block begins as it did before. -/
structure SaysMore (args args' : Arguments) (file : Except ReadError ByteArray) (r r' : Report) : Prop where
  exit_eq : r'.exit = r.exit
  stdout_sublist : r.stdout.toList.Sublist r'.stdout.toList
  blocks : ∀ loaded, Holds file args.epsilon loaded → ∃ named drawn blocks blocks',
    IsReportOn args loaded.automaton named drawn blocks r.stdout ∧
    IsReportOn args' loaded.automaton named drawn blocks' r'.stdout ∧
    List.Forall₂ Block.Begins blocks blocks'

section Reports

variable {cmd : List String} {args args' : Arguments} {file : Except ReadError ByteArray} {loaded : Loaded}
  {A : Automaton}

/-- The program tests its own inputs, or the ten of the list, and then those that are drawn. -/
theorem tests_testedInputs (args : Arguments) (A : Automaton) :
    Tests args A args.namedInputs (args.randomInputs A) where
  own hne := if_neg (by simpa using hne)
  default hnil := if_pos (by simpa using hnil)
  drawn_eq := rfl
  random := areRandomInputs_drawInputs A args.endMarker args.random (Xoshiro.ofSeed args.seed)

/-- What is printed about a loaded automaton is a report on it. -/
theorem exists_isReportOn (args : Arguments) (A : Automaton) : ∃ blocks,
    IsReportOn args A args.namedInputs (args.randomInputs A) blocks (body args A) := by
  obtain ⟨blocks, hblocks, htext⟩ := exists_blocks A args.verbose (args.testedInputs A)
  refine ⟨blocks, tests_testedInputs args A, hblocks, if args.verbose then preamble args A else "",
    ?_, ?_, ?_⟩
  · exact fun hverbose => if_pos hverbose
  · exact fun hquiet => if_neg (Bool.not_eq_true _ ▸ hquiet)
  · rw [body, htext]
    rfl

/-- The answer of the program is the report that the file and the arguments ask for. -/
theorem reports_answer (args : Arguments) (file : Except ReadError ByteArray) :
    Reports args file (answer args file) where
  failed := answer_of_not_holds
  loaded loaded h := by
    obtain ⟨hexit, hstdout⟩ := answer_of_holds h
    obtain ⟨blocks, hreport⟩ := exists_isReportOn args loaded.automaton
    rw [← hstdout] at hreport
    exact ⟨hexit, _, _, blocks, hreport⟩

/-- With and without asking for more the same inputs are tested, and what is printed without it is part of
what is printed with it. -/
theorem IsReportOn.begins {named drawn : List String} {blocks blocks' : List Block} {text text' : String}
    (hquiet : args.verbose = false) (hverbose : args'.verbose = true)
    (h : IsReportOn args A named drawn blocks text) (h' : IsReportOn args' A named drawn blocks' text') :
    List.Forall₂ Block.Begins blocks blocks' ∧ text.toList.Sublist text'.toList := by
  have hsaid := h.said
  have hsaid' := h'.said
  rw [hquiet] at hsaid
  rw [hverbose] at hsaid'
  have hbegins := forall_begins hsaid hsaid'
  obtain ⟨opening, -, hnone, rfl⟩ := h.text_eq
  obtain ⟨opening', -, -, rfl⟩ := h'.text_eq
  obtain rfl := hnone hquiet
  refine ⟨hbegins, ?_⟩
  rw [String.empty_append, String.append_assoc, String.toList_append, String.toList_append,
    String.toList_append]
  have hsublist := (List.Sublist.refl "\nTesting multiple expressions:\n".toList).append
    (sublist_of_forall_begins hbegins)
  exact hsublist.trans (List.sublist_append_right _ _)

/-- Where the file holds an automaton, `--verbose` adds the preamble, the traces and the issues. -/
theorem saysMore_of_holds (hquiet : args.verbose = false) (h : Holds file args.epsilon loaded) :
    SaysMore args { args with verbose := true } file (answer args file)
      (answer { args with verbose := true } file) := by
  have h' : Holds file ({ args with verbose := true } : Arguments).epsilon loaded := h
  obtain ⟨hexit, hstdout⟩ := answer_of_holds h
  obtain ⟨hexit', hstdout'⟩ := answer_of_holds h'
  obtain ⟨blocks, hreport⟩ := exists_isReportOn args loaded.automaton
  obtain ⟨blocks', hreport'⟩ := exists_isReportOn { args with verbose := true } loaded.automaton
  rw [← hstdout] at hreport
  rw [← hstdout'] at hreport'
  obtain ⟨hbegins, hsublist⟩ := hreport.begins hquiet rfl hreport'
  refine ⟨hexit'.trans hexit.symm, hsublist, fun loaded' hloaded' => ?_⟩
  obtain rfl := h.unique hloaded'
  exact ⟨_, _, blocks, blocks', hreport, hreport', hbegins⟩

/-- Where the file holds no automaton there is nothing to say more about. -/
theorem saysMore_of_not_holds (h : ∀ loaded, ¬ Holds file args.epsilon loaded) :
    SaysMore args { args with verbose := true } file (answer args file)
      (answer { args with verbose := true } file) := by
  have h' : ∀ loaded, ¬ Holds file ({ args with verbose := true } : Arguments).epsilon loaded := h
  obtain ⟨hexit, hstdout⟩ := answer_of_not_holds h
  obtain ⟨hexit', -⟩ := answer_of_not_holds h'
  refine ⟨hexit'.trans hexit.symm, ?_, fun loaded hloaded => absurd hloaded (h loaded)⟩
  rw [hstdout]
  exact List.nil_sublist _

/-- **The report says what the library decides.** A valid command line stands for the arguments that it names,
and its report is what the program leaves behind: an exit with code 1 if the file does not hold a definition,
and otherwise one block for each input with the verdict on it, and with the steps of the run if the input is
accepted or more is asked for. Command lines that say the same, but one of which asks for more, agree on the
exit code, on the inputs and on the verdicts, and every block begins alike. -/
theorem report_exact (h : Arguments.parse cmd = .ok args) (file : Except ReadError ByteArray) :
    (∃ ss, settings cmd = .ok ss ∧ Describes ss args) ∧
    (runCommand args file).leaves = answer args file ∧ Reports args file (answer args file) ∧
    ∀ cmd' args', Arguments.parse cmd' = .ok args' → SameBut .verbose cmd cmd' →
      ¬ Gives .verbose cmd → Gives .verbose cmd' →
        SaysMore args args' file (answer args file) (answer args' file) := by
  refine ⟨describes_of_parse h, leaves_runCommand args file, reports_answer args file, ?_⟩
  intro cmd' args' h' hsame hquiet hverbose
  rw [← verbose_iff_gives h, Bool.not_eq_true] at hquiet
  have hargs' := hsame.eq_verbose h h'
  rw [(verbose_iff_gives h').2 hverbose] at hargs'
  subst hargs'
  by_cases hloaded : ∃ loaded, Holds file args.epsilon loaded
  · obtain ⟨loaded, hloaded⟩ := hloaded
    exact saysMore_of_holds hquiet hloaded
  · exact saysMore_of_not_holds (not_exists.1 hloaded)

/-- A definition with one rule, which reads an `a`. -/
def oneRule : String := "start_state:q\naccept_states:q\ntransitions:\nq a λ -> q\n"

/-- One input is accepted and the other one is not, so `-v` makes a difference to the second block. -/
theorem report_exact_one_rule : ∃ args args' loaded,
    Arguments.parse ["a.pda", "a", "b"] = .ok args ∧
    Arguments.parse ["a.pda", "a", "-v", "b"] = .ok args' ∧
    Holds (.ok oneRule.toUTF8) args.epsilon loaded ∧ loaded.automaton.Accepts "a" ∧
    ¬ loaded.automaton.Accepts "b" ∧
    Reports args (.ok oneRule.toUTF8) (answer args (.ok oneRule.toUTF8)) ∧
    SaysMore args args' (.ok oneRule.toUTF8) (answer args (.ok oneRule.toUTF8))
      (answer args' (.ok oneRule.toUTF8)) := by
  have hquiet : Arguments.parse ["a.pda", "a", "b"] =
      .ok { config := "a.pda", inputs := ["a", "b"] } := by rfl
  have hverbose : Arguments.parse ["a.pda", "a", "-v", "b"] =
      .ok { verbose := true, config := "a.pda", inputs := ["a", "b"] } := by rfl
  have hsame : SameBut .verbose ["a.pda", "a", "b"] ["a.pda", "a", "-v", "b"] :=
    ⟨[.positional "a.pda", .positional "a", .positional "b"],
      [.positional "a.pda", .positional "a", .option .verbose "", .positional "b"],
      by rfl, by rfl, by rfl⟩
  have hgives : ¬ Gives .verbose ["a.pda", "a", "b"] := by
    rw [← verbose_iff_gives hquiet]
    exact Bool.false_ne_true
  have hgives' : Gives .verbose ["a.pda", "a", "-v", "b"] := (verbose_iff_gives hverbose).1 rfl
  have hload : ∃ loaded, load "λ" oneRule = .ok loaded ∧ loaded.automaton.Accepts "a" ∧
      ¬ loaded.automaton.Accepts "b" := ⟨_, rfl, by decide, by decide⟩
  obtain ⟨loaded, hloaded, ha, hb⟩ := hload
  obtain ⟨-, -, hreports, hmore⟩ := report_exact hquiet (.ok oneRule.toUTF8)
  exact ⟨_, _, loaded, hquiet, hverbose, ⟨oneRule, rfl, hloaded⟩, ha, hb, hreports,
    hmore _ _ hverbose hsame hgives hgives'⟩

end Reports

end PDA.CommandLine
