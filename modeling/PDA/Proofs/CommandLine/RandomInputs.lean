import PDA.Proofs.CommandLine.Arguments
import PDA.Proofs.CommandLine.Blocks
import PDA.Proofs.CommandLine.Report
import PDA.Proofs.Sampling.Input

/-!
# More random inputs

The random inputs are drawn one after the other from one generator, each with its length first. So the first
ones do not depend on how many there will be (`drawInputs_prefix`), and since they are tested last, more of
them only add blocks at the end of the report.
-/

namespace PDA.CommandLine

open Format Sampling

/-! ## Drawing inputs -/

/-- From one to eight characters that are input symbols, and the given text after them. -/
def IsRandomInput (A : Automaton) (extra input : String) : Prop :=
  ∃ cs : List Char, 1 ≤ cs.length ∧ cs.length ≤ 8 ∧ (∀ c ∈ cs, Symbol.ofChar c ∈ A.inputAlphabet) ∧
    input.toList = cs ++ extra.toList

/-- There are as many random inputs as are asked for, or none if no input symbol consists of one
character. -/
structure AreRandomInputs (A : Automaton) (extra : String) (count : Nat) (inputs : List String) : Prop where
  random : ∀ input ∈ inputs, IsRandomInput A extra input
  length_eq : (∃ s ∈ A.inputAlphabet, s.IsSingle) → inputs.length = count
  eq_nil : (∀ s ∈ A.inputAlphabet, ¬ s.IsSingle) → inputs = []

section Drawing

variable {γ : Type} [Source γ] {A : Automaton} {extra input : String} {count n m : Nat} {g : γ}

/-- A number is drawn from between the bounds, both included. -/
theorem drawBetween_bounds (low high : Nat) (h : low ≤ high) (g : γ) :
    low ≤ (drawBetween low high g).1 ∧ (drawBetween low high g).1 ≤ high := by
  have hlt := (Source.draw (high - low + 1) (Nat.succ_pos _) g).1.isLt
  simp only [drawBetween]
  omega

theorem drawInputs_of_nil (h : A.letters = []) (extra : String) (count : Nat) (g : γ) :
    drawInputs A extra count g = [] := by
  cases count with
  | zero => rfl
  | succ count => simp only [drawInputs, Automaton.randomInput_of_nil h]

/-- As long as there are letters, one more input is drawn, and the others with the generator that it
leaves. -/
theorem exists_drawInputs_succ (h : A.letters ≠ []) (extra : String) (g : γ) :
    ∃ (input : String) (g' : γ), IsRandomInput A extra input ∧
      ∀ count, drawInputs A extra (count + 1) g = input :: drawInputs A extra count g' := by
  obtain ⟨hlow, hhigh⟩ := drawBetween_bounds 1 8 (by decide) g
  obtain ⟨input, g', hinput⟩ : ∃ input g',
      A.randomInput (drawBetween 1 8 g).1 extra (drawBetween 1 8 g).2 = (some input, g') :=
    ⟨_, _, Automaton.randomInput_of_pos (List.length_pos_iff.2 h) _ _ _⟩
  obtain ⟨cs, hlength, hcs, htext⟩ := Automaton.exists_letters_of_randomInput (congrArg Prod.fst hinput)
  rw [← hlength] at hlow hhigh
  refine ⟨input, g', ⟨cs, hlow, hhigh, hcs, htext⟩, fun count => ?_⟩
  simp only [drawInputs, hinput]

theorem length_drawInputs (h : A.letters ≠ []) (extra : String) (count : Nat) (g : γ) :
    (drawInputs A extra count g).length = count := by
  induction count generalizing g with
  | zero => rfl
  | succ count ih =>
    obtain ⟨input, g', -, hdraw⟩ := exists_drawInputs_succ h extra g
    rw [hdraw, List.length_cons, ih]

/-- What is drawn is a random input. -/
theorem isRandomInput_of_mem_drawInputs (h : input ∈ drawInputs A extra count g) :
    IsRandomInput A extra input := by
  by_cases hletters : A.letters = []
  · rw [drawInputs_of_nil hletters] at h
    contradiction
  · induction count generalizing g with
    | zero => contradiction
    | succ count ih =>
      obtain ⟨first, g', hfirst, hdraw⟩ := exists_drawInputs_succ hletters extra g
      rw [hdraw, List.mem_cons] at h
      obtain rfl | h := h
      · exact hfirst
      · exact ih h

/-- Fewer inputs drawn with the same generator are the first of more. -/
theorem drawInputs_prefix (h : n ≤ m) (A : Automaton) (extra : String) (g : γ) :
    drawInputs A extra n g <+: drawInputs A extra m g := by
  by_cases hletters : A.letters = []
  · rw [drawInputs_of_nil hletters]
    exact List.nil_prefix
  -- Both lists begin with the same input, and go on with the generator that it leaves.
  · induction n generalizing m g with
    | zero => exact List.nil_prefix
    | succ n ih =>
      obtain ⟨m, rfl⟩ := Nat.exists_eq_succ_of_ne_zero (Nat.ne_zero_of_lt h)
      obtain ⟨input, g', -, hdraw⟩ := exists_drawInputs_succ hletters extra g
      rw [hdraw, hdraw]
      exact (List.prefix_cons_inj input).2 (ih (Nat.le_of_succ_le_succ h) g')

/-- The inputs that are drawn are as many random ones as asked for, or none if there is no letter. -/
theorem areRandomInputs_drawInputs (A : Automaton) (extra : String) (count : Nat) (g : γ) :
    AreRandomInputs A extra count (drawInputs A extra count g) where
  random _ hinput := isRandomInput_of_mem_drawInputs hinput
  length_eq hsingle :=
    length_drawInputs (List.length_pos_iff.1 (Automaton.letters_pos_iff.2 hsingle)) extra count g
  eq_nil hnone := drawInputs_of_nil (Automaton.letters_eq_nil_iff.2 hnone) extra count g

/-- What is drawn after the first `n` inputs are random inputs as well. -/
theorem exists_added (h : n ≤ m) (A : Automaton) (extra : String) (g : γ) : ∃ added,
    drawInputs A extra m g = drawInputs A extra n g ++ added ∧
      AreRandomInputs A extra (m - n) added := by
  obtain ⟨added, hadded⟩ := drawInputs_prefix h A extra g
  have hall := areRandomInputs_drawInputs A extra m g
  have hfirst := areRandomInputs_drawInputs A extra n g
  rw [← hadded] at hall
  refine ⟨added, hadded.symm, fun input hinput => ?_, fun hsingle => ?_, fun hnone => ?_⟩
  · exact hall.random input (List.mem_append_right _ hinput)
  · have hlength := hall.length_eq hsingle
    rw [List.length_append, hfirst.length_eq hsingle] at hlength
    omega
  · exact (List.append_eq_nil_iff.1 (hall.eq_nil hnone)).2

end Drawing

/-! ## Reports with more random inputs -/

section More

variable {less more : List String} {args args' : Arguments} {A : Automaton}
  {file : Except ReadError ByteArray} {loaded : Loaded} {n m : Nat}

/-- More random inputs are printed at the end, and they are the same whatever else is tested and however much
is said. -/
theorem exists_body_eq_append (hle : args.random ≤ m) (A : Automaton) : ∃ added : List String,
    AreRandomInputs A args.endMarker (m - args.random) added ∧
    ∀ verbose inputs, body { args with random := m, verbose := verbose, inputs := inputs } A =
      body { args with verbose := verbose, inputs := inputs } A ++
        String.join (added.map (block A verbose)) := by
  obtain ⟨added, hadded, hrandom⟩ := exists_added hle A args.endMarker (Xoshiro.ofSeed args.seed)
  refine ⟨added, hrandom, fun verbose inputs => ?_⟩
  simp only [body, Arguments.testedInputs, Arguments.randomInputs, hadded, List.map_append,
    String.join_append, String.append_assoc]
  rfl

/-- What is different if there are to be `m` random inputs instead of `n`: nothing but blocks at the end, one
for each random input that is added. The inputs that are added are chosen before it is said how much is to be
printed and which other inputs there are. -/
structure AddsRandomInputs (args args' : Arguments) (file : Except ReadError ByteArray) (n m : Nat) :
    Prop where
  exit_eq : (answer args' file).exit = (answer args file).exit
  stdout_prefix : (answer args file).stdout.toList <+: (answer args' file).stdout.toList
  stdout_eq : ∀ loaded, Holds file args.epsilon loaded →
    (∀ s ∈ loaded.automaton.inputAlphabet, ¬ s.IsSingle) →
      (answer args' file).stdout = (answer args file).stdout
  added : ∀ loaded, Holds file args.epsilon loaded → ∃ added : List String,
    AreRandomInputs loaded.automaton args.endMarker (m - n) added ∧
    ∀ verbose inputs, ∃ blocks : List Block,
      List.Forall₂ (Block.IsFor loaded.automaton verbose) added blocks ∧
      (answer { args' with verbose := verbose, inputs := inputs } file).stdout =
        (answer { args with verbose := verbose, inputs := inputs } file).stdout ++
          String.join (blocks.map Block.text)

/-- Where the file holds an automaton, more random inputs are tested after the ones before. -/
theorem addsRandomInputs_of_holds (h : Holds file args.epsilon loaded) (hle : args.random ≤ m) :
    AddsRandomInputs args { args with random := m } file args.random m := by
  obtain ⟨added, hrandom, hbody⟩ := exists_body_eq_append hle loaded.automaton
  have hanswer : ∀ verbose inputs k, (answer { args with
      random := k, verbose := verbose, inputs := inputs } file).exit = 0 ∧
    (answer { args with random := k, verbose := verbose, inputs := inputs } file).stdout =
      body { args with random := k, verbose := verbose, inputs := inputs } loaded.automaton :=
    fun verbose inputs k => answer_of_holds h
  have hmore : ∀ verbose inputs, ∃ blocks : List Block,
      List.Forall₂ (Block.IsFor loaded.automaton verbose) added blocks ∧
      (answer { args with random := m, verbose := verbose, inputs := inputs } file).stdout =
        (answer { args with verbose := verbose, inputs := inputs } file).stdout ++
          String.join (blocks.map Block.text) := by
    intro verbose inputs
    obtain ⟨blocks, hblocks, htext⟩ := exists_blocks loaded.automaton verbose added
    refine ⟨blocks, hblocks, ?_⟩
    rw [(hanswer verbose inputs m).2, hbody, ← (hanswer verbose inputs args.random).2, htext]
  -- With the `-v` and the inputs that the arguments have, this is the report itself.
  obtain ⟨blocks, hblocks, hstdout⟩ := hmore args.verbose args.inputs
  refine ⟨?_, ?_, ?_, ?_⟩
  · exact (hanswer args.verbose args.inputs m).1.trans (answer_of_holds h).1.symm
  · rw [hstdout, String.toList_append]
    exact List.prefix_append _ _
  · rintro loaded' h' hletters
    obtain rfl := h.unique h'
    obtain rfl := hrandom.eq_nil hletters
    cases hblocks
    rw [hstdout]
    exact String.append_empty
  · rintro loaded' h'
    obtain rfl := h.unique h'
    exact ⟨added, hrandom, hmore⟩

/-- Where the file holds no automaton nothing is drawn. -/
theorem addsRandomInputs_of_not_holds (h : ∀ loaded, ¬ Holds file args.epsilon loaded) (m : Nat) :
    AddsRandomInputs args { args with random := m } file args.random m := by
  obtain ⟨hexit, hstdout⟩ := answer_of_not_holds h
  have h' : ∀ loaded, ¬ Holds file ({ args with random := m } : Arguments).epsilon loaded := h
  obtain ⟨hexit', -⟩ := answer_of_not_holds h'
  refine ⟨hexit'.trans hexit.symm, ?_, fun loaded h' => absurd h' (h loaded),
    fun loaded h' => absurd h' (h loaded)⟩
  rw [hstdout]
  exact List.nil_prefix

/-- **More random inputs are added at the end.** Two command lines that say the same, but for the number of
random inputs, exit with the same code, and what is printed for the smaller number is the beginning of what
is printed for the larger one. -/
theorem more_random_inputs (hargs : Arguments.parse less = .ok args)
    (hargs' : Arguments.parse more = .ok args') (hsame : SameBut .random less more)
    (hn : AsksFor less n) (hm : AsksFor more m) (hle : n ≤ m) (file : Except ReadError ByteArray) :
    AddsRandomInputs args args' file n m := by
  obtain rfl := hn.eq_random hargs
  obtain rfl := hm.eq_random hargs'
  rw [hsame.eq_random hargs hargs']
  by_cases h : ∃ loaded, Holds file args.epsilon loaded
  · obtain ⟨loaded, hloaded⟩ := h
    exact addsRandomInputs_of_holds hloaded hle
  · exact addsRandomInputs_of_not_holds (not_exists.1 h) args'.random

/-- A definition with one letter. -/
def oneLetter : String := "input_symbols:a\nstart_state:q\n"

theorem more_random_inputs_one_letter : ∃ args args',
    Arguments.parse ["a.pda", "b", "--random=1"] = .ok args ∧ args.inputs = ["b"] ∧
    Arguments.parse ["--random", "3", "a.pda", "b"] = .ok args' ∧
    (∃ loaded, Holds (.ok oneLetter.toUTF8) args.epsilon loaded ∧ loaded.automaton.letters = ['a']) ∧
    AddsRandomInputs args args' (.ok oneLetter.toUTF8) 1 3 := by
  have hless : settings ["a.pda", "b", "--random=1"] =
      .ok [.positional "a.pda", .positional "b", .option .random "1"] := by rfl
  have hmore : settings ["--random", "3", "a.pda", "b"] =
      .ok [.option .random "3", .positional "a.pda", .positional "b"] := by rfl
  have hone : AsksFor ["a.pda", "b", "--random=1"] 1 :=
    ⟨_, hless, .inr ⟨"1", 1, by rfl, by rfl, by rfl⟩⟩
  have hthree : AsksFor ["--random", "3", "a.pda", "b"] 3 :=
    ⟨_, hmore, .inr ⟨"3", 3, by rfl, by rfl, by rfl⟩⟩
  have hload : ∃ loaded, load "λ" oneLetter = .ok loaded ∧ loaded.automaton.letters = ['a'] :=
    ⟨_, rfl, by decide⟩
  obtain ⟨loaded, hloaded, hletters⟩ := hload
  refine ⟨_, _, by rfl, by rfl, by rfl, ⟨loaded, ⟨oneLetter, rfl, hloaded⟩, hletters⟩, ?_⟩
  exact more_random_inputs (by rfl) (by rfl) ⟨_, _, hless, hmore, by rfl⟩ hone hthree (by decide) _

end More

end PDA.CommandLine
