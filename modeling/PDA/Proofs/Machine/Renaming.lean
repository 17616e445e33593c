import Mathlib.Data.List.Find
import Mathlib.Logic.Equiv.Basic
import PDA.Proofs.Machine.Floor

/-!
# Names do not matter

States and stack symbols are compared for equality and not looked at otherwise. If they are renamed, with
different names for different ones, the machine takes the renamed rule wherever it took the rule
(`Automaton.ruleAt?_rename`), so it runs as before under the new names. What is read off the input keeps
its name.
-/

namespace PDA

/-- The set of the images of the members. -/
def OrderedSet.image {α β : Type} [DecidableEq β] (f : α → β) (s : OrderedSet α) : OrderedSet β :=
  ofList (s.toList.map f)

/-- A renaming that keeps names apart keeps members apart. -/
theorem OrderedSet.mem_image_iff {α β : Type} [DecidableEq β] {f : α → β}
    (hf : Function.Injective f) {s : OrderedSet α} {a : α} : f a ∈ s.image f ↔ a ∈ s := by
  rw [image, mem_ofList, List.mem_map_of_injective hf, mem_toList]

/-- Rename the states of a rule, what it pops and what it pushes. -/
def Rule.rename (f : State → State) (g : Symbol → Symbol) (r : Rule) : Rule where
  source := f r.source
  read := r.read
  pop := r.pop.map g
  target := f r.target
  push := r.push.map g

/-- Rename the state and the symbols on the stack. -/
def Configuration.rename (f : State → State) (g : Symbol → Symbol) (k : Configuration) :
    Configuration where
  state := f k.state
  stack := k.stack.map g

/-- Rename the states that the machine goes through and the symbols on its stack. -/
def Automaton.rename (f : State → State) (g : Symbol → Symbol) (A : Automaton) : Automaton :=
  { A with
    start := f A.start
    accept := A.accept.image f
    rules := A.rules.map (Rule.rename f g) }

section

variable {f : State → State} {g : Symbol → Symbol} {A : Automaton} {r : Rule} {k : Configuration}
  {c : Char}

/-! ## Rules -/

theorem Configuration.top_rename : (k.rename f g).top = k.top.map g := List.getLast?_map

/-- Taking a renamed rule is renaming what taking the rule leads to. -/
theorem Configuration.take_rename :
    (k.rename f g).take (r.rename f g) = (k.take r).rename f g := by
  have hrest : (if (r.pop.map g).isSome then (k.stack.map g).dropLast else k.stack.map g) =
      (if r.pop.isSome then k.stack.dropLast else k.stack).map g := by
    rw [Option.isSome_map, ← List.map_dropLast]
    split <;> rfl
  refine Configuration.ext rfl ?_
  show (if (r.pop.map g).isSome then (k.stack.map g).dropLast else k.stack.map g) ++ r.push.map g =
    ((if r.pop.isSome then k.stack.dropLast else k.stack) ++ r.push).map g
  rw [hrest, List.map_append]

/-- What is popped is only compared with what is on top, and an empty stack stays empty. -/
theorem Rule.pops_rename (hg : Function.Injective g) {top : Option Symbol} :
    (r.rename f g).Pops (top.map g) ↔ r.Pops top := by
  unfold Pops rename
  cases r.pop with
  | none => simp
  | some a =>
    have htop : top.map g = some (g a) ↔ top = some a := by
      rw [← Option.map_some, (Option.map_injective hg).eq_iff]
    simpa using htop

/-- A renamed rule applies exactly where the rule itself does. -/
theorem Rule.applies_rename (hf : Function.Injective f) (hg : Function.Injective g) {q : State}
    {top : Option Symbol} : (r.rename f g).Applies (f q) c (top.map g) ↔ r.Applies q c top := by
  unfold Applies
  rw [pops_rename hg]
  exact and_congr_left' hf.eq_iff

/-! ## Runs -/

namespace Automaton

/-- After renaming, the renamed rule is taken. -/
theorem ruleAt?_rename (hf : Function.Injective f) (hg : Function.Injective g) :
    (A.rename f g).ruleAt? (k.rename f g) c = (A.ruleAt? k c).map (Rule.rename f g) := by
  unfold ruleAt? findRule? Automaton.rename
  rw [List.find?_map, Configuration.top_rename]
  refine congrArg _ (List.find?_congr fun r _ => ?_)
  rw [Function.comp_apply, decide_eq_decide]
  exact Rule.applies_rename hf hg

/-- After renaming, the machine moves to the renamed configuration. -/
theorem next?_rename (hf : Function.Injective f) (hg : Function.Injective g) :
    (A.rename f g).next? (k.rename f g) c = (A.next? k c).map (Configuration.rename f g) := by
  unfold next?
  rw [ruleAt?_rename hf hg, Option.map_map, Option.map_map]
  refine congrArg (Option.map · (A.ruleAt? k c)) (funext fun r => ?_)
  exact Configuration.take_rename

/-- After renaming, every run has the same verdict and the renamed trace. -/
theorem runFrom_rename (hf : Function.Injective f) (hg : Function.Injective g) (k : Configuration)
    (cs : List Char) : (A.rename f g).runFrom (k.rename f g) cs =
      ⟨(A.runFrom k cs).accepted,
        (A.runFrom k cs).trace.map (Step.mapConfig (Configuration.rename f g))⟩ := by
  induction cs generalizing k with
  | nil =>
    have haccepting : (A.rename f g).Accepting (f k.state) ↔ A.Accepting k.state :=
      OrderedSet.mem_image_iff hf
    simp only [runFrom_nil, Configuration.rename, haccepting, List.map_cons, List.map_nil,
      Step.mapConfig]
  | cons c cs ih =>
    have hnext := next?_rename hf hg (A := A) (k := k) (c := c)
    cases hA : A.next? k c with
    | none =>
      rw [hA, Option.map_none] at hnext
      rw [runFrom_cons_of_none _ hnext, runFrom_cons_of_none _ hA]
      rfl
    | some k' =>
      rw [hA, Option.map_some] at hnext
      rw [runFrom_cons_of_some _ hnext, runFrom_cons_of_some _ hA, ih]
      rfl

/-- **Names do not matter.** If different states and different stack symbols get different names, every
input has the same verdict, and the trace is the renamed one. -/
theorem process_rename (hf : Function.Injective f) (hg : Function.Injective g) (A : Automaton)
    (input : String) :
    ((A.rename f g).process input).accepted = (A.process input).accepted ∧
      ((A.rename f g).process input).trace =
        (A.process input).trace.map (Step.mapConfig (Configuration.rename f g)) := by
  have hrun : (A.rename f g).process input = _ := runFrom_rename hf hg A.initial input.toList
  rw [hrun]
  exact ⟨rfl, rfl⟩

end Automaton

end

namespace Automaton

/-- An automaton that puts two symbols on its stack for each letter `a` and takes them off again by letters
`b`. -/
def takesPairs : Automaton where
  start := ⟨"s"⟩
  accept := .ofList [⟨"t"⟩]
  rules :=
    [⟨⟨"s"⟩, some ⟨"a"⟩, none, ⟨"s"⟩, [⟨"X"⟩, ⟨"Y"⟩]⟩, ⟨⟨"s"⟩, some ⟨"b"⟩, some ⟨"Y"⟩, ⟨"t"⟩, []⟩,
      ⟨⟨"t"⟩, some ⟨"b"⟩, some ⟨"X"⟩, ⟨"t"⟩, []⟩]

/-- The state `s` changes names with the state without a name. -/
def noStartName : Equiv.Perm State := Equiv.swap ⟨"s"⟩ ⟨""⟩

/-- The symbol `X` changes names with the floor of the stack, and `Y` with the token for epsilon. -/
def oddSymbols : Equiv.Perm Symbol := (Equiv.swap ⟨"X"⟩ ⟨""⟩).trans (Equiv.swap ⟨"Y"⟩ ⟨"λ"⟩)

/-- The start state is left without a name, and the symbols are called like the floor of the stack and like
the token for epsilon. -/
theorem process_rename_oddSymbols :
    Function.Injective noStartName ∧ Function.Injective oddSymbols ∧
      .consumed ⟨⟨""⟩, [⟨""⟩, ⟨"λ"⟩]⟩ 'b' ∈
        ((takesPairs.rename noStartName oddSymbols).process "abb").trace ∧
      ((takesPairs.rename noStartName oddSymbols).process "abb").accepted =
        (takesPairs.process "abb").accepted ∧
      ((takesPairs.rename noStartName oddSymbols).process "abb").trace =
        (takesPairs.process "abb").trace.map
          (Step.mapConfig (Configuration.rename noStartName oddSymbols)) :=
  ⟨noStartName.injective, oddSymbols.injective, by decide,
    process_rename noStartName.injective oddSymbols.injective takesPairs "abb"⟩

end Automaton

end PDA
