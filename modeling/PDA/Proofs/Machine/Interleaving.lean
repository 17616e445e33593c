import Mathlib.Logic.Function.Basic
import PDA.Proofs.Machine.Run

/-!
# Runs side by side

Any number of runs over one automaton are stepped in any order. A step of one run leaves the other
ones alone, so each of them does what it would do if it were fed its own characters only
(`Run.own_interleave`), and that is what the machine does on these characters as one input.
-/

namespace PDA

namespace Run

variable {A : Automaton} {ι : Type} [DecidableEq ι]

/-- Step the run `i` of a family. The flag is what this step answers. -/
def stepAt (runs : ι → Run A) (i : ι) (c : Char) : Bool × (ι → Run A) :=
  (((runs i).step c).1, Function.update runs i ((runs i).step c).2)

/-- Step the runs of a family in the given order. Each answer comes with the run that gave it. -/
def interleave (runs : ι → Run A) : List (ι × Char) → List (ι × Bool) × (ι → Run A)
  | [] => ([], runs)
  | (i, c) :: calls =>
    let (flag, runs) := stepAt runs i c
    let (answers, runs) := interleave runs calls
    ((i, flag) :: answers, runs)

/-- What belongs to `i`, in order. -/
def own {α : Type} (i : ι) (items : List (ι × α)) : List α :=
  (items.filter fun item => item.1 = i).map Prod.snd

/-- The run looks as if the machine had been given the characters `cs` as one input; `answers` are
those that it gave to them. -/
structure Simulates (run : Run A) (cs : List Char) (answers : List Bool) : Prop where
  finish : run.finish = A.process (String.ofList cs)
  length : answers.length = cs.length
  answer : ∀ n, answers[n]? = some true ↔ n < cs.length ∧
    ∃ k, (A.process (String.ofList (cs.take (n + 1)))).trace.getLast? = some (.final k)

/-! ## What one run sees -/

section Own

variable {α : Type} {i j : ι} {runs runs' : ι → Run A} {c : Char} {flag : Bool}

/-- The first call to a run is its own. -/
theorem own_cons_self (i : ι) (a : α) (items : List (ι × α)) :
    own i ((i, a) :: items) = a :: own i items := by
  simp [own]

/-- A call to another run is none of its own. -/
theorem own_cons_of_ne (h : j ≠ i) (a : α) (items : List (ι × α)) :
    own i ((j, a) :: items) = own i items := by
  simp [own, h]

theorem stepAt_eq_iff : stepAt runs i c = (flag, runs') ↔
    ((runs i).step c).1 = flag ∧ Function.update runs i ((runs i).step c).2 = runs' := by
  rw [stepAt, Prod.mk.injEq]

/-- The run that is called makes a step of its own. -/
theorem step_of_stepAt_self (h : stepAt runs i c = (flag, runs')) :
    (runs i).step c = (flag, runs' i) := by
  obtain ⟨hflag, hruns⟩ := stepAt_eq_iff.1 h
  rw [← hflag, ← hruns, Function.update_self]

/-- The other runs stay as they are. -/
theorem apply_of_stepAt_of_ne (h : stepAt runs j c = (flag, runs')) (hne : j ≠ i) :
    runs' i = runs i := by
  obtain ⟨-, hruns⟩ := stepAt_eq_iff.1 h
  rw [← hruns, Function.update_of_ne hne.symm]

/-- Calls are made one after the other, each in the state that the calls before it have left. -/
theorem interleave_cons (h : stepAt runs i c = (flag, runs')) (calls : List (ι × Char)) :
    interleave runs ((i, c) :: calls) =
      ((i, flag) :: (interleave runs' calls).1, (interleave runs' calls).2) := by
  rw [interleave, h]

/-- Each run ends up as if it had been fed its own calls alone, and answers the same. -/
theorem own_interleave (runs : ι → Run A) (calls : List (ι × Char)) (i : ι) :
    (runs i).feed (own i calls) =
      (own i (interleave runs calls).1, (interleave runs calls).2 i) := by
  induction calls generalizing runs with
  | nil => rfl
  | cons call calls ih =>
    obtain ⟨j, c⟩ := call
    obtain ⟨flag, runs', hstep⟩ : ∃ flag runs', stepAt runs j c = (flag, runs') := ⟨_, _, rfl⟩
    rw [interleave_cons hstep]
    by_cases hj : j = i
    · subst hj
      rw [own_cons_self, own_cons_self, feed_cons (step_of_stepAt_self hstep), ih]
    · rw [own_cons_of_ne hj, own_cons_of_ne hj, ← ih, apply_of_stepAt_of_ne hstep hj]

end Own

/-! ## What a run comes to -/

/-- A run that is fed an input from the start does what processing the input does. -/
theorem simulates_feed (A : Automaton) (cs : List Char) :
    ((new A).feed cs).2.Simulates cs ((new A).feed cs).1 where
  finish := by
    rw [finish_feed rfl, Automaton.process, String.toList_ofList]
    rfl
  length := length_feed _ cs
  answer n := by
    simp only [Automaton.getLast?_trace_process_eq_final_iff, String.toList_ofList]
    exact getElem?_feed_eq_true_iff rfl cs n

/-- **Interleaving makes no difference.** However the steps of several runs are mixed, each run ends
and answers as the machine does on the characters that the run was given; and for a run on an input
it makes no difference whether it is fed all of it or stopped at the first refusal. -/
theorem interleave_simulates (A : Automaton) (calls : List (ι × Char)) :
    (∀ i, ((interleave (fun _ => new A) calls).2 i).Simulates (own i calls)
      (own i (interleave (fun _ => new A) calls).1)) ∧
    ∀ input : String, ((new A).feedUntilRefused input.toList).finish = A.process input ∧
      (new A).feedUntilRefused input.toList = ((new A).feed input.toList).2 := by
  refine ⟨fun i => ?_, fun input => ?_⟩
  · have h := own_interleave (fun _ : ι => new A) calls i
    have hsimulates := simulates_feed A (own i calls)
    rwa [h] at hsimulates
  · have hsimulates := (simulates_feed A input.toList).finish
    rw [String.ofList_toList] at hsimulates
    rw [feedUntilRefused_eq]
    exact ⟨hsimulates, rfl⟩

end Run

end PDA
