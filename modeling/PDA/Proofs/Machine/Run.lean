import PDA.Machine.Run
import PDA.Proofs.Machine.Reach

/-!
# Runs that are fed piecemeal

A run that is fed its input one character at a time ends as the machine does on the whole input
(`Run.finish_feed`), and each of its answers says whether the machine gets past the characters so far
(`Run.getElem?_feed_eq_true_iff`). After a rejection nothing changes any more, so it makes no
difference whether feeding stops there (`Run.feedUntilRefused_eq`).
-/

namespace PDA

namespace Run

variable {A : Automaton}

/-- Feed characters up to the first one that is refused. -/
def feedUntilRefused (run : Run A) : List Char → Run A
  | [] => run
  | c :: cs =>
    match run.step c with
    | (true, run) => run.feedUntilRefused cs
    | (false, run) => run

/-- The run after it looked at `c` and took a rule that leads to `k`. -/
def moved (run : Run A) (c : Char) (k : Configuration) : Run A :=
  { run with
    config := k
    trace := run.trace.push (.consumed run.config c)
    stepCount := run.stepCount + 1 }

/-- The run after it looked at `c` and found no rule. -/
def stuck (run : Run A) (c : Char) : Run A :=
  { run with
    trace := (run.trace.push (.consumed run.config c)).push (.rejected run.config c)
    rejected := true }

variable {run run' : Run A} {c : Char} {flag : Bool}

/-! ## One step -/

/-- A run that was rejected takes no further step. -/
theorem step_of_rejected (h : run.rejected = true) (c : Char) : run.step c = (false, run) := by
  rw [step, if_pos h]

/-- All that a step can do. -/
theorem step_cases (run : Run A) (c : Char) :
    (run.rejected = true ∧ run.step c = (false, run)) ∨
    (run.rejected = false ∧ ∃ k, A.next? run.config c = some k ∧
      run.step c = (true, run.moved c k)) ∨
    (run.rejected = false ∧ A.next? run.config c = none ∧ run.step c = (false, run.stuck c)) := by
  cases hrun : run.rejected with
  | true => exact .inl ⟨rfl, step_of_rejected hrun c⟩
  | false =>
    cases hnext : A.next? run.config c with
    | none => exact .inr (.inr ⟨rfl, rfl, by simp [step, stuck, hrun, hnext]⟩)
    | some k => exact .inr (.inl ⟨rfl, k, rfl, by simp [step, moved, hrun, hnext]⟩)

/-! ## Many steps -/

theorem feed_cons (h : run.step c = (flag, run')) (cs : List Char) :
    run.feed (c :: cs) = (flag :: (run'.feed cs).1, (run'.feed cs).2) := by
  rw [feed, h]

/-- There is one answer for each character. -/
theorem length_feed (run : Run A) (cs : List Char) : (run.feed cs).1.length = cs.length := by
  induction cs generalizing run with
  | nil => rfl
  | cons c cs ih =>
    have hfeed := @feed_cons A run _ c _ rfl cs
    rw [hfeed, List.length_cons, List.length_cons, ih]

/-- A run that was rejected answers no to every character. -/
theorem feed_of_rejected (h : run.rejected = true) (cs : List Char) :
    run.feed cs = (List.replicate cs.length false, run) := by
  induction cs with
  | nil => rfl
  | cons c cs ih =>
    rw [feed_cons (step_of_rejected h c), ih]
    rfl

/-- Feeding a run and ending it gives what running the machine from its configuration gives. -/
theorem finish_feed (h : run.rejected = false) (cs : List Char) :
    (run.feed cs).2.finish =
      ⟨(A.runFrom run.config cs).accepted, run.trace.toList ++ (A.runFrom run.config cs).trace⟩ := by
  induction cs generalizing run with
  | nil =>
    rw [feed, finish, if_neg (by simp [h]), Array.toList_push]
    rfl
  | cons c cs ih =>
    rcases run.step_cases c with ⟨hrun, -⟩ | ⟨-, k, hnext, hstep⟩ | ⟨-, hnext, hstep⟩
    · simp [h] at hrun
    · have hrest := @ih (run.moved c k) h
      rw [feed_cons hstep, hrest, A.runFrom_cons_of_some hnext]
      simp [Outcome.after, moved]
    · -- from here on the run stays as it is
      rw [feed_cons hstep, feed_of_rejected rfl, A.runFrom_cons_of_none hnext]
      simp [finish, stuck]

/-- The answer to a character is yes exactly if the input can be used up as far as it. -/
theorem getElem?_feed_eq_true_iff (h : run.rejected = false) (cs : List Char) (n : Nat) :
    (run.feed cs).1[n]? = some true ↔
      n < cs.length ∧ ∃ k, A.reach? run.config (cs.take (n + 1)) = some k := by
  induction cs generalizing run n with
  | nil => simp [feed]
  | cons c cs ih =>
    rw [List.take_succ_cons, Automaton.reach?_cons, List.length_cons]
    rcases run.step_cases c with ⟨hrun, -⟩ | ⟨-, k, hnext, hstep⟩ | ⟨-, hnext, hstep⟩
    · simp [h] at hrun
    · rw [feed_cons hstep, hnext, Option.bind_some]
      cases n with
      | zero => simp
      | succ n =>
        have hrest := @ih (run.moved c k) h n
        rw [List.getElem?_cons_succ, hrest, Nat.add_lt_add_iff_right]
        rfl
    · have hflags : (run.feed (c :: cs)).1 = List.replicate (cs.length + 1) false := by
        rw [feed_cons hstep, feed_of_rejected rfl]
        rfl
      rw [hflags, hnext, Option.bind_none, List.getElem?_replicate]
      simp

/-- Whether feeding stops at the first no makes no difference to the run. -/
theorem feedUntilRefused_eq (run : Run A) (cs : List Char) :
    run.feedUntilRefused cs = (run.feed cs).2 := by
  induction cs generalizing run with
  | nil => rfl
  | cons c cs ih =>
    rcases run.step_cases c with ⟨hrun, hstep⟩ | ⟨-, k, -, hstep⟩ | ⟨-, -, hstep⟩
    · rw [feedUntilRefused, hstep, feed_cons hstep, feed_of_rejected hrun]
    · rw [feedUntilRefused, hstep, feed_cons hstep]
      exact ih (run.moved c k)
    · rw [feedUntilRefused, hstep, feed_cons hstep, feed_of_rejected rfl]

end Run

end PDA
