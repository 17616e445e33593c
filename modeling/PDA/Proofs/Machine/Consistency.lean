import PDA.Proofs.Machine.Run

/-!
# What a run knows about itself

The fields of a run agree with each other and with the answers that it gave, however long it is fed and
also after a rejection (`Run.Consistent.step`, `Run.Consistent.feed`).
-/

namespace PDA

namespace Run

variable {A : Automaton} {run : Run A} {answers : List Bool}

/-- The steps that look at characters, one for each configuration and character. -/
def consumedSteps (looked : List (Configuration × Char)) : List Step :=
  looked.map fun p => .consumed p.1 p.2

/-- What the fields of a run say about each other; `answers` are those that it has given. -/
structure Consistent (run : Run A) (answers : List Bool) : Prop where
  stepCount : run.stepCount = answers.count true
  going : run.rejected = false → ∃ looked, run.trace.toList = consumedSteps looked ∧
    looked.length = run.stepCount
  /-- The last character that was looked at is the one that was rejected, and nothing moved. -/
  stuck : run.rejected = true → ∃ looked c,
    run.trace.toList = consumedSteps looked ++ [.rejected run.config c] ∧
      looked.length = run.stepCount + 1 ∧ looked.getLast? = some (run.config, c)
  rejected : run.rejected = true ↔ false ∈ answers

theorem consumedSteps_concat (looked : List (Configuration × Char)) (k : Configuration) (c : Char) :
    consumedSteps (looked ++ [(k, c)]) = consumedSteps looked ++ [.consumed k c] := by
  rw [consumedSteps, List.map_append]
  rfl

/-- As long as characters are looked at, no step is terminal. -/
theorem isTerminal_of_mem_consumedSteps {looked : List (Configuration × Char)} {s : Step}
    (h : s ∈ consumedSteps looked) : s.isTerminal = false := by
  obtain ⟨p, -, rfl⟩ := List.mem_map.1 h
  rfl

/-- A run that has not read anything is consistent. -/
theorem consistent_new (A : Automaton) : (new A).Consistent [] where
  stepCount := rfl
  going _ := ⟨[], rfl, rfl⟩
  stuck h := absurd h Bool.false_ne_true
  rejected := by simp [new]

namespace Consistent

/-- A step that finds a rule keeps a run consistent, and answers that the run goes on. -/
theorem moved (h : run.Consistent answers) (hrun : run.rejected = false) (c : Char)
    (k : Configuration) : (run.moved c k).Consistent (answers ++ [true]) where
  stepCount := by
    rw [List.count_append, ← h.stepCount]
    rfl
  going _ := by
    obtain ⟨looked, htrace, hlength⟩ := h.going hrun
    refine ⟨looked ++ [(run.config, c)], ?_, ?_⟩
    · rw [consumedSteps_concat, ← htrace]
      exact Array.toList_push
    · rw [List.length_append, hlength]
      rfl
  stuck hmoved := absurd (hrun.symm.trans hmoved) Bool.false_ne_true
  rejected := by
    have hiff := h.rejected
    simp only [Run.moved, List.mem_append, List.mem_singleton, reduceCtorEq, or_false, hiff]

/-- A step that finds no rule keeps a run consistent, and answers that it is over. -/
theorem becomes_stuck (h : run.Consistent answers) (hrun : run.rejected = false) (c : Char) :
    (run.stuck c).Consistent (answers ++ [false]) where
  stepCount := by
    rw [List.count_append, ← h.stepCount]
    rfl
  going hstuck := absurd hstuck.symm Bool.false_ne_true
  stuck _ := by
    obtain ⟨looked, htrace, hlength⟩ := h.going hrun
    refine ⟨looked ++ [(run.config, c)], c, ?_, ?_, by simp [Run.stuck]⟩
    · simp only [Run.stuck, Array.toList_push, htrace, consumedSteps_concat]
    · rw [List.length_append, hlength]
      rfl
  rejected := by simp [Run.stuck]

/-- A run that was rejected stays consistent, and answers no again. -/
theorem still_stuck (h : run.Consistent answers) (hrun : run.rejected = true) :
    run.Consistent (answers ++ [false]) where
  stepCount := by
    rw [List.count_append, ← h.stepCount]
    rfl
  going := h.going
  stuck := h.stuck
  rejected := by simp [hrun]

/-- Whatever a step does, the fields stay in agreement. -/
theorem step (h : run.Consistent answers) (c : Char) :
    (run.step c).2.Consistent (answers ++ [(run.step c).1]) := by
  rcases run.step_cases c with ⟨hrun, hstep⟩ | ⟨hrun, k, -, hstep⟩ | ⟨hrun, -, hstep⟩
  · rw [hstep]
    exact h.still_stuck hrun
  · rw [hstep]
    exact h.moved hrun c k
  · rw [hstep]
    exact h.becomes_stuck hrun c

/-- However long a run is fed, it stays consistent. -/
theorem feed (h : run.Consistent answers) (cs : List Char) :
    (run.feed cs).2.Consistent (answers ++ (run.feed cs).1) := by
  induction cs generalizing run answers with
  | nil => simpa [Run.feed] using h
  | cons c cs ih =>
    have hrest := ih (h.step c)
    rw [List.append_assoc, List.singleton_append] at hrest
    exact hrest

/-- A run ends with one terminal step, in the configuration in which it is. -/
theorem trace_finish (h : run.Consistent answers) : ∃ looked last,
    run.finish.trace = consumedSteps looked ++ [last] ∧ last.isTerminal = true ∧
      last.config = run.config := by
  cases hrun : run.rejected with
  | true =>
    obtain ⟨looked, c, htrace, -, -⟩ := h.stuck hrun
    refine ⟨looked, .rejected run.config c, ?_, rfl, rfl⟩
    rw [finish, if_pos hrun, htrace]
  | false =>
    obtain ⟨looked, htrace, -⟩ := h.going hrun
    refine ⟨looked, .final run.config, ?_, rfl, rfl⟩
    rw [finish, if_neg (by simp [hrun]), Array.toList_push, htrace]

end Consistent

/-- **A run is always consistent.** Whatever a new run is fed, its fields agree with each other and with
its answers; once it is rejected nothing changes it; and it ends with its only terminal step. -/
theorem feed_new_consistent (A : Automaton) (cs : List Char) :
    ((new A).feed cs).2.Consistent ((new A).feed cs).1 ∧
    (((new A).feed cs).2.rejected = true →
      ∀ c, ((new A).feed cs).2.step c = (false, ((new A).feed cs).2)) ∧
    ∃ before last, ((new A).feed cs).2.finish.trace = before ++ [last] ∧
      (∀ s ∈ before, s.isTerminal = false) ∧ last.isTerminal = true ∧
      last.config = ((new A).feed cs).2.config := by
  have hconsistent : ((new A).feed cs).2.Consistent ((new A).feed cs).1 := (consistent_new A).feed cs
  obtain ⟨looked, last, htrace, hterminal, hconfig⟩ := hconsistent.trace_finish
  exact ⟨hconsistent, fun hrejected => step_of_rejected hrejected,
    _, last, htrace, fun _ => isTerminal_of_mem_consumedSteps, hterminal, hconfig⟩

/-- A coin opens the turnstile, and one push shuts it again. -/
def turnstile : Automaton where
  start := ⟨"shut"⟩
  rules := [⟨⟨"shut"⟩, some ⟨"c"⟩, none, ⟨"open"⟩, []⟩, ⟨⟨"open"⟩, some ⟨"p"⟩, none, ⟨"shut"⟩, []⟩]

/-- The second push is refused, and so is the coin that comes too late. -/
theorem feed_new_consistent_turnstile :
    ((new turnstile).feed ['c', 'p', 'p', 'c']).2.rejected = true ∧
    ((new turnstile).feed ['c', 'p', 'p', 'c']).2.stepCount = 2 ∧
    ((new turnstile).feed ['c', 'p', 'p', 'c']).2.Consistent [true, true, false, false] ∧
    ((new turnstile).feed ['c', 'p', 'p', 'c']).2.step 'c' =
      (false, ((new turnstile).feed ['c', 'p', 'p', 'c']).2) := by
  have hrejected : ((new turnstile).feed ['c', 'p', 'p', 'c']).2.rejected = true := by decide
  obtain ⟨hconsistent, hidle, -⟩ := feed_new_consistent turnstile ['c', 'p', 'p', 'c']
  exact ⟨hrejected, by decide, hconsistent, hidle hrejected 'c'⟩

end Run

end PDA
