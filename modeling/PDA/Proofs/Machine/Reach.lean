import PDA.Machine.Process

/-!
# Where a machine gets to

`Automaton.reach?` follows the machine over an input without keeping a trace. The outcome of a run is
told by where the machine gets to: it accepts if it gets to the end in an accept state
(`accepts_iff_reach?`), and the last step of its trace shows the configuration at the end
(`getLast?_trace_process_eq_final_iff`). What a step keeps holds wherever the machine gets to
(`reach?_induction`, `trace_runFrom_induction`).
-/

namespace PDA

namespace Automaton

variable {A : Automaton} {k k' : Configuration} {c : Char} {cs ds : List Char}

/-- The configuration after some characters; `none` if the machine gets stuck on one of them. -/
def reach? (A : Automaton) (k : Configuration) : List Char → Option Configuration
  | [] => some k
  | c :: cs => (A.next? k c).bind fun k' => A.reach? k' cs

@[simp] theorem reach?_nil : A.reach? k [] = some k := rfl

/-- An input is used up character by character. -/
theorem reach?_cons : A.reach? k (c :: cs) = (A.next? k c).bind fun k' => A.reach? k' cs := rfl

theorem reach?_singleton : A.reach? k [c] = A.next? k c := by
  rw [reach?_cons]
  cases A.next? k c <;> rfl

/-- An input may be used up in two goes. -/
theorem reach?_append :
    A.reach? k (cs ++ ds) = (A.reach? k cs).bind fun k' => A.reach? k' ds := by
  induction cs generalizing k with
  | nil => rfl
  | cons c cs ih =>
    rw [List.cons_append, reach?_cons, reach?_cons]
    cases A.next? k c with
    | none => rfl
    | some k₁ => exact ih

/-- If the first part of an input is used up, it is the second part that counts. -/
theorem reach?_append_of_some (h : A.reach? k cs = some k') (ds : List Char) :
    A.reach? k (cs ++ ds) = A.reach? k' ds := by
  rw [reach?_append, h, Option.bind_some]

/-- What one step keeps, a run keeps. -/
theorem reach?_induction {P : Configuration → List Char → Prop}
    (hstep : ∀ k k' cs c, P k cs → A.next? k c = some k' → P k' (cs ++ [c])) (hk : P k cs)
    (h : A.reach? k ds = some k') : P k' (cs ++ ds) := by
  induction ds generalizing k cs with
  | nil =>
    obtain rfl : k = k' := Option.some.inj h
    rwa [List.append_nil]
  | cons d ds ih =>
    rw [reach?_cons, Option.bind_eq_some_iff] at h
    obtain ⟨k₁, hnext, hreach⟩ := h
    have hk₁ : P k₁ (cs ++ [d]) := hstep k k₁ cs d hk hnext
    have hrest := ih hk₁ hreach
    rwa [List.append_assoc, List.singleton_append] at hrest

theorem trace_runFrom_cons_of_some (h : A.next? k c = some k') (cs : List Char) :
    (A.runFrom k (c :: cs)).trace = .consumed k c :: (A.runFrom k' cs).trace := by
  rw [A.runFrom_cons_of_some h, Outcome.after]

/-! ## Invariants -/

/-- A step takes a rule that applies. -/
theorem exists_rule_of_next? (h : A.next? k c = some k') :
    ∃ r ∈ A.rules, r.Applies k.state c k.top ∧ k' = k.take r := by
  obtain ⟨r, hr, htake⟩ := Option.map_eq_some_iff.1 h
  exact ⟨r, List.mem_of_find?_eq_some hr, A.applies_of_ruleAt? hr, htake.symm⟩

/-- What one step keeps holds in every step of a trace. -/
theorem trace_runFrom_induction {P : Configuration → Prop}
    (hstep : ∀ k k' c, P k → A.next? k c = some k' → P k') (hk : P k) :
    ∀ s ∈ (A.runFrom k cs).trace, P s.config := by
  induction cs generalizing k with
  | nil => simpa [Step.config] using hk
  | cons c cs ih =>
    cases hnext : A.next? k c with
    | none => simpa [A.runFrom_cons_of_none hnext, Step.config] using hk
    | some k₁ =>
      have hrest := ih (hstep k k₁ c hk hnext)
      rw [trace_runFrom_cons_of_some hnext]
      exact List.forall_mem_cons.2 ⟨hk, hrest⟩

/-- Where the same rules are found the traces are the same; it is enough to look at configurations with a
property that is kept. -/
theorem trace_runFrom_congr_of_invariant {B : Automaton} {P : Configuration → Prop}
    (hrule : ∀ k c, P k → A.ruleAt? k c = B.ruleAt? k c)
    (hstep : ∀ k k' c, P k → A.next? k c = some k' → P k') (hk : P k) (cs : List Char) :
    (A.runFrom k cs).trace = (B.runFrom k cs).trace := by
  induction cs generalizing k with
  | nil => rfl
  | cons c cs ih =>
    have hnext : A.next? k c = B.next? k c := by rw [next?, next?, hrule k c hk]
    cases hA : A.next? k c with
    | none => rw [A.runFrom_cons_of_none hA, B.runFrom_cons_of_none (hnext ▸ hA)]
    | some k₁ =>
      rw [trace_runFrom_cons_of_some hA, trace_runFrom_cons_of_some (hnext ▸ hA),
        ih (hstep k k₁ c hk hA)]

/-! ## Outcomes -/

/-- An input is accepted exactly if it is used up in an accept state. -/
theorem accepted_runFrom_iff :
    (A.runFrom k cs).accepted = true ↔ ∃ k', A.reach? k cs = some k' ∧ A.Accepting k'.state := by
  induction cs generalizing k with
  | nil => simp
  | cons c cs ih =>
    rw [reach?_cons]
    cases hnext : A.next? k c with
    | none => simp [A.runFrom_cons_of_none hnext]
    | some k₁ =>
      rw [A.runFrom_cons_of_some hnext, Option.bind_some]
      exact ih

/-- Whatever happens to a character, it is looked at first. -/
theorem exists_trace_runFrom_cons (A : Automaton) (k : Configuration) (c : Char) (cs : List Char) :
    ∃ steps, (A.runFrom k (c :: cs)).trace = .consumed k c :: steps := by
  cases hnext : A.next? k c with
  | none => exact ⟨_, by rw [A.runFrom_cons_of_none hnext]⟩
  | some k₁ => exact ⟨_, trace_runFrom_cons_of_some hnext cs⟩

/-- Every trace has a last step. -/
theorem trace_runFrom_ne_nil : (A.runFrom k cs).trace ≠ [] := by
  cases cs with
  | nil => simp
  | cons c cs =>
    obtain ⟨steps, hsteps⟩ := A.exists_trace_runFrom_cons k c cs
    simp [hsteps]

/-- A step that goes on does not change how the trace ends. -/
theorem getLast?_trace_runFrom_cons (h : A.next? k c = some k') (cs : List Char) :
    (A.runFrom k (c :: cs)).trace.getLast? = (A.runFrom k' cs).trace.getLast? := by
  have hne : (A.runFrom k' cs).trace ≠ [] := trace_runFrom_ne_nil
  have htail := List.getLast?_eq_some_getLast hne
  rw [trace_runFrom_cons_of_some h, List.getLast?_cons, htail, Option.getD_some]

/-- The last step says where the input was used up. -/
theorem getLast?_trace_runFrom_eq_final_iff :
    (A.runFrom k cs).trace.getLast? = some (.final k') ↔ A.reach? k cs = some k' := by
  induction cs generalizing k with
  | nil => simp
  | cons c cs ih =>
    rw [reach?_cons]
    cases hnext : A.next? k c with
    | none => simp [A.runFrom_cons_of_none hnext]
    | some k₁ => rw [getLast?_trace_runFrom_cons hnext, Option.bind_some, ih]

/-- The trace tells the verdict, given the accept states. -/
theorem accepted_runFrom_iff_trace : (A.runFrom k cs).accepted = true ↔
    ∃ k', (A.runFrom k cs).trace.getLast? = some (.final k') ∧ A.Accepting k'.state := by
  rw [accepted_runFrom_iff]
  exact exists_congr fun k' => and_congr_left' getLast?_trace_runFrom_eq_final_iff.symm

/-- The verdict only depends on the trace and on the accept states. -/
theorem accepted_runFrom_congr {B : Automaton}
    (htrace : (A.runFrom k cs).trace = (B.runFrom k cs).trace)
    (haccept : ∀ q, A.Accepting q ↔ B.Accepting q) :
    (A.runFrom k cs).accepted = (B.runFrom k cs).accepted := by
  rw [Bool.eq_iff_iff, accepted_runFrom_iff_trace, accepted_runFrom_iff_trace, htrace]
  exact exists_congr fun k' => and_congr_right' (haccept k'.state)

/-- Two automata run alike if they take the same rules in all configurations with a property that every step
keeps. -/
theorem runFrom_congr_of_invariant {B : Automaton} {P : Configuration → Prop}
    (hrule : ∀ k c, P k → A.ruleAt? k c = B.ruleAt? k c)
    (hstep : ∀ k k' c, P k → A.next? k c = some k' → P k')
    (haccept : ∀ q, A.Accepting q ↔ B.Accepting q) (hk : P k) (cs : List Char) :
    A.runFrom k cs = B.runFrom k cs := by
  have htrace := trace_runFrom_congr_of_invariant hrule hstep hk cs
  exact Outcome.ext (accepted_runFrom_congr htrace haccept) htrace

/-- An input is accepted exactly if it is used up in an accept state. -/
theorem accepts_iff_reach? {input : String} : A.Accepts input ↔
    ∃ k, A.reach? A.initial input.toList = some k ∧ A.Accepting k.state :=
  accepted_runFrom_iff

/-- The last step says where the input was used up. -/
theorem getLast?_trace_process_eq_final_iff {input : String} :
    (A.process input).trace.getLast? = some (.final k) ↔
      A.reach? A.initial input.toList = some k :=
  getLast?_trace_runFrom_eq_final_iff

end Automaton

end PDA
