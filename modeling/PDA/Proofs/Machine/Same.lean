import PDA.Automaton.Issue
import PDA.Proofs.OrderedSet
import PDA.Proofs.Machine.Reach

/-!
# What a run depends on

A run depends on the start state and on the rules; the verdict depends on the accept states as well, but not
on their order. So automata that are equal up to the order of their sets cannot be told apart by running
them, and the names that they use without declaring them are the same (`Automaton.process_same`).
-/

namespace PDA

namespace Automaton

variable {A B : Automaton}

/-- The order in which accept states are listed does not matter to what they are. -/
theorem Same.accepting_iff (h : A.Same B) (q : State) : A.Accepting q ↔ B.Accepting q := by
  obtain ⟨-, -, -, -, haccept, -⟩ := h
  exact OrderedSet.same_iff.1 haccept q

/-! ## Runs -/

/-- A trace depends on the start state and the rules only. -/
theorem trace_process_congr (hstart : A.start = B.start) (hrules : A.rules = B.rules)
    (input : String) : (A.process input).trace = (B.process input).trace := by
  have hrule : ∀ k c, A.ruleAt? k c = B.ruleAt? k c := by
    intro k c
    rw [ruleAt?, ruleAt?, findRule?, findRule?, hrules]
  have hinitial : A.initial = B.initial := by rw [initial, initial, hstart]
  rw [process, process, ← hinitial]
  exact trace_runFrom_congr_of_invariant (P := fun _ => True) (fun k c _ => hrule k c)
    (fun _ _ _ _ _ => trivial) trivial input.toList

/-- A verdict depends on the start state, the rules and the set of accept states only. -/
theorem accepted_process_congr (hstart : A.start = B.start) (hrules : A.rules = B.rules)
    (haccept : ∀ q, A.Accepting q ↔ B.Accepting q) (input : String) :
    (A.process input).accepted = (B.process input).accepted := by
  have htrace := trace_process_congr hstart hrules input
  have hinitial : A.initial = B.initial := by rw [initial, initial, hstart]
  rw [process, process, ← hinitial] at htrace ⊢
  exact accepted_runFrom_congr htrace haccept

/-! ## Names that are not declared -/

/-- What is undeclared depends on the set of states only. -/
theorem undeclared_congr (h : A.states.Same B.states) (qs : List State) :
    A.undeclared qs = B.undeclared qs := by
  refine List.filter_congr fun q _ => ?_
  rw [decide_eq_decide, OrderedSet.same_iff.1 h q]

/-- The accept states are gone through in order, so of the order of the issues only that is left open. -/
theorem Same.issues_perm (h : A.Same B) : A.issues.Perm B.issues := by
  obtain ⟨hstates, -, -, hstart, haccept, hrules⟩ := h
  have hundeclared : A.undeclared = B.undeclared := funext (undeclared_congr hstates)
  have haccepts : (B.undeclared A.accept.toList).Perm (B.undeclared B.accept.toList) :=
    haccept.toList_perm.filter _
  rw [issues, issues, hstart, hrules, hundeclared]
  exact ((haccepts.map Issue.accept).append_left _).append_right _

/-- **What a run depends on.** With the same start state and the same rules the traces are the same, and with
the same accept states the verdicts. Automata that are equal up to the order of their sets have the same
outcomes, and the same issues up to their order. -/
theorem process_same (A B : Automaton) :
    (A.start = B.start → A.rules = B.rules → ∀ input,
      (A.process input).trace = (B.process input).trace ∧
        ((∀ q, q ∈ A.accept ↔ q ∈ B.accept) →
          (A.process input).accepted = (B.process input).accepted)) ∧
    (A.Same B → (∀ input, A.process input = B.process input) ∧ A.issues.Perm B.issues) := by
  constructor
  · intro hstart hrules input
    exact ⟨trace_process_congr hstart hrules input,
      fun haccept => accepted_process_congr hstart hrules haccept input⟩
  · intro h
    have hstart : A.start = B.start := h.2.2.2.1
    have hrules : A.rules = B.rules := h.2.2.2.2.2
    refine ⟨fun input => ?_, h.issues_perm⟩
    have htrace := trace_process_congr hstart hrules input
    have haccepted := accepted_process_congr hstart hrules h.accepting_iff input
    exact Outcome.ext haccepted htrace

/-- An automaton that does not declare its start state. -/
def undeclaredStart (accept : List State) : Automaton where
  states := .ofList [⟨"t"⟩, ⟨"u"⟩]
  start := ⟨"s"⟩
  accept := .ofList accept
  rules := [⟨⟨"s"⟩, some ⟨"a"⟩, none, ⟨"t"⟩, []⟩, ⟨⟨"t"⟩, none, none, ⟨"s"⟩, [⟨"X"⟩]⟩]

/-- Three accept states, of which two are not declared. -/
def acceptForwards : Automaton := undeclaredStart [⟨"s"⟩, ⟨"t"⟩, ⟨"v"⟩]

/-- The same accept states in another order, one of them listed twice. -/
def acceptBackwards : Automaton := undeclaredStart [⟨"v"⟩, ⟨"t"⟩, ⟨"s"⟩, ⟨"v"⟩]

/-- No accept states. -/
def acceptNothing : Automaton := undeclaredStart []

/-- The accept states are listed in another order, and with them the issues, and nothing else changes.
Without accept states the trace is still the same. -/
theorem process_same_acceptBackwards :
    acceptForwards.Same acceptBackwards ∧
      acceptForwards.process "aa" = acceptBackwards.process "aa" ∧
      acceptForwards.issues ≠ acceptBackwards.issues ∧
      acceptForwards.issues.Perm acceptBackwards.issues ∧
      acceptForwards.start = acceptNothing.start ∧ acceptForwards.rules = acceptNothing.rules ∧
      (acceptForwards.process "aa").trace = (acceptNothing.process "aa").trace ∧
      (acceptForwards.process "aa").accepted ≠ (acceptNothing.process "aa").accepted := by
  have hsame : acceptForwards.Same acceptBackwards := by decide
  obtain ⟨hprocess, hissues⟩ := (process_same acceptForwards acceptBackwards).2 hsame
  obtain ⟨htrace, -⟩ := (process_same acceptForwards acceptNothing).1 rfl rfl "aa"
  exact ⟨hsame, hprocess "aa", by decide, hissues, rfl, rfl, htrace, by decide⟩

end Automaton

end PDA
