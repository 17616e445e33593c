import Mathlib.Algebra.BigOperators.Group.List.Basic
import Mathlib.Algebra.Order.Ring.Int
import PDA.Proofs.Machine.Run

/-!
# The rules that a run takes

A rule is only taken where the symbol that it pops is on top of the stack, so a pop always removes just
this symbol, and the depth of the stack is the sum of what the rules taken so far say
(`length_stack_stops`). What lies below the lowest point of a part of a run is the same before and after
that part (`take_stack_stops`).
-/

namespace PDA

/-- A rule taken in a configuration. -/
structure Transition where
  config : Configuration
  rule : Rule
  deriving DecidableEq

namespace Transition

/-- The stack after the pop and before the push. -/
def rest (t : Transition) : List Symbol :=
  if t.rule.pop.isSome then t.config.stack.dropLast else t.config.stack

/-- The configuration after the transition. -/
def result (t : Transition) : Configuration := t.config.take t.rule

/-- A pop removes the symbol that it is meant to remove, and nothing else is removed. -/
structure Clean (t : Transition) : Prop where
  pop : ∀ a, t.rule.pop = some a → t.config.stack = t.rest ++ [a]
  spare : t.rule.pop = none → t.rest = t.config.stack
  push : t.result.stack = t.rest ++ t.rule.push
  depth : (t.result.stack.length : Int) = t.config.stack.length + t.rule.depthChange

variable {t : Transition} {c : Char} {d : Nat}

/-- A rule that applies takes off what it says, and puts on what it says. -/
theorem clean_of_applies (h : t.rule.Applies t.config.state c t.config.top) : t.Clean := by
  have hpop : ∀ a, t.rule.pop = some a → t.config.stack = t.rest ++ [a] := by
    intro a ha
    have htop : t.config.stack.getLast? = some a := h.2.2 a ha
    rw [rest, ha, Option.isSome_some, if_pos rfl, List.dropLast_append_getLast? a htop]
  have hspare : t.rule.pop = none → t.rest = t.config.stack := by
    intro hnone
    rw [rest, hnone, Option.isSome_none, if_neg Bool.false_ne_true]
  have hpush : t.result.stack = t.rest ++ t.rule.push := rfl
  refine ⟨hpop, hspare, hpush, ?_⟩
  rw [hpush, List.length_append, Rule.depthChange]
  cases hrule : t.rule.pop with
  | none =>
    rw [hspare hrule]
    simp
  | some a =>
    have hlength := congrArg List.length (hpop a hrule)
    rw [List.length_append, List.length_singleton] at hlength
    rw [Option.toList_some, List.length_singleton]
    omega

/-- What a transition leaves untouched is the lower part of the stack. -/
theorem rest_isPrefix (t : Transition) : t.rest <+: t.config.stack := by
  rw [rest]
  split
  · exact List.dropLast_prefix _
  · exact List.prefix_rfl

/-- What is left by the pop is not touched. -/
theorem take_stack_result (h : d ≤ t.rest.length) :
    t.result.stack.take d = t.config.stack.take d := by
  obtain ⟨popped, hpopped⟩ := t.rest_isPrefix
  have hpush : t.result.stack = t.rest ++ t.rule.push := rfl
  rw [hpush, List.take_append_of_le_length h, ← hpopped, List.take_append_of_le_length h]

end Transition

namespace Automaton

variable {A : Automaton} {k : Configuration} {c : Char} {cs : List Char} {r : Rule} {t : Transition}
  {d i j : Nat}

/-- The transitions of a run, in order. -/
def transitions (A : Automaton) (k : Configuration) : List Char → List Transition
  | [] => []
  | c :: cs =>
    match A.ruleAt? k c with
    | some r => ⟨k, r⟩ :: A.transitions (k.take r) cs
    | none => []

/-- The configurations of a run: the one in which it starts, and the one after each transition. -/
def stops (A : Automaton) (k : Configuration) (cs : List Char) : List Configuration :=
  k :: (A.transitions k cs).map Transition.result

/-- How low the stack gets, right after a pop, in the transitions after the first `j` ones up to the
`i`-th one. -/
def lowest? (ts : List Transition) (j i : Nat) : Option Nat :=
  (((ts.take i).drop j).map fun t => t.rest.length).min?

/-! ## Transitions and traces -/

/-- The rule that is taken is the first transition, and the others come after it. -/
theorem transitions_cons_of_some (h : A.ruleAt? k c = some r) (cs : List Char) :
    A.transitions k (c :: cs) = ⟨k, r⟩ :: A.transitions (k.take r) cs := by
  simp only [transitions, h]

/-- There are no transitions where no rule is found. -/
theorem transitions_cons_of_none (h : A.ruleAt? k c = none) (cs : List Char) :
    A.transitions k (c :: cs) = [] := by
  simp only [transitions, h]

/-- The configurations are passed one after the other. -/
theorem stops_cons_of_some (h : A.ruleAt? k c = some r) (cs : List Char) :
    A.stops k (c :: cs) = k :: A.stops (k.take r) cs := by
  rw [stops, transitions_cons_of_some h]
  rfl

theorem next?_eq_some_take (h : A.ruleAt? k c = some r) : A.next? k c = some (k.take r) := by
  rw [next?, h, Option.map_some]

theorem next?_eq_none_of_ruleAt? (h : A.ruleAt? k c = none) : A.next? k c = none := by
  rw [next?, h, Option.map_none]

/-- The transition at a position is that of the character at this position: the trace looks at the character
in its configuration, and its rule is the one that is taken there. -/
theorem getElem?_transitions_eq_some_iff : (A.transitions k cs)[i]? = some t ↔
    ∃ c, cs[i]? = some c ∧ (A.runFrom k cs).trace[i]? = some (.consumed t.config c) ∧
      A.ruleAt? t.config c = some t.rule := by
  induction cs generalizing k i with
  | nil => simp [transitions]
  | cons c cs ih =>
    cases hrule : A.ruleAt? k c with
    | none =>
      rw [transitions_cons_of_none hrule, A.runFrom_cons_of_none (next?_eq_none_of_ruleAt? hrule)]
      constructor
      · simp
      · -- the character was looked at, but no rule was taken
        rintro ⟨c', -, hconsumed, htaken⟩
        rcases i with _ | _ | i
        · obtain ⟨rfl, rfl⟩ : k = t.config ∧ c = c' := by simpa using hconsumed
          simp [hrule] at htaken
        · simp at hconsumed
        · simp at hconsumed
    | some r =>
      rw [transitions_cons_of_some hrule, A.runFrom_cons_of_some (next?_eq_some_take hrule)]
      cases i with
      | zero =>
        obtain ⟨config, rule⟩ := t
        simp only [List.getElem?_cons_zero, Outcome.after, Option.some.injEq, Transition.mk.injEq,
          Step.consumed.injEq]
        constructor
        · rintro ⟨rfl, rfl⟩
          exact ⟨c, rfl, ⟨rfl, rfl⟩, hrule⟩
        · rintro ⟨c', rfl, ⟨rfl, -⟩, htaken⟩
          rw [hrule] at htaken
          exact ⟨rfl, Option.some.inj htaken⟩
      | succ i => exact ih

/-- The stops are the configurations of the steps of the trace. -/
theorem getElem?_stops (h : i < (A.stops k cs).length) :
    (A.runFrom k cs).trace[i]?.map Step.config = (A.stops k cs)[i]? := by
  induction cs generalizing k i with
  | nil =>
    obtain rfl : i = 0 := by simpa [stops, transitions] using h
    rfl
  | cons c cs ih =>
    cases hrule : A.ruleAt? k c with
    | none =>
      obtain rfl : i = 0 := by simpa [stops, transitions_cons_of_none hrule] using h
      rw [A.runFrom_cons_of_none (next?_eq_none_of_ruleAt? hrule)]
      rfl
    | some r =>
      rw [stops_cons_of_some hrule] at h ⊢
      rw [A.runFrom_cons_of_some (next?_eq_some_take hrule)]
      cases i with
      | zero => rfl
      | succ i => exact ih (Nat.lt_of_succ_lt_succ h)

/-- A run that is fed its input piecemeal takes these transitions, and no others. -/
theorem feed_transitions {run : Run A} (h : run.rejected = false) (cs : List Char) :
    (run.feed cs).2.stepCount = run.stepCount + (A.transitions run.config cs).length ∧
      (A.stops run.config cs)[(A.transitions run.config cs).length]? =
        some (run.feed cs).2.config := by
  induction cs generalizing run with
  | nil => exact ⟨rfl, rfl⟩
  | cons c cs ih =>
    rcases run.step_cases c with ⟨hrun, -⟩ | ⟨-, k, hnext, hstep⟩ | ⟨-, hnext, hstep⟩
    · simp [h] at hrun
    · obtain ⟨r, hrule, rfl⟩ := Option.map_eq_some_iff.1 hnext
      obtain ⟨hcount, hconfig⟩ := @ih (run.moved c (run.config.take r)) h
      rw [Run.feed_cons hstep, transitions_cons_of_some hrule, stops_cons_of_some hrule]
      refine ⟨?_, hconfig⟩
      rw [hcount, List.length_cons]
      simp only [Run.moved]
      omega
    · have hrule : A.ruleAt? run.config c = none := Option.map_eq_none_iff.1 hnext
      rw [Run.feed_cons hstep, Run.feed_of_rejected rfl, stops, transitions_cons_of_none hrule]
      exact ⟨rfl, rfl⟩

/-! ## The stack along a run -/

/-- All transitions of a run are clean. -/
theorem clean_of_mem_transitions (h : t ∈ A.transitions k cs) : t.Clean := by
  obtain ⟨i, hi⟩ := List.mem_iff_getElem?.1 h
  obtain ⟨c, -, -, hrule⟩ := getElem?_transitions_eq_some_iff.1 hi
  exact Transition.clean_of_applies (A.applies_of_ruleAt? hrule)

/-- There is one stop more than there are transitions. -/
theorem length_stops : (A.stops k cs).length = (A.transitions k cs).length + 1 := by
  rw [stops, List.length_cons, List.length_map]

/-- Each transition is made where the one before it led to. -/
theorem stops_of_getElem?_transitions (h : (A.transitions k cs)[i]? = some t) :
    (A.stops k cs)[i]? = some t.config ∧ (A.stops k cs)[i + 1]? = some t.result := by
  obtain ⟨hi, -⟩ := List.getElem?_eq_some_iff.1 h
  obtain ⟨c, -, hconsumed, -⟩ := getElem?_transitions_eq_some_iff.1 h
  constructor
  · rw [← getElem?_stops (by rw [length_stops]; omega), hconsumed]
    rfl
  · rw [stops, List.getElem?_cons_succ, List.getElem?_map, h, Option.map_some]

/-- Every stop but the first is the result of the transition before it. -/
theorem exists_transition_of_getElem?_stops {k' : Configuration}
    (h : (A.stops k cs)[i + 1]? = some k') :
    ∃ t, (A.transitions k cs)[i]? = some t ∧ t.result = k' := by
  rw [stops, List.getElem?_cons_succ, List.getElem?_map] at h
  exact Option.map_eq_some_iff.1 h

/-- The depth of the stack is what the transitions so far have added up to. -/
theorem length_stack_stops {k' : Configuration} (h : (A.stops k cs)[i]? = some k') :
    (k'.stack.length : Int) =
      k.stack.length + (((A.transitions k cs).take i).map fun t => t.rule.depthChange).sum := by
  induction i generalizing k' with
  | zero =>
    obtain rfl : k = k' := Option.some.inj h
    simp
  | succ i ih =>
    obtain ⟨t, ht, rfl⟩ := exists_transition_of_getElem?_stops h
    have hdepth := (clean_of_mem_transitions (List.mem_of_getElem? ht)).depth
    have hbefore := ih (stops_of_getElem?_transitions ht).1
    rw [List.take_add_one, ht, Option.toList_some, List.map_append, List.sum_append, List.map_singleton,
      List.sum_singleton, hdepth, hbefore, add_assoc]

/-- From the start on the depth of the stack is the sum of all changes. -/
theorem length_stack_stops_initial {k' : Configuration} (h : (A.stops A.initial cs)[i]? = some k') :
    (k'.stack.length : Int) =
      (((A.transitions A.initial cs).take i).map fun t => t.rule.depthChange).sum := by
  have hempty : (A.initial.stack.length : Int) = 0 := rfl
  rw [length_stack_stops h, hempty, zero_add]

/-- What is below the lowest point is not touched. -/
theorem take_stack_stops {k₁ k₂ : Configuration} (hji : j ≤ i)
    (hlow : ∀ n t, j ≤ n → n < i → (A.transitions k cs)[n]? = some t → d ≤ t.rest.length)
    (hj : (A.stops k cs)[j]? = some k₁) (hi : (A.stops k cs)[i]? = some k₂) :
    k₂.stack.take d = k₁.stack.take d := by
  induction i, hji using Nat.le_induction generalizing k₂ with
  | base =>
    obtain rfl : k₁ = k₂ := Option.some.inj (hj.symm.trans hi)
    rfl
  | succ i hji ih =>
    obtain ⟨t, ht, rfl⟩ := exists_transition_of_getElem?_stops hi
    have hbefore : t.config.stack.take d = k₁.stack.take d :=
      ih (fun n t hjn hni => hlow n t hjn (Nat.lt_succ_of_lt hni)) (stops_of_getElem?_transitions ht).1
    rw [Transition.take_stack_result (hlow i t hji (Nat.lt_succ_self i) ht), hbefore]

theorem mem_segment_iff {ts : List Transition} :
    t ∈ (ts.take i).drop j ↔ ∃ n, j ≤ n ∧ n < i ∧ ts[n]? = some t := by
  rw [List.mem_iff_getElem?]
  simp only [List.getElem?_drop, List.getElem?_take, Option.ite_none_right_eq_some]
  constructor
  · rintro ⟨n, hn, ht⟩
    exact ⟨j + n, Nat.le_add_right j n, hn, ht⟩
  · rintro ⟨n, hjn, hni, ht⟩
    refine ⟨n - j, ?_⟩
    rw [Nat.add_sub_cancel' hjn]
    exact ⟨hni, ht⟩

/-- No transition of a segment goes below its lowest depth. -/
theorem le_length_rest_of_lowest? {ts : List Transition} (h : lowest? ts j i = some d) {n : Nat}
    (hjn : j ≤ n) (hni : n < i) (ht : ts[n]? = some t) : d ≤ t.rest.length :=
  (List.min?_eq_some_iff.1 h).2 _ (List.mem_map_of_mem (mem_segment_iff.2 ⟨n, hjn, hni, ht⟩))

/-- A segment that is not empty has a lowest depth. -/
theorem exists_lowest? {ts : List Transition} (hji : j < i) (hi : i ≤ ts.length) :
    ∃ d, lowest? ts j i = some d := by
  have ht : ts[j]? = some ts[j] := List.getElem?_eq_getElem (hji.trans_le hi)
  have hmem : ts[j] ∈ (ts.take i).drop j := mem_segment_iff.2 ⟨j, le_rfl, hji, ht⟩
  rw [← Option.isSome_iff_exists, lowest?, List.isSome_min?_iff, ne_eq, List.map_eq_nil_iff]
  exact List.ne_nil_of_mem hmem

/-- The transitions `ts` and the configurations `stops` before and after them are those of a run, and the
run handles its stack with discipline. -/
structure Disciplined (A : Automaton) (input : String) (ts : List Transition)
    (stops : List Configuration) : Prop where
  /-- The transitions are made on the characters of the input that a rule is found for. -/
  taken : ∀ (i : Nat) (t : Transition), ts[i]? = some t ↔ ∃ c, input.toList[i]? = some c ∧
    (A.process input).trace[i]? = some (.consumed t.config c) ∧ A.ruleAt? t.config c = some t.rule
  length : stops.length = ts.length + 1
  /-- The trace shows the configurations. -/
  shown : ∀ i < stops.length, (A.process input).trace[i]?.map Step.config = stops[i]?
  /-- The same transitions are made if the input is fed character by character. -/
  fed : ((Run.new A).feed input.toList).2.stepCount = ts.length ∧
    stops[ts.length]? = some ((Run.new A).feed input.toList).2.config
  between : ∀ (i : Nat) (t : Transition), ts[i]? = some t →
    stops[i]? = some t.config ∧ stops[i + 1]? = some t.result
  clean : ∀ t ∈ ts, t.Clean
  /-- The depth is what the rules taken so far add up to. -/
  depth : ∀ (i : Nat) (k : Configuration), stops[i]? = some k →
    (k.stack.length : Int) = ((ts.take i).map fun t => t.rule.depthChange).sum
  nonneg : ∀ i ≤ ts.length, 0 ≤ ((ts.take i).map fun t => t.rule.depthChange).sum
  /-- What is below the lowest point of a part of the run is there before and after it. -/
  untouched : ∀ (j i : Nat) (k₁ k₂ : Configuration), j < i → stops[j]? = some k₁ → stops[i]? = some k₂ →
    ∃ d, lowest? ts j i = some d ∧ d ≤ k₁.stack.length ∧ d ≤ k₂.stack.length ∧
      k₁.stack.take d = k₂.stack.take d

/-- **The stack over a whole run.** -/
theorem process_disciplined (A : Automaton) (input : String) :
    A.Disciplined input (A.transitions A.initial input.toList) (A.stops A.initial input.toList) where
  taken i t := getElem?_transitions_eq_some_iff
  length := length_stops
  shown i hi := getElem?_stops hi
  fed := by
    obtain ⟨hcount, hconfig⟩ := @feed_transitions A (Run.new A) rfl input.toList
    exact ⟨hcount.trans (Nat.zero_add _), hconfig⟩
  between i t ht := stops_of_getElem?_transitions ht
  clean t ht := clean_of_mem_transitions ht
  depth i k hk := length_stack_stops_initial hk
  nonneg i hi := by
    have hlt : i < (A.stops A.initial input.toList).length := by rw [length_stops]; omega
    rw [← length_stack_stops_initial (List.getElem?_eq_getElem hlt)]
    exact Int.natCast_nonneg _
  untouched j i k₁ k₂ hji hj hi := by
    obtain ⟨i, rfl⟩ := Nat.exists_eq_add_one_of_ne_zero (Nat.ne_zero_of_lt hji)
    obtain ⟨last, hlast, rfl⟩ := exists_transition_of_getElem?_stops hi
    have hlength : i + 1 ≤ (A.transitions A.initial input.toList).length :=
      (List.getElem?_eq_some_iff.1 hlast).1
    have hfirst := List.getElem?_eq_getElem (hji.trans_le hlength)
    have hk₁ := (stops_of_getElem?_transitions hfirst).1
    obtain rfl := Option.some.inj (hj.symm.trans hk₁)
    obtain ⟨d, hd⟩ := exists_lowest? hji hlength
    have hd₁ := le_length_rest_of_lowest? hd le_rfl hji hfirst
    have hd₂ := le_length_rest_of_lowest? hd (Nat.le_of_lt_succ hji) (Nat.lt_succ_self i) hlast
    refine ⟨d, hd, hd₁.trans (Transition.rest_isPrefix _).length_le,
      hd₂.trans (List.prefix_append _ _).length_le, ?_⟩
    exact (take_stack_stops hji.le (fun n t => le_length_rest_of_lowest? hd) hj hi).symm

end Automaton

end PDA
