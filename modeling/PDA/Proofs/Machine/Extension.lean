import PDA.Proofs.Machine.Reach

/-!
# Rules that are added at the end

Rules at the end of the list come last, so they are taken only where no other rule applies. A run that gets
through its input is the same with them (`runFrom_appendRules`), and a run that gets stuck is the same up
to the character on which it does (`dropLast_trace_runFrom_prefix`).
-/

namespace PDA

namespace Automaton

variable {A : Automaton} {k k' : Configuration} {c : Char} {cs : List Char} {extra : List Rule}

/-- The automaton with more rules at the end of its list. -/
def appendRules (A : Automaton) (extra : List Rule) : Automaton :=
  { A with rules := A.rules ++ extra }

/-- The additional rules are only asked if none of the others applies. -/
theorem ruleAt?_appendRules (A : Automaton) (extra : List Rule) (k : Configuration) (c : Char) :
    (A.appendRules extra).ruleAt? k c =
      (A.ruleAt? k c).or (extra.find? fun r => r.Applies k.state c k.top) :=
  List.find?_append

/-- Where the machine moves, additional rules change nothing. -/
theorem next?_appendRules_of_some (h : A.next? k c = some k') (extra : List Rule) :
    (A.appendRules extra).next? k c = some k' := by
  obtain ⟨r, hr, htake⟩ := Option.map_eq_some_iff.1 h
  rw [next?, ruleAt?_appendRules, hr, Option.some_or, Option.map_some, htake]

/-- Where the machine is stuck, additional rules change nothing if none of them applies. -/
theorem next?_appendRules_of_none (h : A.next? k c = none)
    (hextra : ∀ r ∈ extra, ¬ r.Applies k.state c k.top) :
    (A.appendRules extra).next? k c = none := by
  have hr : A.ruleAt? k c = none := Option.map_eq_none_iff.1 h
  have hfind : (extra.find? fun r => r.Applies k.state c k.top) = none := by
    simpa [List.find?_eq_none] using hextra
  rw [next?, ruleAt?_appendRules, hr, hfind, Option.none_or, Option.map_none]

/-! ## Runs -/

/-- A run is the same with additional rules if none of them applies where it gets stuck. -/
theorem runFrom_appendRules (hstuck : ∀ k' c, (A.runFrom k cs).trace.getLast? = some (.rejected k' c) →
      ∀ r ∈ extra, ¬ r.Applies k'.state c k'.top) :
    (A.appendRules extra).runFrom k cs = A.runFrom k cs := by
  induction cs generalizing k with
  | nil => rfl
  | cons c cs ih =>
    cases hnext : A.next? k c with
    | none =>
      rw [A.runFrom_cons_of_none hnext] at hstuck ⊢
      have hextra := hstuck k c rfl
      rw [runFrom_cons_of_none _ (next?_appendRules_of_none hnext hextra)]
    | some k₁ =>
      have hrest : (A.appendRules extra).runFrom k₁ cs = A.runFrom k₁ cs := by
        refine ih fun k' d hlast => hstuck k' d ?_
        rw [getLast?_trace_runFrom_cons hnext, hlast]
      rw [A.runFrom_cons_of_some hnext,
        runFrom_cons_of_some _ (next?_appendRules_of_some hnext extra), hrest]

/-- All but the last step of a trace is the beginning of the trace with additional rules. -/
theorem dropLast_trace_runFrom_prefix (A : Automaton) (extra : List Rule) (k : Configuration)
    (cs : List Char) :
    (A.runFrom k cs).trace.dropLast <+: ((A.appendRules extra).runFrom k cs).trace := by
  induction cs generalizing k with
  | nil => exact List.nil_prefix
  | cons c cs ih =>
    cases hnext : A.next? k c with
    | none =>
      -- an added rule may apply here, but not before the character was looked at
      obtain ⟨steps, hsteps⟩ := exists_trace_runFrom_cons (A.appendRules extra) k c cs
      rw [A.runFrom_cons_of_none hnext, hsteps]
      exact List.cons_prefix_cons.2 ⟨rfl, List.nil_prefix⟩
    | some k₁ =>
      have hne : (A.runFrom k₁ cs).trace ≠ [] := trace_runFrom_ne_nil
      rw [trace_runFrom_cons_of_some hnext,
        trace_runFrom_cons_of_some (next?_appendRules_of_some hnext extra),
        List.dropLast_cons_of_ne_nil hne]
      exact List.cons_prefix_cons.2 ⟨rfl, ih k₁⟩

/-- An input is processed alike with additional rules if none of them applies where the run gets stuck. -/
theorem process_appendRules_eq {input : String}
    (hstuck : ∀ k c, (A.process input).trace.getLast? = some (.rejected k c) →
      ∀ r ∈ extra, ¬ r.Applies k.state c k.top) :
    (A.appendRules extra).process input = A.process input :=
  runFrom_appendRules hstuck

/-- **Added rules only matter where a run gets stuck.** A run that ends with its input is not changed by
rules that are added at the end of the list. One that is rejected is not changed before it is, and not at
all if none of the added rules applies there. -/
theorem process_appendRules (A : Automaton) (extra : List Rule) (input : String) :
    (∀ k, (A.process input).trace.getLast? = some (.final k) →
      (A.appendRules extra).process input = A.process input) ∧
    ∀ k c, (A.process input).trace.getLast? = some (.rejected k c) →
      (A.process input).trace.dropLast <+: ((A.appendRules extra).process input).trace ∧
      ((∀ r ∈ extra, ¬ r.Applies k.state c k.top) →
        (A.appendRules extra).process input = A.process input) := by
  refine ⟨fun k hfinal => ?_, fun k c hrejected => ⟨?_, fun hextra => ?_⟩⟩
  · refine process_appendRules_eq fun k' d hlast => ?_
    rw [hfinal] at hlast
    exact absurd (Option.some.inj hlast) (by simp)
  · exact dropLast_trace_runFrom_prefix A extra A.initial input.toList
  · refine process_appendRules_eq fun k' d hlast => ?_
    rw [hrejected] at hlast
    obtain ⟨rfl, rfl⟩ : k = k' ∧ c = d := by simpa using hlast
    exact hextra

/-- An automaton that can only push. -/
def pushing : Automaton where
  start := ⟨"s"⟩
  rules := [⟨⟨"s"⟩, some ⟨"a"⟩, none, ⟨"s"⟩, [⟨"X"⟩]⟩]

/-- A rule that pops what `pushing` pushes. -/
def popRule : Rule := ⟨⟨"s"⟩, some ⟨"b"⟩, some ⟨"X"⟩, ⟨"s"⟩, []⟩

/-- The added rule is not needed on the first input, it applies where the run is stuck on the second one,
and does not apply there on the third one. -/
theorem process_appendRules_popRule :
    (pushing.process "aa").trace.getLast? = some (.final ⟨⟨"s"⟩, [⟨"X"⟩, ⟨"X"⟩]⟩) ∧
    (pushing.appendRules [popRule]).process "aa" = pushing.process "aa" ∧
    (pushing.process "ab").trace.getLast? = some (.rejected ⟨⟨"s"⟩, [⟨"X"⟩]⟩ 'b') ∧
    (pushing.process "ab").trace.dropLast <+: ((pushing.appendRules [popRule]).process "ab").trace ∧
    (pushing.appendRules [popRule]).process "ab" ≠ pushing.process "ab" ∧
    (pushing.process "ba").trace.getLast? = some (.rejected ⟨⟨"s"⟩, []⟩ 'b') ∧
    (pushing.appendRules [popRule]).process "ba" = pushing.process "ba" := by
  have hfinal : (pushing.process "aa").trace.getLast? =
      some (.final ⟨⟨"s"⟩, [⟨"X"⟩, ⟨"X"⟩]⟩) := by decide
  have hgoesOn : (pushing.process "ab").trace.getLast? =
      some (.rejected ⟨⟨"s"⟩, [⟨"X"⟩]⟩ 'b') := by decide
  have hstuck : (pushing.process "ba").trace.getLast? = some (.rejected ⟨⟨"s"⟩, []⟩ 'b') := by decide
  exact ⟨hfinal, (process_appendRules pushing [popRule] "aa").1 _ hfinal, hgoesOn,
    ((process_appendRules pushing [popRule] "ab").2 _ _ hgoesOn).1, by decide, hstuck,
    ((process_appendRules pushing [popRule] "ba").2 _ _ hstuck).2 (by decide)⟩

end Automaton

end PDA
