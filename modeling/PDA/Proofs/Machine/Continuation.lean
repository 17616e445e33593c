import PDA.Proofs.Machine.Reach

/-!
# Inputs that go on

A machine that gets stuck on an input is stuck on every longer one, with the same outcome
(`runFrom_append_of_none`). Otherwise a longer input is run up to the end of the shorter one and then on
from the configuration that was reached there (`runFrom_append_of_some`), whatever led to it.
-/

namespace PDA

namespace Automaton

variable {A : Automaton} {k k' : Configuration} {cs : List Char}

/-- An input cannot be used up exactly if the trace ends with a rejection. -/
theorem reach?_eq_none_iff :
    A.reach? k cs = none ↔ ∃ k' c, (A.runFrom k cs).trace.getLast? = some (.rejected k' c) := by
  induction cs generalizing k with
  | nil => simp
  | cons c cs ih =>
    rw [reach?_cons]
    cases hnext : A.next? k c with
    | none => simp [A.runFrom_cons_of_none hnext]
    | some k₁ => rw [getLast?_trace_runFrom_cons hnext, Option.bind_some, ih]

/-- What comes after a rejection does not matter. -/
theorem runFrom_append_of_none (h : A.reach? k cs = none) (ds : List Char) :
    A.runFrom k (cs ++ ds) = A.runFrom k cs := by
  induction cs generalizing k with
  | nil => simp at h
  | cons c cs ih =>
    rw [List.cons_append]
    cases hnext : A.next? k c with
    | none => rw [A.runFrom_cons_of_none hnext, A.runFrom_cons_of_none hnext]
    | some k₁ =>
      rw [reach?_cons, hnext, Option.bind_some] at h
      rw [A.runFrom_cons_of_some hnext, A.runFrom_cons_of_some hnext, ih h]

/-- The step that ends the first part is left out, and the second part starts where it was made. -/
theorem runFrom_append_of_some (h : A.reach? k cs = some k') (ds : List Char) :
    A.runFrom k (cs ++ ds) = ⟨(A.runFrom k' ds).accepted,
      (A.runFrom k cs).trace.dropLast ++ (A.runFrom k' ds).trace⟩ := by
  induction cs generalizing k with
  | nil =>
    obtain rfl : k = k' := Option.some.inj h
    rfl
  | cons c cs ih =>
    rw [reach?_cons, Option.bind_eq_some_iff] at h
    obtain ⟨k₁, hnext, hreach⟩ := h
    have hne : (A.runFrom k₁ cs).trace ≠ [] := trace_runFrom_ne_nil
    rw [List.cons_append, A.runFrom_cons_of_some hnext, A.runFrom_cons_of_some hnext, ih hreach]
    simp only [Outcome.after, List.dropLast_cons_of_ne_nil hne, List.cons_append]

/-- If the first part of an input is used up, its final step is replaced by the run on the second part. -/
theorem process_append_of_reach? {u : String} (h : A.reach? A.initial u.toList = some k) (v : String) :
    A.process (u ++ v) = ⟨(A.runFrom k v.toList).accepted,
      (A.process u).trace.dropLast ++ (A.runFrom k v.toList).trace⟩ := by
  rw [process, String.toList_append, runFrom_append_of_some h]
  rfl

/-- **The past counts only by the configuration it leads to.** What comes after a rejection changes
nothing. An input that is not rejected is looked at in the same way if more follows; and after two inputs
that end in the same configuration the same happens. -/
theorem process_append (A : Automaton) :
    (∀ u v : String,
      ((∃ k c, (A.process u).trace.getLast? = some (.rejected k c)) →
        A.process (u ++ v) = A.process u) ∧
      ((¬ ∃ k c, (A.process u).trace.getLast? = some (.rejected k c)) →
        (∃ k, (A.process u).trace.getLast? = some (.final k)) ∧
        (A.process u).trace.dropLast <+: (A.process (u ++ v)).trace)) ∧
    ∀ (u₁ u₂ : String) (k : Configuration), (A.process u₁).trace.getLast? = some (.final k) →
      (A.process u₂).trace.getLast? = some (.final k) → ∀ v : String,
        (A.process (u₁ ++ v)).accepted = (A.process (u₂ ++ v)).accepted ∧
        ∃ rest, (A.process (u₁ ++ v)).trace = (A.process u₁).trace.dropLast ++ rest ∧
          (A.process (u₂ ++ v)).trace = (A.process u₂).trace.dropLast ++ rest := by
  refine ⟨fun u v => ⟨fun hrejected => ?_, fun hrejected => ?_⟩, fun u₁ u₂ k h₁ h₂ v => ?_⟩
  · have hstuck : A.reach? A.initial u.toList = none := reach?_eq_none_iff.2 hrejected
    rw [process, String.toList_append, runFrom_append_of_none hstuck]
    rfl
  · have hreach : A.reach? A.initial u.toList ≠ none := fun h => hrejected (reach?_eq_none_iff.1 h)
    obtain ⟨k, hk⟩ := Option.ne_none_iff_exists'.1 hreach
    refine ⟨⟨k, getLast?_trace_process_eq_final_iff.2 hk⟩, ?_⟩
    rw [process_append_of_reach? hk]
    exact List.prefix_append _ _
  · have hk₁ : A.reach? A.initial u₁.toList = some k := getLast?_trace_process_eq_final_iff.1 h₁
    have hk₂ : A.reach? A.initial u₂.toList = some k := getLast?_trace_process_eq_final_iff.1 h₂
    rw [process_append_of_reach? hk₁, process_append_of_reach? hk₂]
    exact ⟨rfl, _, rfl, rfl⟩

/-- An automaton that pushes a symbol on `a` and pops it again on `b`. -/
def brackets : Automaton where
  start := ⟨"s"⟩
  accept := .ofList [⟨"s"⟩]
  rules := [⟨⟨"s"⟩, some ⟨"a"⟩, none, ⟨"s"⟩, [⟨"X"⟩]⟩, ⟨⟨"s"⟩, some ⟨"b"⟩, some ⟨"X"⟩, ⟨"s"⟩, []⟩]

/-- The first input is rejected on its last character, and the other two end with the same stack, on which
`bb` gets stuck and `b` does not. -/
theorem process_append_brackets :
    (brackets.process "abb").trace.getLast? = some (.rejected ⟨⟨"s"⟩, []⟩ 'b') ∧
    brackets.process ("abb" ++ "a") = brackets.process "abb" ∧
    (¬ ∃ k c, (brackets.process "aab").trace.getLast? = some (.rejected k c)) ∧
    (brackets.process "aab").trace.dropLast <+: (brackets.process ("aab" ++ "bb")).trace ∧
    (brackets.process "aab").trace.getLast? = some (.final ⟨⟨"s"⟩, [⟨"X"⟩]⟩) ∧
    (brackets.process "a").trace.getLast? = some (.final ⟨⟨"s"⟩, [⟨"X"⟩]⟩) ∧
    (brackets.process ("aab" ++ "bb")).accepted = (brackets.process ("a" ++ "bb")).accepted ∧
    (brackets.process ("aab" ++ "b")).accepted = (brackets.process ("a" ++ "b")).accepted ∧
    (brackets.process ("aab" ++ "bb")).accepted ≠ (brackets.process ("aab" ++ "b")).accepted := by
  have hrejected : (brackets.process "abb").trace.getLast? = some (.rejected ⟨⟨"s"⟩, []⟩ 'b') := by
    decide
  have hlong : (brackets.process "aab").trace.getLast? = some (.final ⟨⟨"s"⟩, [⟨"X"⟩]⟩) := by decide
  have hshort : (brackets.process "a").trace.getLast? = some (.final ⟨⟨"s"⟩, [⟨"X"⟩]⟩) := by decide
  have hgoesOn : ¬ ∃ k c, (brackets.process "aab").trace.getLast? = some (.rejected k c) := by
    simp [hlong]
  obtain ⟨hpast, hfuture⟩ := process_append brackets
  exact ⟨hrejected, (hpast "abb" "a").1 ⟨_, _, hrejected⟩, hgoesOn, ((hpast "aab" "bb").2 hgoesOn).2,
    hlong, hshort, (hfuture _ _ _ hlong hshort "bb").1, (hfuture _ _ _ hlong hshort "b").1, by decide⟩

end Automaton

end PDA
