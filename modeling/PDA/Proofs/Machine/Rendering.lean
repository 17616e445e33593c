import PDA.Proofs.Machine.Continuation

/-!
# Traces as texts

Names and symbols may be any texts and are shown without marks around them, so a line of a rendered trace
may be read in several ways. Still two runs of one automaton that are shown alike are equal: they start in
the same configuration, and as long as they are in the same one the character that is looked at stands at
the same place of both texts (`Automaton.runFrom_eq_of_renderTrace_eq`).
-/

namespace PDA

/-! ## The text of a trace -/

section Text

variable {ts : List Step} {k : Configuration}

/-- What the line of a configuration shows before the character that is looked at. -/
def Configuration.opening (k : Configuration) : List Char :=
  '(' :: (k.state.name.toList ++ [',', ' '])

/-- What the line of a configuration shows after the character that is looked at. -/
def Configuration.closing (k : Configuration) : List Char :=
  ',' :: ' ' :: (k.stackText.toList ++ [')'])

/-- A step that looks at a character is written with that character between what the configuration opens and
closes with. -/
theorem toList_render_consumed (k : Configuration) (c : Char) :
    (Step.consumed k c).render.toList = k.opening ++ c :: k.closing := by
  have hrender : (Step.consumed k c).render =
    "(" ++ k.state.name ++ ", " ++ String.singleton c ++ ", " ++ k.stackText ++ ")" := rfl
  rw [hrender]
  simp [Configuration.opening, Configuration.closing]

/-- The final step is written with `end` in the place of the character. -/
theorem toList_render_final (k : Configuration) :
    (Step.final k).render.toList = k.opening ++ 'e' :: 'n' :: 'd' :: k.closing := by
  have hrender : (Step.final k).render = "(" ++ k.state.name ++ ", end, " ++ k.stackText ++ ")" := rfl
  rw [hrender]
  simp [Configuration.opening, Configuration.closing]

theorem toList_renderTrace_singleton (s : Step) : (renderTrace [s]).toList = s.render.toList := by
  simp [renderTrace]

/-- Steps are written one after the other, with a line feed between them. -/
theorem toList_renderTrace_cons (s : Step) (hts : ts ≠ []) :
    (renderTrace (s :: ts)).toList = s.render.toList ++ '\n' :: (renderTrace ts).toList := by
  obtain ⟨t, ts, rfl⟩ := List.exists_cons_of_ne_nil hts
  simp [renderTrace, String.toList_intercalate]

end Text

/-! ## Two runs from one configuration -/

namespace Automaton

variable {A : Automaton} {k k' : Configuration} {c d : Char} {cs ds : List Char}

/-- At the end of the input nothing but the final step is written. -/
theorem toList_renderTrace_runFrom_nil (A : Automaton) (k : Configuration) :
    (renderTrace (A.runFrom k []).trace).toList = k.opening ++ 'e' :: 'n' :: 'd' :: k.closing := by
  rw [runFrom_nil, toList_renderTrace_singleton, toList_render_final]

/-- After the line of the first character the text goes on with what the rest of the trace is shown as. -/
theorem toList_renderTrace_runFrom_cons (A : Automaton) (k : Configuration) (c : Char)
    (cs : List Char) : ∃ steps, (A.runFrom k (c :: cs)).trace = .consumed k c :: steps ∧
      (renderTrace (A.runFrom k (c :: cs)).trace).toList =
        k.opening ++ c :: (k.closing ++ '\n' :: (renderTrace steps).toList) := by
  obtain ⟨steps, htrace, hne⟩ : ∃ steps, (A.runFrom k (c :: cs)).trace = .consumed k c :: steps ∧
      steps ≠ [] := by
    cases hnext : A.next? k c with
    | none => exact ⟨_, by rw [A.runFrom_cons_of_none hnext], by simp⟩
    | some k₁ => exact ⟨_, trace_runFrom_cons_of_some hnext cs, trace_runFrom_ne_nil⟩
  refine ⟨steps, htrace, ?_⟩
  rw [htrace, toList_renderTrace_cons _ hne, toList_render_consumed]
  simp

/-- The end of the input is not shown as a character is. -/
theorem renderTrace_runFrom_nil_ne_cons :
    renderTrace (A.runFrom k []).trace ≠ renderTrace (A.runFrom k (c :: cs)).trace := by
  intro h
  obtain ⟨steps, -, htext⟩ := A.toList_renderTrace_runFrom_cons k c cs
  rw [← h, toList_renderTrace_runFrom_nil, List.append_cancel_left_eq, Configuration.closing] at htext
  -- the character would be an `e`, with an `n` for the comma after it
  simp at htext

/-- Two characters that are looked at in one configuration are told apart. -/
theorem cons_inj_of_renderTrace_eq
    (h : renderTrace (A.runFrom k (c :: cs)).trace = renderTrace (A.runFrom k (d :: ds)).trace) :
    c = d ∧ ∃ steps steps', (A.runFrom k (c :: cs)).trace = .consumed k c :: steps ∧
      (A.runFrom k (d :: ds)).trace = .consumed k d :: steps' ∧
      renderTrace steps = renderTrace steps' := by
  obtain ⟨steps, htrace, htext⟩ := A.toList_renderTrace_runFrom_cons k c cs
  obtain ⟨steps', htrace', htext'⟩ := A.toList_renderTrace_runFrom_cons k d ds
  rw [h, htext', List.append_cancel_left_eq, List.cons.injEq, List.append_cancel_left_eq,
    List.cons.injEq, String.toList_inj] at htext
  obtain ⟨rfl, -, hsteps⟩ := htext
  exact ⟨rfl, steps, steps', htrace, htrace', hsteps.symm⟩

/-- Runs from one configuration that are written alike are the same. -/
theorem runFrom_eq_of_renderTrace_eq
    (h : renderTrace (A.runFrom k cs).trace = renderTrace (A.runFrom k ds).trace) :
    A.runFrom k cs = A.runFrom k ds := by
  induction cs generalizing k ds with
  | nil =>
    cases ds with
    | nil => rfl
    | cons d ds => exact absurd h renderTrace_runFrom_nil_ne_cons
  | cons c cs ih =>
    cases ds with
    | nil => exact absurd h.symm renderTrace_runFrom_nil_ne_cons
    | cons d ds =>
      obtain ⟨rfl, steps, steps', htrace, htrace', hsteps⟩ := cons_inj_of_renderTrace_eq h
      cases hnext : A.next? k c with
      | none => rw [A.runFrom_cons_of_none hnext, A.runFrom_cons_of_none hnext]
      | some k₁ =>
        -- both runs go on from the same configuration
        rw [trace_runFrom_cons_of_some hnext, List.cons.injEq] at htrace htrace'
        have hrest : A.runFrom k₁ cs = A.runFrom k₁ ds := by
          refine ih ?_
          rw [htrace.2, htrace'.2, hsteps]
        rw [A.runFrom_cons_of_some hnext, A.runFrom_cons_of_some hnext, hrest]

/-- A run that gets to the end of its input looked at all of it. -/
theorem filterMap_symbol?_trace (h : A.reach? k cs = some k') :
    (A.runFrom k cs).trace.filterMap Step.symbol? = cs := by
  induction cs generalizing k with
  | nil => rfl
  | cons c cs ih =>
    rw [reach?_cons, Option.bind_eq_some_iff] at h
    obtain ⟨k₁, hnext, hreach⟩ := h
    rw [trace_runFrom_cons_of_some hnext, List.filterMap_cons_some (f := Step.symbol?) rfl, ih hreach]

/-- **A rendered trace tells the run.** Two inputs whose traces are shown alike have the same trace and
the same verdict, and they are the same input unless it was rejected. -/
theorem process_eq_of_renderTrace_eq (A : Automaton) {x y : String}
    (h : renderTrace (A.process x).trace = renderTrace (A.process y).trace) :
    (A.process x).trace = (A.process y).trace ∧
    (A.process x).accepted = (A.process y).accepted ∧
    ((¬ ∃ k c, (A.process x).trace.getLast? = some (.rejected k c)) → x = y) := by
  have hprocess : A.process x = A.process y := runFrom_eq_of_renderTrace_eq h
  refine ⟨congrArg Outcome.trace hprocess, congrArg Outcome.accepted hprocess, fun hrejected => ?_⟩
  have hrejected' : ¬ ∃ k c, (A.process y).trace.getLast? = some (.rejected k c) := hprocess ▸ hrejected
  obtain ⟨k, hk⟩ := Option.ne_none_iff_exists'.1 fun hnone => hrejected (reach?_eq_none_iff.1 hnone)
  obtain ⟨k', hk'⟩ := Option.ne_none_iff_exists'.1 fun hnone => hrejected' (reach?_eq_none_iff.1 hnone)
  have hx : (A.process x).trace.filterMap Step.symbol? = x.toList := filterMap_symbol?_trace hk
  have hy : (A.process y).trace.filterMap Step.symbol? = y.toList := filterMap_symbol?_trace hk'
  rw [← String.toList_inj, ← hx, ← hy, hprocess]

/-- An automaton whose names look like parts of a trace. It pushes `AB` as one symbol, or as two. -/
def lookalike (push : List Symbol) : Automaton where
  start := ⟨"s, end, )\n(s"⟩
  accept := .ofList [⟨"s, end, )\n(s"⟩]
  rules := [⟨⟨"s, end, )\n(s"⟩, some ⟨"e"⟩, none, ⟨"s, end, )\n(s"⟩, push⟩]

/-- Two inputs of which the same part is looked at are shown alike. Inputs that are not rejected are told
apart, though those of two automata are not. -/
theorem process_eq_of_renderTrace_eq_lookalike :
    renderTrace ((lookalike [⟨"AB"⟩]).process "eax").trace =
      renderTrace ((lookalike [⟨"AB"⟩]).process "eay").trace ∧
    ((lookalike [⟨"AB"⟩]).process "eax").trace = ((lookalike [⟨"AB"⟩]).process "eay").trace ∧
    renderTrace ((lookalike [⟨"AB"⟩]).process "e").trace ≠
      renderTrace ((lookalike [⟨"AB"⟩]).process "ee").trace ∧
    renderTrace ((lookalike [⟨"AB"⟩]).process "e").trace =
      renderTrace ((lookalike [⟨"A"⟩, ⟨"B"⟩]).process "e").trace ∧
    ((lookalike [⟨"AB"⟩]).process "e").trace ≠ ((lookalike [⟨"A"⟩, ⟨"B"⟩]).process "e").trace := by
  have halike : renderTrace ((lookalike [⟨"AB"⟩]).process "eax").trace =
      renderTrace ((lookalike [⟨"AB"⟩]).process "eay").trace := by decide
  have hgoesOn : ¬ ∃ k c, ((lookalike [⟨"AB"⟩]).process "e").trace.getLast? = some (.rejected k c) := by
    have hlast : ((lookalike [⟨"AB"⟩]).process "e").trace.getLast? =
        some (.final ⟨⟨"s, end, )\n(s"⟩, [⟨"AB"⟩]⟩) := by decide
    simp [hlast]
  refine ⟨halike, (process_eq_of_renderTrace_eq _ halike).1, fun h => ?_, by decide, by decide⟩
  have hinput : "e" = "ee" := (process_eq_of_renderTrace_eq _ h).2.2 hgoesOn
  exact absurd hinput (by decide)

end Automaton

end PDA
