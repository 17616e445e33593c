import Mathlib.Data.List.Find
import PDA.Proofs.Machine.RuleOrder
import PDA.Proofs.Format.Loadable

/-!
# What is on the stack

Only symbols that some rule pushes get onto the stack (`Automaton.PushesOnly.mem_trace`), and a rule that
pops any other symbol is never taken. An automaton that was loaded pushes single visible characters, so
its stacks can be read off as they are shown (`Automaton.load_legible`).
-/

namespace PDA

/-- The symbol is one character, and not a blank one. -/
def Symbol.IsVisible (s : Symbol) : Prop := ∃ c, s.IsChar c ∧ Text.isSpace c = false

/-- The text of the stack shows it symbol by symbol. -/
structure Configuration.Legible (k : Configuration) : Prop where
  visible : ∀ a ∈ k.stack, a.IsVisible
  length : k.stackText.length = k.stack.length
  getElem : ∀ i : Nat, (k.stackText.toList[i]?).map Symbol.ofChar = k.stack[i]?

/-- If the rule pops a symbol it is one of `P`. -/
def Rule.PopsOnly (P : Symbol → Prop) (r : Rule) : Prop := ∀ a ∈ r.pop, P a

instance (P : Symbol → Prop) [DecidablePred P] (r : Rule) : Decidable (r.PopsOnly P) :=
  inferInstanceAs (Decidable (∀ a ∈ r.pop, P a))

namespace Automaton

variable {A : Automaton} {P : Symbol → Prop} {k k' : Configuration} {c : Char} {cs : List Char}
  {r : Rule}

/-- Each symbol that a rule pushes is one of `P`. -/
def PushesOnly (P : Symbol → Prop) (A : Automaton) : Prop := ∀ r ∈ A.rules, ∀ a ∈ r.push, P a

/-- The automaton without the rules that pop a symbol that is not one of `P`. -/
def keepPops (A : Automaton) (P : Symbol → Prop) [DecidablePred P] : Automaton :=
  { A with rules := A.rules.filter (·.PopsOnly P) }

/-! ## Symbols that are pushed -/

/-- A step keeps to the symbols that rules push. -/
theorem PushesOnly.next? (hpush : A.PushesOnly P) (hk : ∀ a ∈ k.stack, P a)
    (h : A.next? k c = some k') : ∀ a ∈ k'.stack, P a := by
  obtain ⟨r, hr, -, rfl⟩ := exists_rule_of_next? h
  have hrest : ∀ a ∈ (if r.pop.isSome then k.stack.dropLast else k.stack), P a := by
    split
    · exact fun a ha => hk a (List.mem_of_mem_dropLast ha)
    · exact hk
  rw [Configuration.take]
  exact List.forall_mem_append.2 ⟨hrest, hpush r hr⟩

/-- There are never other symbols on a stack than those that rules push. -/
theorem PushesOnly.mem_trace (hpush : A.PushesOnly P) (hk : ∀ a ∈ k.stack, P a) :
    ∀ s ∈ (A.runFrom k cs).trace, ∀ a ∈ s.config.stack, P a :=
  trace_runFrom_induction (fun _ _ _ hk hnext => hpush.next? hk hnext) hk

/-- What a rule pops was on the stack. -/
theorem popsOnly_of_applies (hk : ∀ a ∈ k.stack, P a) (h : r.Applies k.state c k.top) :
    r.PopsOnly P := by
  intro a ha
  have htop : k.stack.getLast? = some a := h.2.2 a ha
  exact hk a (List.mem_of_getLast? htop)

section KeepPops

variable [DecidablePred P]

/-- Rules that pop other symbols than those on the stack are never taken. -/
theorem ruleAt?_keepPops (hk : ∀ a ∈ k.stack, P a) (c : Char) :
    (A.keepPops P).ruleAt? k c = A.ruleAt? k c := by
  rw [ruleAt?, ruleAt?, findRule?, findRule?, keepPops, List.find?_filter]
  refine List.find?_congr fun r _ => ?_
  rw [decide_eq_decide, decide_eq_true_iff, decide_eq_true_iff]
  exact and_iff_right_of_imp (popsOnly_of_applies hk)

/-- Rules that pop symbols that no rule pushes can be deleted. -/
theorem PushesOnly.runFrom_keepPops (hpush : A.PushesOnly P) (hk : ∀ a ∈ k.stack, P a)
    (cs : List Char) : (A.keepPops P).runFrom k cs = A.runFrom k cs :=
  (runFrom_congr_of_invariant (fun _ c hk => (ruleAt?_keepPops hk c).symm)
    (fun _ _ _ hk hnext => hpush.next? hk hnext) (fun _ => Iff.rfl) hk cs).symm

end KeepPops

end Automaton

/-! ## Visible symbols -/

section Legible

variable {a : Symbol} {k k' : Configuration}

theorem Symbol.IsVisible.isSingle (h : a.IsVisible) : a.IsSingle := by
  obtain ⟨c, hc, -⟩ := h
  exact Symbol.isSingle_iff.2 ⟨c, hc⟩

/-- A stack of visible symbols can be read off its text. -/
theorem Configuration.legible_of_visible (h : ∀ a ∈ k.stack, a.IsVisible) : k.Legible := by
  have hstack : k.stack = k.stackText.toList.map Symbol.ofChar := by
    refine eq_map_ofChar_pushText fun a ha => ?_
    obtain ⟨c, hc, -⟩ := h a ha
    exact ⟨c, hc⟩
  refine ⟨h, ?_, fun i => ?_⟩
  · have hlength := congrArg List.length hstack
    rw [List.length_map, String.length_toList] at hlength
    exact hlength.symm
  · rw [← List.getElem?_map, ← hstack]

/-- Stacks that are shown alike are equal. -/
theorem Configuration.Legible.stack_eq (h : k.Legible) (h' : k'.Legible)
    (htext : k.stackText = k'.stackText) : k.stack = k'.stack := by
  refine List.ext_getElem? fun i => ?_
  rw [← h.getElem, ← h'.getElem, htext]

end Legible

/-! ## Automata that were loaded -/

namespace Automaton

section Load

variable {epsilon text : String} {loaded : Format.Loaded}

/-- A definition that was loaded only pushes symbols of one visible character. -/
theorem pushesOnly_of_load (h : Format.load epsilon text = .ok loaded) :
    loaded.automaton.PushesOnly Symbol.IsVisible := by
  intro r hr a ha
  obtain ⟨c, hc, hspace⟩ := ((loadable_of_load h).rules r hr).push.char a ha
  exact ⟨c, Symbol.char?_eq_some_iff.2 hc, hspace⟩

/-- There are only visible symbols on the stacks of a definition that was loaded. -/
theorem visible_of_load (h : Format.load epsilon text = .ok loaded) {input : String} {s : Step}
    (hs : s ∈ (loaded.automaton.process input).trace) : ∀ a ∈ s.config.stack, a.IsVisible := by
  have hinitial : ∀ a ∈ loaded.automaton.initial.stack, a.IsVisible := by simp [initial]
  exact (pushesOnly_of_load h).mem_trace hinitial s hs

/-- **Stacks are texts.** On every stack of an automaton that was loaded each symbol is one visible
character, so the stack is told by the text that shows it. A rule that pops anything but one character is
never taken, and all such rules can be deleted. -/
theorem load_legible (h : Format.load epsilon text = .ok loaded) :
    (∀ input, ∀ s ∈ (loaded.automaton.process input).trace, s.config.Legible ∧
      ∀ c r, loaded.automaton.ruleAt? s.config c = some r → r.PopsOnly Symbol.IsSingle) ∧
    (∀ input, (loaded.automaton.keepPops Symbol.IsSingle).process input =
      loaded.automaton.process input) ∧
    ∀ epsilon' text' loaded', Format.load epsilon' text' = .ok loaded' →
      ∀ input input', ∀ s ∈ (loaded.automaton.process input).trace,
        ∀ s' ∈ (loaded'.automaton.process input').trace,
          s.config.stackText = s'.config.stackText → s.config.stack = s'.config.stack := by
  refine ⟨fun input s hs => ⟨?_, fun c r hr => ?_⟩, fun input => ?_, ?_⟩
  · exact Configuration.legible_of_visible (visible_of_load h hs)
  · have hsingle : ∀ a ∈ s.config.stack, a.IsSingle := fun a ha => (visible_of_load h hs a ha).isSingle
    exact popsOnly_of_applies hsingle (applies_of_ruleAt? _ hr)
  · have hpush : loaded.automaton.PushesOnly Symbol.IsSingle := fun r hr a ha =>
      (pushesOnly_of_load h r hr a ha).isSingle
    exact hpush.runFrom_keepPops (by simp [initial]) input.toList
  · intro epsilon' text' loaded' h' input input' s hs s' hs' htext
    have hlegible := Configuration.legible_of_visible (visible_of_load h hs)
    have hlegible' := Configuration.legible_of_visible (visible_of_load h' hs')
    exact hlegible.stack_eq hlegible' htext

end Load

/-- The first text pops two characters as one symbol, which never happens; the second one gets to the same
stack symbol by symbol. -/
theorem load_legible_twoChars :
    ∃ l l', Format.load "é" "start_state:s\ns a é -> s XÜ\ns b XÜ -> t\ns b Ü -> s" = .ok l ∧
      Format.load "λ" "start_state:t\nt b λ -> t X\nt c λ -> t Ü" = .ok l' ∧
      (∀ s ∈ (l.automaton.process "ab").trace, s.config.Legible ∧
        ∀ c r, l.automaton.ruleAt? s.config c = some r → r.PopsOnly Symbol.IsSingle) ∧
      (l.automaton.keepPops Symbol.IsSingle).rules ≠ l.automaton.rules ∧
      (l.automaton.keepPops Symbol.IsSingle).process "ab" = l.automaton.process "ab" ∧
      ∃ s ∈ (l.automaton.process "a").trace, ∃ s' ∈ (l'.automaton.process "bc").trace,
        s.config.stackText = "XÜ" ∧ s'.config.stackText = "XÜ" ∧ s.config.stack = s'.config.stack := by
  have hload : ∃ l, Format.load "é" "start_state:s\ns a é -> s XÜ\ns b XÜ -> t\ns b Ü -> s" = .ok l ∧
      (l.automaton.keepPops Symbol.IsSingle).rules ≠ l.automaton.rules ∧
      .final ⟨⟨"s"⟩, [⟨"X"⟩, ⟨"Ü"⟩]⟩ ∈ (l.automaton.process "a").trace := ⟨_, rfl, by decide, by decide⟩
  have hload' : ∃ l', Format.load "λ" "start_state:t\nt b λ -> t X\nt c λ -> t Ü" = .ok l' ∧
      .final ⟨⟨"t"⟩, [⟨"X"⟩, ⟨"Ü"⟩]⟩ ∈ (l'.automaton.process "bc").trace := ⟨_, rfl, by decide⟩
  obtain ⟨l, hl, hdeleted, hs⟩ := hload
  obtain ⟨l', hl', hs'⟩ := hload'
  obtain ⟨hlegible, hkeep, htext⟩ := load_legible hl
  exact ⟨l, l', hl, hl', hlegible "ab", hdeleted, hkeep "ab", _, hs, _, hs', by decide, by decide,
    htext _ _ _ hl' "a" "bc" _ hs _ hs' (by decide)⟩

end Automaton

end PDA
