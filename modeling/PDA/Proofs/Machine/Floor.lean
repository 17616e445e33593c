import PDA.Machine.Process
import PDA.Proofs.Format.Loadable

/-!
# The machine with a floor on its stack

A machine that keeps a floor at the bottom of its stack, a symbol like any other, always has something
on top. As long as no rule pops the floor, it is the machine of `Automaton.process` with the floor put
below its stack (`Floored.runFrom_withFloor`), even if rules push the symbol that the floor is made of.
-/

namespace PDA

/-- The floor of the stack, as a symbol. -/
def Symbol.floor : Symbol := ⟨""⟩

/-- No rule pops the floor. -/
def Automaton.SparesFloor (A : Automaton) : Prop := ∀ r ∈ A.rules, r.pop ≠ some Symbol.floor

instance (A : Automaton) : Decidable A.SparesFloor :=
  inferInstanceAs (Decidable (∀ r ∈ A.rules, r.pop ≠ some Symbol.floor))

/-! ## The machine -/

namespace Floored

/-- The rule matches; what it pops is compared with the last symbol of the stack. -/
def Matches (r : Rule) (k : Configuration) (c : Char) : Prop :=
  r.source = k.state ∧ (r.read = none ∨ r.read = some (Symbol.ofChar c)) ∧
    (r.pop = none ∨ r.pop = k.stack.getLast?)

instance (r : Rule) (k : Configuration) (c : Char) : Decidable (Matches r k c) :=
  inferInstanceAs (Decidable (_ ∧ _ ∧ _))

variable (A : Automaton)

/-- The rule that the machine takes: the first one that matches. -/
def rule? (k : Configuration) (c : Char) : Option Rule := A.rules.find? fun r => Matches r k c

/-- A rule that pops takes the last symbol off, whatever it is, before the others are pushed. -/
def apply (k : Configuration) (r : Rule) : Configuration :=
  match r.pop with
  | none => ⟨r.target, k.stack ++ r.push⟩
  | some _ => ⟨r.target, k.stack.dropLast ++ r.push⟩

/-- Run the machine from a configuration. -/
def runFrom (k : Configuration) : List Char → Outcome
  | [] => ⟨k.state ∈ A.accept, [.final k]⟩
  | c :: cs =>
    match rule? A k c with
    | none => ⟨false, [.consumed k c, .rejected k c]⟩
    | some r =>
      let o := runFrom (apply k r) cs
      ⟨o.accepted, .consumed k c :: o.trace⟩

/-- Run the machine on an input, with nothing but the floor on the stack. -/
def process (input : String) : Outcome := runFrom A ⟨A.start, [Symbol.floor]⟩ input.toList

/-- On the input the machine never removes the floor: it is the first symbol of every stack, also
right after a rule has taken a symbol off. -/
structure KeepsFloor (input : String) : Prop where
  head : ∀ s ∈ (process A input).trace, s.config.stack.head? = some Symbol.floor
  head_dropLast : ∀ k c r, .consumed k c ∈ (process A input).trace → rule? A k c = some r →
    r.pop.isSome → k.stack.dropLast.head? = some Symbol.floor

end Floored

/-! ## Stacks with and without the floor -/

/-- The same configuration with the floor under its stack. -/
def Configuration.withFloor (k : Configuration) : Configuration :=
  { k with stack := Symbol.floor :: k.stack }

/-- Drop the first symbol of the stack. -/
def Configuration.dropFloor (k : Configuration) : Configuration := { k with stack := k.stack.tail }

/-- Change the configuration in which a step happens. -/
def Step.mapConfig (f : Configuration → Configuration) : Step → Step
  | consumed k c => consumed (f k) c
  | rejected k c => rejected (f k) c
  | final k => final (f k)

theorem Step.config_mapConfig (f : Configuration → Configuration) (s : Step) :
    (s.mapConfig f).config = f s.config := by
  cases s <;> rfl

/-- Putting the floor under a stack and taking it away again changes no step. -/
theorem Step.dropFloor_withFloor (s : Step) :
    (s.mapConfig Configuration.withFloor).mapConfig Configuration.dropFloor = s := by
  cases s <;> rfl

namespace Floored

variable {A : Automaton} {k : Configuration} {c : Char} {r : Rule}

/-- With the floor under the stack a rule matches exactly if it applies without it, unless it pops the floor.
-/
theorem matches_withFloor_iff (h : r.pop ≠ some Symbol.floor) :
    Matches r k.withFloor c ↔ r.Applies k.state c k.top := by
  have hread : (r.read = none ∨ r.read = some (Symbol.ofChar c)) ↔ r.Reads c := by
    rw [Rule.Reads]
    cases r.read with
    | none => simp
    | some s => simp [Symbol.isChar_iff_eq_ofChar]
  have hpop : (r.pop = none ∨ r.pop = k.withFloor.stack.getLast?) ↔ r.Pops k.top := by
    rw [Rule.Pops, Configuration.withFloor, List.getLast?_cons, Configuration.top]
    cases hr : r.pop with
    | none => simp
    | some s =>
      -- with an empty stack the floor is on top, and `s` is not the floor
      have hs : s ≠ Symbol.floor := fun hs => h (by rw [hr, hs])
      cases k.stack.getLast? with
      | none => simp [hs]
      | some t => simp [eq_comm]
  rw [Matches, Rule.Applies, hread, hpop]
  rfl

/-- The same rule is taken with and without the floor, if no rule pops the floor. -/
theorem rule?_withFloor (h : A.SparesFloor) (k : Configuration) (c : Char) :
    rule? A k.withFloor c = A.ruleAt? k c := by
  rw [rule?, Automaton.ruleAt?, Automaton.findRule?, ← List.head?_filter, ← List.head?_filter]
  refine congrArg List.head? (List.filter_congr fun r hr => ?_)
  rw [decide_eq_decide]
  exact matches_withFloor_iff (h r hr)

/-- A rule that pops finds a symbol above the floor. -/
theorem stack_ne_nil (h : r.Pops k.top) (hpop : r.pop.isSome) : k.stack ≠ [] := by
  obtain ⟨s, hs⟩ := Option.isSome_iff_exists.1 hpop
  have htop : k.top = some s := h s hs
  intro hnil
  rw [Configuration.top, hnil, List.getLast?_nil] at htop
  contradiction

/-- Taking a rule leaves the floor where it is. -/
theorem apply_withFloor (h : r.Pops k.top) : apply k.withFloor r = (k.take r).withFloor := by
  cases hpop : r.pop with
  | none => simp [apply, Configuration.take, Configuration.withFloor, hpop]
  | some s =>
    have hne : k.stack ≠ [] := stack_ne_nil h (by rw [hpop]; rfl)
    simp [apply, Configuration.take, Configuration.withFloor, hpop,
      List.dropLast_cons_of_ne_nil hne]

/-- With the floor below its stack, the machine runs as it does without. -/
theorem runFrom_withFloor (h : A.SparesFloor) (k : Configuration) (cs : List Char) :
    runFrom A k.withFloor cs =
      ⟨(A.runFrom k cs).accepted,
        (A.runFrom k cs).trace.map (Step.mapConfig Configuration.withFloor)⟩ := by
  induction cs generalizing k with
  | nil => rfl
  | cons c cs ih =>
    rw [runFrom, rule?_withFloor h]
    cases hr : A.ruleAt? k c with
    | none =>
      have hnext : A.next? k c = none := by rw [Automaton.next?, hr, Option.map_none]
      rw [Automaton.runFrom_cons_of_none _ hnext]
      rfl
    | some r =>
      have hnext : A.next? k c = some (k.take r) := by rw [Automaton.next?, hr, Option.map_some]
      have hpops : r.Pops k.top := (A.applies_of_ruleAt? hr).2.2
      simp only [apply_withFloor hpops, ih]
      rw [Automaton.runFrom_cons_of_some _ hnext]
      rfl

/-- With the floor an input is processed as without it, with the floor under every stack of the trace. -/
theorem process_eq (h : A.SparesFloor) (input : String) :
    process A input =
      ⟨(A.process input).accepted,
        (A.process input).trace.map (Step.mapConfig Configuration.withFloor)⟩ :=
  runFrom_withFloor h A.initial input.toList

/-- A rule that matches does not remove the floor. -/
theorem head?_dropLast_withFloor (h : A.SparesFloor) (hr : rule? A k.withFloor c = some r)
    (hpop : r.pop.isSome) : k.withFloor.stack.dropLast.head? = some Symbol.floor := by
  rw [rule?_withFloor h] at hr
  have hpops : r.Pops k.top := (A.applies_of_ruleAt? hr).2.2
  rw [Configuration.withFloor, List.dropLast_cons_of_ne_nil (stack_ne_nil hpops hpop)]
  rfl

/-- The floor is never removed. -/
theorem keepsFloor (h : A.SparesFloor) (input : String) : KeepsFloor A input := by
  constructor
  · rw [process_eq h]
    exact List.forall_mem_map.2 fun s _ => by rw [Step.config_mapConfig]; rfl
  · intro k c r hk hr hpop
    rw [process_eq h] at hk
    obtain ⟨s, -, hs⟩ := List.mem_map.1 hk
    have hk : s.config.withFloor = k := by
      rw [← Step.config_mapConfig Configuration.withFloor, hs]
      rfl
    rw [← hk] at hr ⊢
    exact head?_dropLast_withFloor h hr hpop

/-- No rule of an automaton that was loaded pops the floor: a word in a line is not empty. -/
theorem sparesFloor_of_load {epsilon text : String} {loaded : Format.Loaded}
    (h : Format.load epsilon text = .ok loaded) : loaded.automaton.SparesFloor := by
  intro r hr hpop
  have hslot := ((loadable_of_load h).rules r hr).pop
  rw [hpop] at hslot
  exact hslot.1.1 rfl

/-- **The floor makes no difference.** If no rule pops the floor, as in every automaton that was
loaded, then the machine with a floor never removes it, and it does what the machine without does. -/
theorem process_refines :
    (∀ epsilon text loaded, Format.load epsilon text = .ok loaded →
      loaded.automaton.SparesFloor) ∧
    ∀ A : Automaton, A.SparesFloor → ∀ input : String,
      KeepsFloor A input ∧ (A.process input).accepted = (process A input).accepted ∧
      (A.process input).trace =
        (process A input).trace.map (Step.mapConfig Configuration.dropFloor) := by
  refine ⟨fun _ _ _ => sparesFloor_of_load, fun A h input => ⟨keepsFloor h input, ?_⟩⟩
  rw [process_eq h]
  refine ⟨rfl, ?_⟩
  rw [List.map_map]
  exact ((List.map_congr_left fun s _ => s.dropFloor_withFloor).trans (List.map_id _)).symm

/-- An automaton that pushes what the floor is made of, and a symbol above it that it pops again. -/
def pushesFloor : Automaton where
  start := ⟨"s"⟩
  rules :=
    [⟨⟨"s"⟩, some ⟨"a"⟩, none, ⟨"s"⟩, [Symbol.floor, ⟨"x"⟩]⟩,
      ⟨⟨"s"⟩, some ⟨"b"⟩, some ⟨"x"⟩, ⟨"s"⟩, []⟩]

/-- A rule may push the floor: it is a symbol like any other above the first one. -/
theorem process_refines_pushesFloor :
    (∃ loaded, Format.load "λ" "start_state:s\ns a x -> s y\n" = .ok loaded ∧
      loaded.automaton.SparesFloor) ∧
    pushesFloor.SparesFloor ∧ KeepsFloor pushesFloor "ab" ∧
      (pushesFloor.process "ab").accepted = (process pushesFloor "ab").accepted ∧
      (pushesFloor.process "ab").trace =
        (process pushesFloor "ab").trace.map (Step.mapConfig Configuration.dropFloor) := by
  have hspares : pushesFloor.SparesFloor := by decide
  have hload : Format.load "λ" "start_state:s\ns a x -> s y\n" = .ok
      ⟨{ start := ⟨"s"⟩, rules := [⟨⟨"s"⟩, some ⟨"a"⟩, some ⟨"x"⟩, ⟨"s"⟩, [⟨"y"⟩]⟩] }, []⟩ := rfl
  exact ⟨⟨_, hload, process_refines.1 _ _ _ hload⟩, hspares, process_refines.2 pushesFloor hspares "ab"⟩

end Floored

end PDA
