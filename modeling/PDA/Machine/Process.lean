import PDA.Machine.Step

/-!
# Running an automaton on a string

The machine starts in the start state with an empty stack and looks at one character after the
other. On each it takes the first rule that applies; if there is none, the input is rejected at
once. A rule that reads epsilon consumes the character all the same. When the input is used up, the
state alone decides: the stack does not matter, and no further rule is taken.
-/

namespace PDA

namespace Automaton

variable (A : Automaton)

/-- The configuration in which every run starts. -/
def initial : Configuration := ⟨A.start, []⟩

/-- The rule that the machine takes in a configuration on a character. -/
def ruleAt? (k : Configuration) (c : Char) : Option Rule := A.findRule? k.state c k.top

/-- The configuration after a character; `none` if no rule applies. -/
def next? (k : Configuration) (c : Char) : Option Configuration := (A.ruleAt? k c).map k.take

/-- Run the machine from a configuration. -/
def runFrom (k : Configuration) : List Char → Outcome
  | [] => ⟨A.Accepting k.state, [.final k]⟩
  | c :: cs =>
    match A.next? k c with
    | some k' => (runFrom k' cs).after (.consumed k c)
    | none => ⟨false, [.consumed k c, .rejected k c]⟩

/-- Run the machine on an input. -/
def process (input : String) : Outcome := A.runFrom A.initial input.toList

/-- The automaton accepts the input. -/
def Accepts (input : String) : Prop := (A.process input).accepted = true

instance (input : String) : Decidable (A.Accepts input) :=
  inferInstanceAs (Decidable (_ = _))

/-! ## Equations of a run -/

/-- The rule that is taken applies. -/
theorem applies_of_ruleAt? {k : Configuration} {c : Char} {r : Rule}
    (h : A.ruleAt? k c = some r) : r.Applies k.state c k.top := by
  simpa using List.find?_some h

@[simp] theorem runFrom_nil (k : Configuration) :
    A.runFrom k [] = ⟨A.Accepting k.state, [.final k]⟩ := rfl

/-- If a rule applies, the run goes on with the rest of the input in the next configuration. -/
theorem runFrom_cons_of_some {k k' : Configuration} {c : Char} (h : A.next? k c = some k')
    (cs : List Char) : A.runFrom k (c :: cs) = (A.runFrom k' cs).after (.consumed k c) := by
  simp [runFrom, h]

/-- If no rule applies, the run ends at once, whatever the rest of the input is. -/
theorem runFrom_cons_of_none {k : Configuration} {c : Char} (h : A.next? k c = none)
    (cs : List Char) : A.runFrom k (c :: cs) = ⟨false, [.consumed k c, .rejected k c]⟩ := by
  simp [runFrom, h]

end Automaton

end PDA
