import PDA.Automaton.Basic

/-!
# Names that are used but not declared

A definition may use states that it does not declare. This stops no run; `Automaton.issues` lists
every such use, first the start state, then the accept states, then the rules.
-/

namespace PDA

/-- The use of a state that is not declared. -/
inductive Issue
  /-- The start state is not declared. -/
  | start (state : State)
  /-- An accept state is not declared. -/
  | accept (state : State)
  /-- The rule at position `index` comes from or leads to a state that is not declared. -/
  | rule (index : Nat) (state : State)
  deriving DecidableEq

/-- The state that is not declared. -/
def Issue.state : Issue → State
  | .start q | .accept q | .rule _ q => q

/-- The issue in words. -/
def Issue.message : Issue → String
  | .start q => "start state `" ++ q.name ++ "` is not a declared state"
  | .accept q => "accept state `" ++ q.name ++ "` is not a declared state"
  | .rule i q => "rule #" ++ toString i ++ " references undeclared state `" ++ q.name ++ "`"

/-- Those of the given states that are not declared. -/
def Automaton.undeclared (A : Automaton) (qs : List State) : List State :=
  qs.filter (· ∉ A.states)

/-- Every use of a state that is not declared. -/
def Automaton.issues (A : Automaton) : List Issue :=
  (A.undeclared [A.start]).map .start ++ (A.undeclared A.accept.toList).map .accept ++
    A.rules.zipIdx.flatMap fun (r, i) => (A.undeclared [r.source, r.target]).map (.rule i)

end PDA
