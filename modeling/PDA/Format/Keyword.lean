/-!
# Keywords

The words that begin a declaration `keyword:value` in the text of a definition.
-/

namespace PDA.Format

/-- A keyword of the format. -/
inductive Keyword
  /-- Declares the states. -/
  | states
  /-- Declares the input alphabet. -/
  | inputSymbols
  /-- Declares the stack alphabet. -/
  | stackSymbols
  /-- Declares the start state. -/
  | startState
  /-- Declares the accept states. -/
  | acceptStates
  /-- Announces the rules, and declares nothing. -/
  | transitions
  deriving DecidableEq

namespace Keyword

/-- The keyword as it is written. -/
def name : Keyword → String
  | states => "states"
  | inputSymbols => "input_symbols"
  | stackSymbols => "stack_symbols"
  | startState => "start_state"
  | acceptStates => "accept_states"
  | transitions => "transitions"

/-- All keywords, in the order in which their declarations are written. -/
def all : List Keyword :=
  [states, inputSymbols, stackSymbols, startState, acceptStates, transitions]

/-- The keyword with the given name. -/
def ofName? (name : String) : Option Keyword := all.find? fun k => k.name = name

/-- The list leaves out no keyword. -/
theorem mem_all (k : Keyword) : k ∈ all := by cases k <;> decide

/-- `ofName?` reads what `name` writes. -/
@[simp] theorem ofName?_name (k : Keyword) : ofName? k.name = some k := by cases k <;> decide

/-- `ofName?` reads nothing but what `name` writes. -/
theorem ofName?_eq_some_iff {name : String} {k : Keyword} :
    ofName? name = some k ↔ k.name = name := by
  constructor
  · intro h
    simpa using List.find?_some h
  · rintro rfl
    exact ofName?_name k

end Keyword

end PDA.Format
