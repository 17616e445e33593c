import PDA.OrderedSet

/-!
# Pushdown automata

A pushdown automaton has control states, a stack of symbols and an ordered list of rules
`source read pop -> target push`. It is run deterministically: of the rules that apply, the first
one in the list is taken (`Automaton.findRule?`), so an earlier rule shadows a later one.

Epsilon is not a symbol: a rule that reads or pops nothing in particular has `none` in that slot.
The floor of the stack is not a symbol either: an empty stack has no top.
-/

namespace PDA

/-- A control state, known by its name only. -/
structure State where
  /-- The name, which may be any text. -/
  name : String
  deriving DecidableEq, Inhabited

/-- An input or stack symbol. -/
structure Symbol where
  /-- The text of the symbol, which may be any text. -/
  text : String
  deriving DecidableEq, Inhabited

namespace Symbol

/-- The symbol that consists of one character. -/
def ofChar (c : Char) : Symbol := ⟨String.singleton c⟩

/-- The character of a symbol that consists of exactly one. -/
def char? (s : Symbol) : Option Char :=
  match s.text.toList with
  | [c] => some c
  | _ => none

/-- The symbol consists of exactly the character `c`. -/
def IsChar (s : Symbol) (c : Char) : Prop := s.char? = some c

instance (s : Symbol) (c : Char) : Decidable (s.IsChar c) :=
  inferInstanceAs (Decidable (_ = _))

/-- `char?` finds a character exactly if it is the whole text of the symbol. -/
theorem char?_eq_some_iff {s : Symbol} {c : Char} : s.char? = some c ↔ s.text.toList = [c] := by
  unfold char?
  split
  · rename_i d hd
    simp [hd]
  · rename_i hne
    simp only [reduceCtorEq, false_iff]
    exact hne c

/-- `IsChar` and `ofChar` say the same thing. -/
theorem isChar_iff_eq_ofChar {s : Symbol} {c : Char} : s.IsChar c ↔ s = ofChar c := by
  obtain ⟨text⟩ := s
  rw [IsChar, char?_eq_some_iff, ofChar, mk.injEq, ← String.toList_inj, String.toList_singleton]

@[simp] theorem char?_ofChar (c : Char) : (ofChar c).char? = some c :=
  char?_eq_some_iff.2 (String.toList_singleton c)

/-- Different characters are different symbols. -/
theorem ofChar_injective {c d : Char} (h : ofChar c = ofChar d) : c = d := by
  have hc : (ofChar d).char? = some c := h ▸ char?_ofChar c
  simpa using hc.symm

end Symbol

/-- One rule `source read pop -> target push`. -/
structure Rule where
  /-- The state in which the rule applies. -/
  source : State
  /-- The symbol to be read; `none` reads any character. -/
  read : Option Symbol
  /-- The symbol to be taken off the stack; `none` leaves the stack alone. -/
  pop : Option Symbol
  /-- The state that the rule leads to. -/
  target : State
  /-- The symbols to be pushed, the last one ending up on top. -/
  push : List Symbol := []
  deriving DecidableEq, Inhabited

namespace Rule

/-- The rule may read the character `c`. -/
def Reads (r : Rule) (c : Char) : Prop := ∀ s ∈ r.read, s.IsChar c

/-- The rule may be taken with `top` on top of the stack; an empty stack has `top = none`. -/
def Pops (r : Rule) (top : Option Symbol) : Prop := ∀ s ∈ r.pop, top = some s

/-- The rule applies in state `q` to the character `c` with `top` on top of the stack. -/
def Applies (r : Rule) (q : State) (c : Char) (top : Option Symbol) : Prop :=
  r.source = q ∧ r.Reads c ∧ r.Pops top

instance (r : Rule) (c : Char) : Decidable (r.Reads c) :=
  match h : r.read with
  | none => isTrue (by simp [Reads, h])
  | some s => decidable_of_iff (s.IsChar c) (by simp [Reads, h])

instance (r : Rule) (top : Option Symbol) : Decidable (r.Pops top) :=
  match h : r.pop with
  | none => isTrue (by simp [Pops, h])
  | some s => decidable_of_iff (top = some s) (by simp [Pops, h])

instance (r : Rule) (q : State) (c : Char) (top : Option Symbol) : Decidable (r.Applies q c top) :=
  inferInstanceAs (Decidable (_ ∧ _))

/-- How much deeper the stack is after the rule has been taken. -/
def depthChange (r : Rule) : Int := r.push.length - r.pop.toList.length

end Rule

/-- The definition of a pushdown automaton. Nothing is required of it: its states and symbols need
not be declared (see `Automaton.issues`). -/
structure Automaton where
  /-- The declared states. -/
  states : OrderedSet State := ∅
  /-- The declared input symbols. -/
  inputAlphabet : OrderedSet Symbol := ∅
  /-- The declared stack symbols. -/
  stackAlphabet : OrderedSet Symbol := ∅
  /-- The state in which every run starts. -/
  start : State
  /-- The accept states. -/
  accept : OrderedSet State := ∅
  /-- The rules, in the order in which they are tried. -/
  rules : List Rule := []
  deriving DecidableEq, Inhabited

namespace Automaton

/-- The first rule that applies. -/
def findRule? (A : Automaton) (q : State) (c : Char) (top : Option Symbol) : Option Rule :=
  A.rules.find? fun r => r.Applies q c top

/-- `q` is an accept state. -/
def Accepting (A : Automaton) (q : State) : Prop := q ∈ A.accept

instance (A : Automaton) (q : State) : Decidable (A.Accepting q) :=
  inferInstanceAs (Decidable (_ ∈ _))

/-- Put a rule in front of the `i`-th one, or at the end if there are no more than `i` rules. -/
def insertRule (A : Automaton) (i : Nat) (r : Rule) : Automaton :=
  { A with rules := A.rules.take i ++ r :: A.rules.drop i }

/-- The two definitions are equal up to the order in which their sets are listed. The order of the
rules counts. -/
def Same (A B : Automaton) : Prop :=
  A.states.Same B.states ∧ A.inputAlphabet.Same B.inputAlphabet ∧
    A.stackAlphabet.Same B.stackAlphabet ∧ A.start = B.start ∧ A.accept.Same B.accept ∧
      A.rules = B.rules

instance (A B : Automaton) : Decidable (Same A B) :=
  inferInstanceAs (Decidable (_ ∧ _))

end Automaton

end PDA
