import PDA.Automaton.Basic

/-!
# The order of states and symbols

States and symbols are ordered by their texts, which are compared character by character.
-/

namespace PDA

instance : LE State := ⟨fun p q => p.name ≤ q.name⟩

instance : DecidableLE State := fun p q => inferInstanceAs (Decidable (p.name ≤ q.name))

instance : LE Symbol := ⟨fun s t => s.text ≤ t.text⟩

instance : DecidableLE Symbol := fun s t => inferInstanceAs (Decidable (s.text ≤ t.text))

/-- The states in order, repetitions included. -/
def sortStates (qs : List State) : List State := qs.mergeSort

/-- The symbols in order, each of them once. -/
def sortSymbols (ss : List Symbol) : List Symbol := (OrderedSet.ofList ss).toList.mergeSort

end PDA
