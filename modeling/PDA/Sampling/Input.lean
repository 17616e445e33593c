import PDA.Automaton.Basic
import PDA.Sampling.Source

/-!
# Random inputs

Strings to test an automaton with: letters drawn from its input alphabet, and a fixed text after
them. Only the symbols that consist of one character can occur in an input, so only these are drawn.
-/

namespace PDA

open Sampling

/-- The characters that are symbols of the input alphabet, in the order of the alphabet. -/
def Automaton.letters (A : Automaton) : List Char := A.inputAlphabet.toList.filterMap Symbol.char?

variable {γ : Type} [Source γ]

/-- Draw letters from a list that is not empty. -/
def drawLetters (letters : List Char) (h : 0 < letters.length) : (count : Nat) → γ → List Char × γ
  | 0, g => ([], g)
  | count + 1, g =>
    let (i, g) := Source.draw letters.length h g
    let (cs, g) := drawLetters letters h count g
    (letters[i] :: cs, g)

/-- A random string of `count` letters of the input alphabet, followed by `extra`. If there are no
letters, there is no such string, and nothing is drawn. -/
def Automaton.randomInput (A : Automaton) (count : Nat) (extra : String) (g : γ) :
    Option String × γ :=
  if h : 0 < A.letters.length then
    let (cs, g) := drawLetters A.letters h count g
    (some (String.ofList cs ++ extra), g)
  else (none, g)

end PDA
