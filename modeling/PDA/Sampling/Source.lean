/-!
# Sources of random numbers

All that a program needs from a random number generator: to draw a number below a bound. That the
number is below the bound is part of the type, so what is drawn can be used as an index.
-/

namespace PDA.Sampling

/-- Generators with states in `γ`. -/
class Source (γ : Type) where
  /-- Draw a number below `n`. -/
  draw : (n : Nat) → 0 < n → γ → Fin n × γ

variable {γ : Type} [Source γ]

/-- Draw a number from `low` to `high`, both included. -/
def drawBetween (low high : Nat) (g : γ) : Nat × γ :=
  let (i, g) := Source.draw (high - low + 1) (Nat.succ_pos _) g
  (low + i, g)

end PDA.Sampling
