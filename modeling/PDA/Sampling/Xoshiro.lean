import PDA.Sampling.Source

/-!
# The generator xoshiro256++

A generator of 64-bit words with a state of 256 bits, seeded from a single word by the generator
SplitMix64. Numbers below a bound are taken from the high half of the product of a word and the
bound; words for which the low half falls outside the largest multiple of the bound are drawn again,
so that all numbers are equally likely.
-/

namespace PDA.Sampling

/-- The state of a generator. -/
structure Xoshiro where
  /-- The first word. -/
  s0 : UInt64
  /-- The second word. -/
  s1 : UInt64
  /-- The third word. -/
  s2 : UInt64
  /-- The fourth word. -/
  s3 : UInt64
  deriving DecidableEq

/-- Rotate a word to the left. -/
def rotateLeft (x : UInt64) (bits : UInt64) : UInt64 := x <<< bits ||| x >>> (64 - bits)

/-- The distance between two states of SplitMix64. -/
def splitMixStep : UInt64 := 0x9e3779b97f4a7c15

/-- The output of SplitMix64 in state `x`. -/
def splitMix (x : UInt64) : UInt64 :=
  let x := (x ^^^ x >>> 30) * 0xbf58476d1ce4e5b9
  let x := (x ^^^ x >>> 27) * 0x94d049bb133111eb
  x ^^^ x >>> 31

namespace Xoshiro

/-- The generator for a seed. -/
def ofSeed (seed : UInt64) : Xoshiro where
  s0 := splitMix (seed + splitMixStep)
  s1 := splitMix (seed + 2 * splitMixStep)
  s2 := splitMix (seed + 3 * splitMixStep)
  s3 := splitMix (seed + 4 * splitMixStep)

/-- The next word. -/
def next (g : Xoshiro) : UInt64 × Xoshiro :=
  let s2 := g.s2 ^^^ g.s0
  let s3 := g.s3 ^^^ g.s1
  (rotateLeft (g.s0 + g.s3) 23 + g.s0,
    { s0 := g.s0 ^^^ s3
      s1 := g.s1 ^^^ s2
      s2 := s2 ^^^ g.s1 <<< 17
      s3 := rotateLeft s3 45 })

/-- The number of words, `2 ^ 64`. -/
def wordCount : Nat := UInt64.size

/-- Whether a word may be used to draw a number below `n`: the low half of its product with `n` lies
below the largest `n * 2 ^ k` that is a word. -/
def isFair (n : Nat) (word : UInt64) : Bool :=
  word.toNat * n % wordCount < n <<< (63 - n.log2)

/-- The first word that may be used to draw a number below `n`. At least half of all words may be
used, so the limit on the number of attempts, after which any word is taken, is out of reach. -/
def fairWord (n : Nat) : (attempts : Nat) → Xoshiro → UInt64 × Xoshiro
  | 0, g => g.next
  | attempts + 1, g =>
    let (word, g) := g.next
    if isFair n word then (word, g) else fairWord n attempts g

/-- The high half of the product of a word and a bound is below the bound. -/
theorem scaled_lt {n : Nat} (h : 0 < n) (word : UInt64) : word.toNat * n / wordCount < n := by
  rw [Nat.div_lt_iff_lt_mul (by decide), Nat.mul_comm n]
  exact Nat.mul_lt_mul_of_pos_right word.toNat_lt_size h

instance : Source Xoshiro where
  draw n h g :=
    let (word, g) := fairWord n 4096 g
    (⟨word.toNat * n / wordCount, scaled_lt h word⟩, g)

end Xoshiro

end PDA.Sampling
