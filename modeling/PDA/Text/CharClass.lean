/-!
# Character classes

A class of characters is given by the closed ranges of code points it consists of. The property
`White_Space` of the Unicode standard stands here, since it decides where lines and words of a
definition begin and end; the classes that decide how wide a character is stand in modules of their
own (`PDA.Text.Columns`, `PDA.Text.EastAsianWide`, `PDA.Text.GraphemeExtend`).
-/

namespace PDA.Text

/-- A set of characters, as a list of closed ranges of code points. -/
structure CharClass where
  /-- First and last code point of every range. -/
  ranges : List (Nat × Nat)

/-- Whether a character lies in one of the ranges. -/
def CharClass.contains (cls : CharClass) (c : Char) : Bool :=
  cls.ranges.any fun (first, last) => first ≤ c.toNat && c.toNat ≤ last

/-- The Unicode property `White_Space`. -/
def whiteSpace : CharClass where
  ranges := [(0x9, 0xD), (0x20, 0x20), (0x85, 0x85), (0xA0, 0xA0), (0x1680, 0x1680),
    (0x2000, 0x200A), (0x2028, 0x2029), (0x202F, 0x202F), (0x205F, 0x205F), (0x3000, 0x3000)]

/-- Whether a character is white space. -/
def isSpace (c : Char) : Bool := whiteSpace.contains c

end PDA.Text
