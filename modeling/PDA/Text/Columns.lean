import PDA.Text.EastAsianWide
import PDA.Text.GraphemeExtend

/-!
# Columns of a terminal

How many columns the characters of a line take when they are printed: none for control characters,
combining marks and characters that are not shown, two for wide ones, one for nearly all others, and
for a tab as many as it takes to reach the next tab stop.
-/

namespace PDA.Text

/-- Control characters. -/
def control : CharClass where
  ranges := [(0x0, 0x1F), (0x7F, 0x9F)]

/-- The characters that are not shown: the Unicode property `Default_Ignorable_Code_Point`. -/
def ignorable : CharClass where
  ranges := [
    (0xAD, 0xAD), (0x34F, 0x34F), (0x61C, 0x61C), (0x115F, 0x1160), (0x17B4, 0x17B5),
    (0x180B, 0x180F), (0x200B, 0x200F), (0x202A, 0x202E), (0x2060, 0x206F), (0x3164, 0x3164),
    (0xFE00, 0xFE0F), (0xFEFF, 0xFEFF), (0xFFA0, 0xFFA0), (0xFFF0, 0xFFF8), (0x1BCA0, 0x1BCA3),
    (0x1D173, 0x1D17A), (0xE0000, 0xE0FFF)]

/-- The vowels and final consonants of Hangul syllables, which are printed with the consonant before
them. -/
def joiningJamo : CharClass where
  ranges := [(0x1160, 0x11FF), (0xD7B0, 0xD7C6), (0xD7CB, 0xD7FB)]

/-- Marks that are written before or between the characters over which they are printed. -/
def precedingMark : CharClass where
  ranges := [
    (0x605, 0x605), (0x70F, 0x70F), (0x890, 0x891), (0x8E2, 0x8E2), (0xD4E, 0xD4E),
    (0xA8FA, 0xA8FA), (0x111C2, 0x111C3), (0x1193F, 0x1193F), (0x11941, 0x11941),
    (0x11A3A, 0x11A3A), (0x11A84, 0x11A89), (0x11D46, 0x11D46), (0x11F02, 0x11F02)]

/-- Vowel signs that stand for two marks, each of which extends the character before. -/
def compositeMark : CharClass where
  ranges := [
    (0xCC0, 0xCC0), (0xCC7, 0xCC8), (0xCCA, 0xCCB), (0x1B3B, 0x1B3B), (0x1B3D, 0x1B3D),
    (0x1B43, 0x1B43)]

/-- Joiners that are shown when they stand alone: the filler in the place of a Hangul consonant, and
the joiner of Tifinagh consonants. -/
def visibleJoiner : CharClass where
  ranges := [(0x115F, 0x115F), (0x2D7F, 0x2D7F)]

/-- Whether a character takes no column. -/
def isZeroWidth (c : Char) : Bool :=
  [control, ignorable, joiningJamo, precedingMark, compositeMark, graphemeExtend].any
    (·.contains c) && !visibleJoiner.contains c

/-- The distance between two tab stops. -/
def tabStop : Nat := 4

/-- The number of columns of a character other than a tab. Two Khmer signs are as wide as the letters
that they are composed of. -/
def columns (c : Char) : Nat :=
  if isZeroWidth c then 0
  else if c = '\u17d8' then 3
  else if c = '\u17a4' || eastAsianWide.contains c then 2
  else 1

/-- The number of columns of a character that is printed at column `column`, counted from zero. -/
def columnsAt (column : Nat) (c : Char) : Nat :=
  if c = '\t' then tabStop - column % tabStop else columns c

/-- The characters of a line that starts at column `column`, each with the number of its columns. -/
def withColumns (column : Nat) : List Char → List (Char × Nat)
  | [] => []
  | c :: cs => (c, columnsAt column c) :: withColumns (column + columnsAt column c) cs

/-- A line as it is printed: tabs are written as blanks. -/
def expandTabs (cs : List Char) : List Char :=
  (withColumns 0 cs).flatMap fun (c, n) => if c = '\t' then List.replicate n ' ' else [c]

end PDA.Text
