import PDA.Text.CharClass

/-!
# Lines, words and margins

How text is taken apart. Everything here works on lists of characters and loses nothing but
separators: lines end at a line feed only, words are the maximal runs without white space, trimming
removes white space from the two ends.
-/

namespace PDA.Text

/-- The lines of a text. A text that ends in a line feed has an empty last line. -/
def lines (cs : List Char) : List (List Char) := cs.splitOn '\n'

/-- The words of a text, in order: its nonempty pieces between white space. -/
def words (cs : List Char) : List (List Char) :=
  (cs.splitOnP isSpace).filter (!·.isEmpty)

/-- Drop the white space at the front. -/
def trimStart (cs : List Char) : List Char := cs.dropWhile isSpace

/-- Drop the white space at the back. -/
def trimEnd (cs : List Char) : List Char := (cs.reverse.dropWhile isSpace).reverse

/-- Drop the white space at both ends. -/
def trim (cs : List Char) : List Char := trimEnd (trimStart cs)

end PDA.Text
