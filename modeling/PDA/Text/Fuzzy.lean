/-!
# Fuzzy matching

How well a pattern matches a name of which it is a subsequence. The score rewards matches at the
start of the name, after an underscore and next to each other, and charges for gaps. A pattern
without an upper case letter matches upper and lower case alike.

The score is computed in a table with one row per character of the pattern and one column more than
the name has characters. Only two rows are kept: a row is filled over the row before the last one,
from the first column that can matter on, and whatever is not overwritten stays in place.
-/

namespace PDA.Text.Fuzzy

/-- One cell of the table. -/
structure Cell where
  /-- The best score of a match that ends in this column. -/
  matched : Int
  /-- The best score of a match that ends before this column. -/
  skipped : Int
  /-- The bonus that a match in the next column inherits. -/
  bonus : Int := 0

/-- The score of a match that does not exist. -/
def unreached : Int := -32768

/-- How characters of the name and of the pattern are compared. -/
structure Comparison where
  /-- Whether upper and lower case are told apart. -/
  caseSensitive : Bool

/-- The comparison that a pattern asks for: case counts as soon as there is an upper case letter. -/
def Comparison.ofPattern (pattern : List Char) : Comparison := ⟨pattern.any Char.isUpper⟩

/-- Whether a character of the name matches one of the pattern. -/
def Comparison.accepts (cmp : Comparison) (c p : Char) : Bool :=
  if cmp.caseSensitive then c == p else c.toLower == p.toLower

/-- The points for a match of two characters. -/
def Comparison.points (cmp : Comparison) (c p : Char) : Int :=
  if cmp.caseSensitive || c == p then 16 else 14

/-- The positions at which the pattern is found in the name when every character is matched as early
as possible; the name begins at position `i`. -/
def positions? (cmp : Comparison) : (pattern name : List Char) → (i : Nat) → Option (List Nat)
  | [], _, _ => some []
  | _ :: _, [], _ => none
  | p :: ps, c :: cs, i =>
    if cmp.accepts c p then (positions? cmp ps cs (i + 1)).map (i :: ·)
    else positions? cmp (p :: ps) cs (i + 1)

/-- The bonus of every character of a name for being where it is, given the character before it. -/
def bonuses (before : Option Char) : List Char → List Int
  | [] => []
  | c :: cs =>
    (match before with
      | none => 16
      | some '_' => 7
      | some _ => 0) :: bonuses (some c) cs

/-- What a cell is computed from, apart from the cell to its left. -/
structure Place where
  /-- The character of the name in this column. -/
  char : Char
  /-- The bonus of this column. -/
  bonus : Int
  /-- The cell of the last row that a match here continues. -/
  diagonal : Cell
  /-- The cell that is overwritten. -/
  stale : Cell

/-- Compute one cell for the pattern character `p`. A match also sets the bonus of the cell to the
left. -/
def Place.fill (cmp : Comparison) (p : Char) (place : Place) (left : Cell) : Cell × Cell :=
  let skipped := max (left.matched - 4) (left.skipped - 1)
  if cmp.accepts place.char p then
    let inherited := max (max left.bonus place.bonus) 4
    let best := max (place.diagonal.matched + inherited) (place.diagonal.skipped + place.bonus)
    let here := { place.stale with matched := best + cmp.points place.char p, skipped := skipped }
    ({ left with bonus := inherited }, here)
  else (left, { matched := unreached, skipped := skipped })

/-- Compute the cells of a row from `left` on. -/
def fillRow (cmp : Comparison) (p : Char) (left : Cell) : List Place → List Cell
  | [] => [left]
  | place :: places =>
    let (left, here) := place.fill cmp p left
    left :: fillRow cmp p here places

/-- The row for the pattern character `p`, written over the row `old`, where `previous` is the row
of the pattern character before and `i` the first position that can match. -/
def nextRow (cmp : Comparison) (name : List Char) (p : Char) (i : Nat) (old previous : List Cell) :
    List Cell :=
  match old.drop i with
  | [] => old
  | left :: stale =>
    let places := ((name.zip (bonuses none name)).drop i).zip ((previous.drop i).zip stale)
    old.take i ++ fillRow cmp p left (places.map fun ((c, b), diagonal, s) => ⟨c, b, diagonal, s⟩)

/-- The last row of the table, from the first column that can matter on. The arguments are the
pattern with the first position of every character, the row before the last and the last row. -/
def lastRow (cmp : Comparison) (name : List Char) : List (Char × Nat) → List Cell → List Cell →
    List Cell
  | [], _, last => last
  | [(p, i)], old, last => (nextRow cmp name p i old last).drop i
  | (p, i) :: rest, old, last => lastRow cmp name rest last (nextRow cmp name p i old last)

/-- The score of a pattern in a name; `none` if the pattern is no subsequence of the name. -/
def score? (name pattern : List Char) : Option Int :=
  let cmp := Comparison.ofPattern pattern
  (positions? cmp pattern name 0).map fun places =>
    if pattern.isEmpty then 0
    else
      let width := name.length + 1
      let rows := lastRow cmp name (pattern.zip places)
        (List.replicate width ⟨unreached, unreached, 0⟩) (List.replicate width ⟨unreached, -1, 0⟩)
      (rows.map Cell.matched).foldl max unreached

end PDA.Text.Fuzzy
