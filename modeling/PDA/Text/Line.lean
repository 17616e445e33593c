import PDA.Text.Split
import PDA.Text.Utf8

/-!
# Places in a text

A place in a text is given in bytes of its UTF-8 encoding, a line by its number, counted from one,
and the place where it begins.
-/

namespace PDA.Text

/-- A range of bytes. -/
structure Span where
  /-- The first byte. -/
  start : Nat
  /-- The byte after the last one. -/
  stop : Nat
  deriving DecidableEq

/-- The range moved to the right. -/
def Span.shift (s : Span) (bytes : Nat) : Span := ⟨bytes + s.start, bytes + s.stop⟩

/-- A line, or a part of one, with its place in the text it comes from. -/
structure Line where
  /-- The number of the line, counted from one. -/
  number : Nat
  /-- The byte at which the text of the line begins. -/
  offset : Nat
  /-- The text of the line, without a line feed. -/
  text : List Char
  deriving DecidableEq

namespace Line

/-- The bytes of the line. -/
def span (line : Line) : Span := ⟨line.offset, line.offset + byteLength line.text⟩

/-- Number the lines and find their places, the first one being line `number` at byte `offset`. -/
def locate (number offset : Nat) : List (List Char) → List Line
  | [] => []
  | cs :: css => ⟨number, offset, cs⟩ :: locate (number + 1) (offset + byteLength cs + 1) css

/-- The lines of a text with their places. -/
def ofText (cs : List Char) : List Line := locate 1 0 (lines cs)

/-- The line without the white space at its ends. -/
def trim (line : Line) : Line where
  number := line.number
  offset := line.offset + byteLength (line.text.takeWhile isSpace)
  text := Text.trim line.text

/-- Whether nothing is left of the line. -/
def isEmpty (line : Line) : Bool := line.text.isEmpty

end Line

end PDA.Text
