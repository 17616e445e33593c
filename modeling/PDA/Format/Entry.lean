import PDA.Format.Keyword
import PDA.Format.RuleLine

/-!
# What a line is

A line of a definition, trimmed and not blank, is a declaration if it begins with a keyword and a
colon, otherwise a rule if it has an arrow, and otherwise nothing that is known. The value of a
declaration ends at the next colon.
-/

namespace PDA.Format

open Text

/-- What a line of a definition is. -/
inductive Entry
  /-- A declaration and its value. -/
  | declaration (keyword : Keyword) (value : List Char)
  /-- A rule. -/
  | rule (words : RuleLine)
  /-- A line that has an arrow but holds no rule; `span` shows where in the line. -/
  | malformed (defect : Defect) (span : Span)
  /-- Any other line. -/
  | unrecognized
  deriving DecidableEq

/-- The keyword and the value of a line that is a declaration. -/
def declaration? (text : List Char) : Option (Keyword × List Char) :=
  match text.splitOn ':' with
  | name :: value :: _ => (Keyword.ofName? (String.ofList name)).map (·, value)
  | _ => none

/-- What the text of a line is. -/
def Entry.ofText (text : List Char) : Entry :=
  match declaration? text with
  | some (keyword, value) => .declaration keyword value
  | none =>
    match splitArrows text with
    | left :: right :: more =>
      match RuleLine.ofPieces left right more with
      | .ok words => .rule words
      | .error (defect, span) => .malformed defect span
    | _ => .unrecognized

end PDA.Format
