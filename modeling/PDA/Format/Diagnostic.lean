import PDA.Format.Finding
import PDA.Text.Columns

/-!
# Diagnostics

Faults and notices as they are shown to a reader: a headline, the line of the text that it is about
with the place underlined, and notes.

```
error: malformed rule
  ┌─ name:3:1
  │
3 │ q0 a -> q1
  │ ^^^^^^^ expected `FROM READ POP` before `->`, only 2 token(s) provided
  │
  = rules have the form `FROM READ POP -> TO [PUSH]`
```
-/

namespace PDA.Format

open Text

/-- A place to underline, with a text to put beside it. -/
structure Label where
  /-- The bytes to underline, all of them in one line. -/
  span : Span
  /-- The text beside them, which may be empty. -/
  text : String := ""

/-- How bad the matter of a diagnostic is. -/
inductive Severity
  /-- The text is no definition. -/
  | error
  /-- The text is a definition all the same. -/
  | warning
  deriving DecidableEq

/-- The word at the beginning of the headline. -/
def Severity.name : Severity → String
  | error => "error"
  | warning => "warning"

/-- A message about a text. -/
structure Diagnostic where
  /-- How bad it is. -/
  severity : Severity
  /-- The headline. -/
  message : String
  /-- The place that it is about. -/
  label? : Option Label := none
  /-- Further remarks. -/
  notes : List String := []

/-- How a fault is shown. -/
def Fault.diagnostic : Fault → Diagnostic
  | malformedRule _ _ defect span =>
    { severity := .error
      message := "malformed rule"
      label? := some ⟨span, defect.message⟩
      notes := ["rules have the form `FROM READ POP -> TO [PUSH]`"] }
  | missingStart =>
    { severity := .error
      message := "missing `start_state:` declaration"
      notes := ["add: start_state:<state>"] }

/-- How a notice is shown. -/
def Notice.diagnostic : Notice → Diagnostic
  | unrecognized _ span ks =>
    { severity := .warning
      message := "ignoring unrecognized line"
      label? := some ⟨span, ""⟩
      notes := if ks.isEmpty then [] else ["did you mean: " ++ listKeywords ks ++ "?"] }
  | redeclared _ span k =>
    { severity := .warning
      message := "`" ++ k.name ++ "` redeclared"
      label? := some ⟨span, "this replaces the earlier value"⟩ }

/-! ## Rendering -/

/-- A line as it is shown, without carriage returns and the like at its end. -/
def shownText (text : List Char) : List Char :=
  (text.reverse.dropWhile fun c => c = '\n' || c = '\r' || c = '\x00').reverse

/-- The marks under a line that begins at byte `start`: carets under the characters that overlap the
span, blanks under those before them, nothing under those after it. Characters come with their
columns and their bytes. -/
def underline (span : Span) (start : Nat) : List (Nat × Nat) → List Char
  | [] => []
  | (columns, bytes) :: rest =>
    (if start < span.stop then
        List.replicate columns (if span.start < start + bytes then '^' else ' ')
      else []) ++ underline span (start + bytes) rest

/-- The marks under a line. The end of the line counts as one more character, so that a span beyond
the shown text can be seen. -/
def marks (span : Span) (line : Line) : List Char :=
  let cells := (withColumns 0 (shownText line.text)).map fun (c, columns) => (columns, c.utf8Size)
  underline span line.offset (cells ++ [(1, 1)])

/-- The number of characters of the line that begin before a byte. -/
def charsBefore (byte start : Nat) : List Char → Nat
  | [] => 0
  | c :: cs => if start < byte then charsBefore byte (start + c.utf8Size) cs + 1 else 0

/-- The line of a text in which a byte lies, given all its lines. -/
def lineAt? (lines : List Line) (byte : Nat) : Option Line :=
  (lines.filter (·.offset ≤ byte)).getLast?

/-- The part of a diagnostic that shows a line, given the margin of the lines below it. -/
def Label.render (name margin : String) (label : Label) (line : Line) : String :=
  let column := charsBefore label.span.start line.offset line.text + 1
  let text := if label.text.isEmpty then "" else " " ++ label.text
  margin ++ " ┌─ " ++ name ++ ":" ++ toString line.number ++ ":" ++ toString column ++ "\n" ++
    margin ++ " │\n" ++
    toString line.number ++ " │ " ++ String.ofList (expandTabs (shownText line.text)) ++ "\n" ++
    margin ++ " │ " ++ String.ofList (marks label.span line) ++ text ++ "\n"

/-- A diagnostic about a text called `name`, given the lines of the text. -/
def Diagnostic.render (name : String) (lines : List Line) (d : Diagnostic) : String :=
  let located := d.label?.bind fun label => (lineAt? lines label.span.start).map (label, ·)
  let margin := located.elim "" fun (_, line) => String.ofList
    (List.replicate (toString line.number).length ' ')
  let shown := located.elim "" fun (label, line) => label.render name margin line
  let gap := if located.isSome && !d.notes.isEmpty then margin ++ " │\n" else ""
  d.severity.name ++ ": " ++ d.message ++ "\n" ++ shown ++ gap ++
    String.join (d.notes.map fun note => margin ++ " = " ++ note ++ "\n") ++ "\n"

/-- Diagnostics about a text called `name`, one after the other. -/
def renderDiagnostics (name text : String) (ds : List Diagnostic) : String :=
  let lines := Line.ofText text.toList
  String.join (ds.map (Diagnostic.render name lines))

end PDA.Format
