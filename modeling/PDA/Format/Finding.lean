import PDA.Format.Entry

/-!
# What there is to say about a text

Faults keep a definition from being loaded. Notices are about lines that had no effect or replaced
an earlier one; they go with a definition that was loaded.
-/

namespace PDA.Format

open Text

/-- A reason why a text is no definition. -/
inductive Fault
  /-- A line has an arrow but holds no rule. -/
  | malformedRule (line : Nat) (text : String) (defect : Defect) (span : Span)
  /-- No start state is declared. -/
  | missingStart
  deriving DecidableEq

/-- Something odd about a text that is a definition. -/
inductive Notice
  /-- A line is neither a declaration nor a rule. -/
  | unrecognized (line : Nat) (span : Span) (suggestions : List Keyword)
  /-- A line declares what was declared before. -/
  | redeclared (line : Nat) (span : Span) (keyword : Keyword)
  deriving DecidableEq

/-- The keywords as a list in running text. -/
def listKeywords (ks : List Keyword) : String := ", ".intercalate (ks.map Keyword.name)

namespace Fault

/-- Where the fault is; a missing declaration is nowhere. -/
def span? : Fault → Option Span
  | malformedRule _ _ _ span => some span
  | missingStart => none

/-- The fault in words. -/
def message : Fault → String
  | malformedRule line text defect _ =>
    "line " ++ toString line ++ ": malformed rule `" ++ text ++ "`: " ++ defect.message
  | missingStart => "missing `start_state:` declaration"

/-- All faults in words, one per line. -/
def messages (faults : List Fault) : String := "\n".intercalate (faults.map message)

end Fault

namespace Notice

/-- Where the notice belongs. -/
def span : Notice → Span
  | unrecognized _ span _ | redeclared _ span _ => span

/-- The number of the line that the notice is about. -/
def line : Notice → Nat
  | unrecognized line _ _ | redeclared line _ _ => line

/-- The notice in words. -/
def message : Notice → String
  | unrecognized line _ [] => "line " ++ toString line ++ ": ignoring unrecognized line"
  | unrecognized line _ ks =>
    "line " ++ toString line ++ ": ignoring unrecognized line. Did you mean: " ++
      listKeywords ks ++ "?"
  | redeclared line _ k =>
    "line " ++ toString line ++ ": `" ++ k.name ++ "` redeclared, replacing earlier value"

end Notice

end PDA.Format
