import PDA.Format.Finding
import PDA.Format.Suggestion

/-!
# Loading a definition

A text is read line by line into a draft, which gathers what the lines say. No line is held against
another one: a later declaration replaces an earlier one, a malformed rule is put down as a fault
and reading goes on. In the end the draft is made into an automaton, unless there are faults.

The draft holds the words of the rules as they stand, so reading does not depend on the token for
epsilon.
-/

namespace PDA.Format

open Text

/-- The members that a value declares: what stands between commas, blanks and all. -/
def members (value : List Char) : List String := (value.splitOn ',').map String.ofList

/-- What has been read of a definition. -/
structure Draft where
  /-- The states of the last declaration. -/
  states : Option (OrderedSet State) := none
  /-- The input alphabet of the last declaration. -/
  inputAlphabet : Option (OrderedSet Symbol) := none
  /-- The stack alphabet of the last declaration. -/
  stackAlphabet : Option (OrderedSet Symbol) := none
  /-- The trimmed text of the last declaration of the start state, which may be blank. -/
  start : Option String := none
  /-- The accept states of the last declaration. -/
  accept : Option (OrderedSet State) := none
  /-- The rules, in order. -/
  rules : Array RuleLine := #[]
  /-- The malformed rules, in order. -/
  faults : Array Fault := #[]
  /-- The notices, in order. -/
  notices : Array Notice := #[]

namespace Draft

/-- Whether a keyword has been declared. Nothing is ever declared by `transitions`. -/
def isDeclared (draft : Draft) : Keyword → Bool
  | .states => draft.states.isSome
  | .inputSymbols => draft.inputAlphabet.isSome
  | .stackSymbols => draft.stackAlphabet.isSome
  | .startState => draft.start.isSome
  | .acceptStates => draft.accept.isSome
  | .transitions => false

/-- Take the value of a declaration over into the draft. -/
def assign (draft : Draft) (keyword : Keyword) (value : List Char) : Draft :=
  match keyword with
  | .states => { draft with states := some (.ofList ((members value).map State.mk)) }
  | .inputSymbols => { draft with inputAlphabet := some (.ofList ((members value).map Symbol.mk)) }
  | .stackSymbols => { draft with stackAlphabet := some (.ofList ((members value).map Symbol.mk)) }
  | .startState => { draft with start := some (String.ofList (trim value)) }
  | .acceptStates => { draft with accept := some (.ofList ((members value).map State.mk)) }
  | .transitions => draft

/-- Put down a notice. -/
def note (draft : Draft) (notice : Notice) : Draft :=
  { draft with notices := draft.notices.push notice }

/-- Read one line, which is trimmed and not blank. -/
def add (draft : Draft) (line : Line) : Draft :=
  match Entry.ofText line.text with
  | .declaration keyword value =>
    let noted :=
      if draft.isDeclared keyword then draft.note (.redeclared line.number line.span keyword)
      else draft
    noted.assign keyword value
  | .rule words => { draft with rules := draft.rules.push words }
  | .malformed defect span =>
    let fault :=
      .malformedRule line.number (String.ofList line.text) defect (span.shift line.offset)
    { draft with faults := draft.faults.push fault }
  | .unrecognized =>
    draft.note (.unrecognized line.number line.span (suggestions (lineHead line.text)))

end Draft

/-- The lines of a text that say something, trimmed, each with its place. -/
def contentLines (text : List Char) : List Line :=
  ((Line.ofText text).map Line.trim).filter (!·.isEmpty)

/-- The draft of a text. -/
def Draft.ofText (text : List Char) : Draft := (contentLines text).foldl Draft.add {}

/-- The start state that a draft declares; a blank one does not count. -/
def Draft.start? (draft : Draft) : Option State :=
  (draft.start.filter (!·.isEmpty)).map State.mk

/-- All faults of a draft: the malformed rules, and last a missing start state. -/
def Draft.allFaults (draft : Draft) : List Fault :=
  draft.faults.toList ++ (if draft.start?.isSome then [] else [.missingStart])

/-- The automaton that a draft describes, given its start state and the token for epsilon. -/
def Draft.toAutomaton (draft : Draft) (start : State) (epsilon : String) : Automaton where
  states := draft.states.getD ∅
  inputAlphabet := draft.inputAlphabet.getD ∅
  stackAlphabet := draft.stackAlphabet.getD ∅
  start := start
  accept := draft.accept.getD ∅
  rules := draft.rules.toList.map (RuleLine.toRule epsilon)

/-- A definition that has been loaded. -/
structure Loaded where
  /-- The automaton. -/
  automaton : Automaton
  /-- What is odd about the text. -/
  notices : List Notice
  deriving DecidableEq

/-- The token that denotes epsilon if no other one is chosen. -/
def defaultEpsilon : String := "λ"

/-- Load a definition from a text in which `epsilon` denotes epsilon. -/
def load (epsilon text : String) : Except (List Fault) Loaded :=
  let draft := Draft.ofText text.toList
  match draft.start?, draft.allFaults with
  | some start, [] => .ok ⟨draft.toAutomaton start epsilon, draft.notices.toList⟩
  | _, faults => .error faults

end PDA.Format
