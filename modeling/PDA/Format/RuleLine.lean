import PDA.Text.Line
import PDA.Automaton.Basic

/-!
# Lines that hold a rule

A rule is written `FROM READ POP -> TO [PUSH]`. Its words stand in any layout; words after the third
one on the left and after the second one on the right mean nothing. The words do not depend on the
token for epsilon, which comes in only when they are given their meaning (`RuleLine.toRule`).
-/

namespace PDA.Format

open Text

/-- What separates the two sides of a rule. -/
def arrow : List Char := ['-', '>']

/-- The pieces of a text between its arrows, which are found from the left. -/
def splitArrows : List Char → List (List Char)
  | [] => [[]]
  | '-' :: '>' :: cs => [] :: splitArrows cs
  | c :: cs => (splitArrows cs).modifyHead (c :: ·)

/-- The words of a rule. -/
structure RuleLine where
  /-- The state in which the rule applies. -/
  source : String
  /-- The symbol to be read, or the token for epsilon. -/
  read : String
  /-- The symbol to be popped, or the token for epsilon. -/
  pop : String
  /-- The state that the rule leads to. -/
  target : String
  /-- The symbols to be pushed, one per character, or the token for epsilon. -/
  push : Option String := none
  deriving DecidableEq

namespace RuleLine

/-- The symbol that a word stands for; `none` is epsilon. -/
def symbol? (epsilon word : String) : Option Symbol :=
  if word = epsilon then none else some ⟨word⟩

/-- The symbols that a word pushes. -/
def pushed (epsilon word : String) : List Symbol :=
  if word = epsilon then [] else word.toList.map Symbol.ofChar

/-- The rule that the words stand for when `epsilon` denotes epsilon. -/
def toRule (epsilon : String) (words : RuleLine) : Rule where
  source := ⟨words.source⟩
  read := symbol? epsilon words.read
  pop := symbol? epsilon words.pop
  target := ⟨words.target⟩
  push := words.push.elim [] (pushed epsilon)

end RuleLine

/-- What is wrong with a line that has an arrow but holds no rule. -/
inductive Defect
  /-- There are only `count` words, fewer than three, before the arrow. -/
  | tooFewWords (count : Nat)
  /-- There is no word after the arrow. -/
  | noTarget
  /-- There is more than one arrow. -/
  | extraArrow
  deriving DecidableEq

/-- The defect in words. -/
def Defect.message : Defect → String
  | tooFewWords n =>
    "expected `FROM READ POP` before `->`, only " ++ toString n ++ " token(s) provided"
  | noTarget => "expected `TO [PUSH]` after `->`"
  | extraArrow => "a rule may only contain a single `->`"

/-- Read a rule from the pieces of a line: what stands before the first arrow, what stands between
it and the next one, and the pieces after that. A defect comes with the range of bytes, counted from
the beginning of the line, that shows it: the second arrow, or the first one, or all up to the first
one if there are words before it. -/
def RuleLine.ofPieces (left right : List Char) (more : List (List Char)) :
    Except (Defect × Span) RuleLine :=
  let first : Span := ⟨byteLength left, byteLength left + byteLength arrow⟩
  match more, words left, words right with
  | _ :: _, _, _ =>
    let start := first.stop + byteLength right
    .error (.extraArrow, ⟨start, start + byteLength arrow⟩)
  | [], source :: read :: pop :: _, target :: rest =>
    .ok {
      source := String.ofList source
      read := String.ofList read
      pop := String.ofList pop
      target := String.ofList target
      push := rest.head?.map String.ofList }
  | [], _ :: _ :: _ :: _, [] => .error (.noTarget, first)
  | [], [], _ => .error (.tooFewWords 0, first)
  | [], few, _ => .error (.tooFewWords few.length, ⟨0, first.stop⟩)

end PDA.Format
