import PDA.Format.Keyword
import PDA.Automaton.Basic
import PDA.Text.Utf8

/-!
# Saving a definition

An automaton is written in the format that is loaded: the declarations in a fixed order, then one
rule per line. An empty set is left out, for an empty declaration would be read as the set that has
the empty text as its only member.

The text is put together from many small pieces, which can be written one by one into a buffer of
limited size.
-/

namespace PDA.Format

open Text

/-- The pieces of the declaration of a set. -/
def savedSet (keyword : Keyword) : List String → List String
  | [] => []
  | first :: rest => keyword.name :: ":" :: first :: (rest.flatMap fun m => [",", m]) ++ ["\n"]

/-- The text of a `read` or `pop` slot. -/
def savedSlot (epsilon : String) (s : Option Symbol) : String := s.elim epsilon Symbol.text

/-- The pieces of a rule. -/
def savedRule (epsilon : String) (r : Rule) : List String :=
  [r.source.name, " ", savedSlot epsilon r.read, " ", savedSlot epsilon r.pop, " -> ",
    r.target.name] ++
    (if r.push.isEmpty then [] else " " :: r.push.map Symbol.text) ++ ["\n"]

/-- The pieces of the text of an automaton, in order. -/
def savedPieces (epsilon : String) (A : Automaton) : List String :=
  savedSet .states (A.states.toList.map State.name) ++
    savedSet .inputSymbols (A.inputAlphabet.toList.map Symbol.text) ++
    savedSet .stackSymbols (A.stackAlphabet.toList.map Symbol.text) ++
    [Keyword.startState.name, ":", A.start.name, "\n"] ++
    savedSet .acceptStates (A.accept.toList.map State.name) ++
    [Keyword.transitions.name, ":", "\n"] ++ A.rules.flatMap (savedRule epsilon)

/-- The text of an automaton in which `epsilon` denotes epsilon. -/
def save (epsilon : String) (A : Automaton) : String := String.join (savedPieces epsilon A)

/-! ## Buffers of limited size -/

/-- A buffer that can take only so many bytes. -/
structure Buffer where
  /-- The bytes that it holds. -/
  bytes : List UInt8 := []
  /-- The number of bytes that it can still take. -/
  room : Nat
  deriving DecidableEq

namespace Buffer

/-- Append as many of the bytes as there is room for. The flag says whether all of them were
appended. -/
def append (buffer : Buffer) (bytes : List UInt8) : Bool × Buffer :=
  (bytes.length ≤ buffer.room, ⟨buffer.bytes ++ bytes.take buffer.room, buffer.room - bytes.length⟩)

/-- Write pieces of text one after the other, and stop at the first one that does not fit. -/
def writeAll (buffer : Buffer) : List String → Bool × Buffer
  | [] => (true, buffer)
  | piece :: pieces =>
    match buffer.append (utf8 piece.toList) with
    | (true, buffer) => buffer.writeAll pieces
    | (false, buffer) => (false, buffer)

end Buffer

/-- Write an automaton into a buffer that takes `limit` bytes. The flag says whether all of it was
written. -/
def saveInto (limit : Nat) (epsilon : String) (A : Automaton) : Bool × List UInt8 :=
  let (complete, buffer) := Buffer.writeAll ⟨[], limit⟩ (savedPieces epsilon A)
  (complete, buffer.bytes)

end PDA.Format
