import PDA.Format.Save

/-!
# Saving into a buffer of limited size

Writing pieces one by one leaves a buffer as writing all of them at once does (`Buffer.writeAll_eq_append`),
so what is in it is the beginning of the text, cut off where the room ends. The same holds of a program that
writes set by set and rule by rule and gives up at the first write that fails (`writes_writeAutomaton`).
-/

namespace PDA.Format

open Text

/-! ## Buffers -/

namespace Buffer

variable {buffer : Buffer} {xs : List UInt8}

/-- What fits is written whole. -/
theorem append_of_le (h : xs.length ≤ buffer.room) :
    buffer.append xs = (true, ⟨buffer.bytes ++ xs, buffer.room - xs.length⟩) := by
  rw [append, List.take_of_length_le h, decide_eq_true h]

/-- What does not fit is cut off where the room ends. -/
theorem append_of_lt (h : buffer.room < xs.length) :
    buffer.append xs = (false, ⟨buffer.bytes ++ xs.take buffer.room, 0⟩) := by
  rw [append, Nat.sub_eq_zero_of_le (Nat.le_of_lt h), decide_eq_false (Nat.not_le_of_lt h)]

/-- After a write that was complete the next one has what room is left. -/
theorem append_append_of_le (h : xs.length ≤ buffer.room) (ys : List UInt8) :
    buffer.append (xs ++ ys) = (buffer.append xs).2.append ys := by
  have hfits : xs.length + ys.length ≤ buffer.room ↔ ys.length ≤ buffer.room - xs.length := by omega
  rw [append_of_le h, append, append, List.length_append, List.take_append,
    List.take_of_length_le h, List.append_assoc, Nat.sub_sub, decide_eq_decide.2 hfits]

/-- Once a write has failed, nothing that comes after it matters. -/
theorem append_append_of_lt (h : buffer.room < xs.length) (ys : List UInt8) :
    buffer.append (xs ++ ys) = buffer.append xs := by
  have hlong : buffer.room < (xs ++ ys).length := by
    rw [List.length_append]
    omega
  rw [append_of_lt hlong, append_of_lt h, List.take_append_of_le_length (Nat.le_of_lt h)]

/-- Writing piece by piece comes to the same as writing all pieces at once, also where the room ends within
one. -/
theorem writeAll_eq_append (buffer : Buffer) (pieces : List String) :
    buffer.writeAll pieces = buffer.append (utf8 (String.join pieces).toList) := by
  induction pieces generalizing buffer with
  | nil => simp [writeAll, append, utf8]
  | cons piece pieces ih =>
    rw [String.join_cons, String.toList_append, utf8_append, writeAll]
    rcases Nat.lt_or_ge buffer.room (utf8 piece.toList).length with h | h
    · rw [append_append_of_lt h, append_of_lt h]
    · rw [append_append_of_le h, append_of_le h]
      exact ih _

/-- The second pieces are only written if the first ones fitted. -/
theorem writeAll_append (buffer : Buffer) (ps qs : List String) :
    buffer.writeAll (ps ++ qs) =
      match buffer.writeAll ps with
      | (true, buffer) => buffer.writeAll qs
      | (false, buffer) => (false, buffer) := by
  rw [writeAll_eq_append, writeAll_eq_append, String.join_append, String.toList_append, utf8_append]
  rcases Nat.lt_or_ge buffer.room (utf8 (String.join ps).toList).length with h | h
  · rw [append_append_of_lt h, append_of_lt h]
  · rw [append_append_of_le h, append_of_le h]
    exact (writeAll_eq_append _ qs).symm

end Buffer

/-! ## Writing with an exit at each write -/

section Writing

/-- A program that writes into a buffer and may give up. -/
abbrev Writing := ExceptT Unit (StateM Buffer) Unit

/-- How a program ends that gives up unless everything was written. -/
def ending : Bool × Buffer → Except Unit Unit × Buffer
  | (true, buffer) => (.ok (), buffer)
  | (false, buffer) => (.error (), buffer)

/-- Write a piece of text, and give up if not all of it fits. -/
def write (piece : String) : Writing :=
  ExceptT.mk fun buffer => ending (buffer.append (utf8 piece.toList))

/-- Write the declaration of a set, unless the set is empty. -/
def writeSet (keyword : Keyword) : List String → Writing
  | [] => pure ()
  | first :: rest => do
    write keyword.name
    write ":"
    write first
    rest.forM fun name => do
      write ","
      write name
    write "\n"

/-- Write the symbols that a rule pushes, if there are any. -/
def writePush (push : List Symbol) : Writing :=
  if push.isEmpty then pure ()
  else do
    write " "
    push.forM fun symbol => write symbol.text

/-- Write a rule. -/
def writeRule (epsilon : String) (r : Rule) : Writing := do
  write r.source.name
  write " "
  write (savedSlot epsilon r.read)
  write " "
  write (savedSlot epsilon r.pop)
  write " -> "
  write r.target.name
  writePush r.push
  write "\n"

/-- Write an automaton part by part. -/
def writeAutomaton (epsilon : String) (A : Automaton) : Writing := do
  writeSet .states (A.states.toList.map State.name)
  writeSet .inputSymbols (A.inputAlphabet.toList.map Symbol.text)
  writeSet .stackSymbols (A.stackAlphabet.toList.map Symbol.text)
  write Keyword.startState.name
  write ":"
  write A.start.name
  write "\n"
  writeSet .acceptStates (A.accept.toList.map State.name)
  write Keyword.transitions.name
  write ":"
  write "\n"
  A.rules.forM (writeRule epsilon)

/-- The program writes the pieces, and gives up at the first one that does not fit. -/
def Writes (program : Writing) (pieces : List String) : Prop :=
  ∀ buffer, program.run.run buffer = ending (buffer.writeAll pieces)

theorem writes_pure : Writes (pure ()) [] := fun _ => rfl

theorem writes_write (piece : String) : Writes (write piece) [piece] := by
  intro buffer
  have hpiece : String.join [piece] = piece := by simp
  rw [Buffer.writeAll_eq_append, hpiece]
  rfl

/-- Two writers, one after the other, write the pieces of the first and then those of the second. -/
theorem Writes.bind {v w : Writing} {ps qs : List String} (hv : Writes v ps) (hw : Writes w qs) :
    Writes (do v; w) (ps ++ qs) := by
  intro buffer
  rw [ExceptT.run_bind, StateT.run_bind, hv buffer, Buffer.writeAll_append]
  rcases buffer.writeAll ps with ⟨_ | _, written⟩
  · rfl
  · exact hw written

/-- A loop writes the pieces of each round, in order. -/
theorem Writes.forM {α : Type} {f : α → Writing} {g : α → List String} (h : ∀ a, Writes (f a) (g a))
    (as : List α) : Writes (as.forM f) (as.flatMap g) := by
  induction as with
  | nil => exact writes_pure
  | cons a as ih => exact (h a).bind ih

theorem Writes.cons {w : Writing} {pieces : List String} (piece : String) (hw : Writes w pieces) :
    Writes (do write piece; w) (piece :: pieces) := (writes_write piece).bind hw

theorem writes_writeSet (keyword : Keyword) (names : List String) :
    Writes (writeSet keyword names) (savedSet keyword names) := by
  cases names with
  | nil => exact writes_pure
  | cons first rest =>
    have hrest : Writes (rest.forM fun name => do write ","; write name)
        (rest.flatMap fun name => [",", name]) :=
      Writes.forM (fun name => (writes_write name).cons ",") rest
    rw [writeSet, savedSet, List.cons_append, List.cons_append, List.cons_append]
    exact (((hrest.bind (writes_write "\n")).cons first).cons ":").cons keyword.name

theorem writes_writePush (push : List Symbol) : Writes (writePush push)
    (if push.isEmpty then [] else " " :: push.map Symbol.text) := by
  rw [writePush]
  split
  · exact writes_pure
  · have hsymbols : Writes (push.forM fun symbol => write symbol.text)
        (push.flatMap fun symbol => [symbol.text]) :=
      Writes.forM (fun symbol : Symbol => writes_write symbol.text) push
    rw [← List.map_eq_flatMap] at hsymbols
    exact hsymbols.cons " "

theorem writes_writeRule (epsilon : String) (r : Rule) :
    Writes (writeRule epsilon r) (savedRule epsilon r) := by
  have htarget := (((writes_writePush r.push).bind (writes_write "\n")).cons r.target.name).cons " -> "
  have hread := ((htarget.cons (savedSlot epsilon r.pop)).cons " ").cons (savedSlot epsilon r.read)
  rw [writeRule, savedRule]
  simp only [List.cons_append, List.nil_append]
  exact (hread.cons " ").cons r.source.name

/-- The writer that leaves when the room ends tries the same pieces, in the same order, as the one that saves
the whole text. -/
theorem writes_writeAutomaton (epsilon : String) (A : Automaton) :
    Writes (writeAutomaton epsilon A) (savedPieces epsilon A) := by
  have hrules : Writes (A.rules.forM (writeRule epsilon)) (A.rules.flatMap (savedRule epsilon)) :=
    Writes.forM (writes_writeRule epsilon) A.rules
  have haccept := (writes_writeSet .acceptStates (A.accept.toList.map State.name)).bind
    (((hrules.cons "\n").cons ":").cons Keyword.transitions.name)
  rw [writeAutomaton, savedPieces]
  simp only [List.append_assoc, List.cons_append, List.nil_append]
  exact (writes_writeSet _ _).bind ((writes_writeSet _ _).bind ((writes_writeSet _ _).bind
    ((((haccept.cons "\n").cons A.start.name).cons ":").cons Keyword.startState.name)))

end Writing

/-! ## The text that is left -/

theorem toList_toUTF8 (text : String) : text.toUTF8.data.toList = utf8 text.toList := by
  have hencode : text.toList.utf8Encode = text.toUTF8 := String.utf8Encode_toList
  rw [← hencode]
  simp [List.utf8Encode, utf8]

theorem length_utf8_toList (text : String) : (utf8 text.toList).length = text.utf8ByteSize := by
  rw [← toList_toUTF8]
  rfl

/-- **A full buffer holds the beginning of the text.** An automaton is written completely exactly if its
text has room, and in any case the buffer holds as many of the first bytes of the text as there is room
for. A program that gives up at the first write that fails leaves the same. -/
theorem saveInto_exact (limit : Nat) (epsilon : String) (A : Automaton) :
    ((saveInto limit epsilon A).1 = true ↔ (save epsilon A).utf8ByteSize ≤ limit) ∧
    (saveInto limit epsilon A).2 =
      (save epsilon A).toUTF8.data.toList.take (min limit (save epsilon A).utf8ByteSize) ∧
    ∃ room, (writeAutomaton epsilon A).run.run ⟨[], limit⟩ =
      ending ((saveInto limit epsilon A).1, ⟨(saveInto limit epsilon A).2, room⟩) := by
  have hwrite : Buffer.writeAll ⟨[], limit⟩ (savedPieces epsilon A) =
      Buffer.append ⟨[], limit⟩ (utf8 (save epsilon A).toList) := Buffer.writeAll_eq_append _ _
  have hsave : saveInto limit epsilon A = (decide ((save epsilon A).utf8ByteSize ≤ limit),
      (utf8 (save epsilon A).toList).take limit) := by
    rw [saveInto, hwrite, Buffer.append, length_utf8_toList]
    rfl
  refine ⟨by rw [hsave, decide_eq_true_iff], ?_, ?_⟩
  · rw [hsave, toList_toUTF8, ← length_utf8_toList, ← List.take_take, List.take_length]
  · exact ⟨_, writes_writeAutomaton epsilon A ⟨[], limit⟩⟩

end PDA.Format
