import PDA.Format.File
import PDA.Format.Save
import PDA.Proofs.Guarded.Load
import PDA.Sampling.Input

/-!
# Nothing is ever trapped

Saving into a buffer that grows, and reading back what was written, never fails (`save_eq_ok`); letters
are drawn below their number and found in their list (`randomInput_eq_ok`). With the loader
(`load_eq_ok`) that is all in which a program could be trapped (`never_trapped`).
-/

namespace PDA.Guarded

open Text Format Sampling

/-! ## Saving -/

/-- Write pieces of text one after the other. The buffer grows by what it needs before each write. -/
def writeGrowing (buffer : Buffer) : List String → Except Trap Buffer
  | [] => .ok buffer
  | piece :: pieces =>
    let grown : Buffer := { buffer with room := (utf8 piece.toList).length }
    match grown.append (utf8 piece.toList) with
    | (true, written) => writeGrowing written pieces
    | (false, _) => .error .writeFailed

/-- The text that bytes are taken to encode. -/
def textOf (bytes : List UInt8) : Except Trap String :=
  match decodeText bytes.toByteArray with
  | .ok text => .ok text
  | .error _ => .error .invalidText

/-- Write an automaton into a buffer, and make a text of what is there then. -/
def save (epsilon : String) (A : Automaton) : Except Trap String := do
  let buffer ← writeGrowing ⟨[], 0⟩ (savedPieces epsilon A)
  textOf buffer.bytes

/-- A write fits into a buffer that has just grown. -/
theorem append_grown (bytes more : List UInt8) :
    Buffer.append ⟨bytes, more.length⟩ more = (true, ⟨bytes ++ more, 0⟩) := by
  rw [Buffer.append, List.take_length, Nat.sub_self, decide_eq_true le_rfl]

/-- A buffer that grows always has room. -/
theorem exists_writeGrowing_eq (buffer : Buffer) (pieces : List String) : ∃ room,
    writeGrowing buffer pieces =
      .ok ⟨buffer.bytes ++ utf8 (String.join pieces).toList, room⟩ := by
  induction pieces generalizing buffer with
  | nil => exact ⟨buffer.room, by simp [writeGrowing, utf8]⟩
  | cons piece pieces ih =>
    obtain ⟨room, hrest⟩ := ih ⟨buffer.bytes ++ utf8 piece.toList, 0⟩
    refine ⟨room, ?_⟩
    rw [String.join_cons, String.toList_append, utf8_append, ← List.append_assoc]
    simp only [writeGrowing, append_grown, hrest]

/-- A text comes back from its own bytes. -/
theorem textOf_utf8 (text : String) : textOf (utf8 text.toList) = .ok text := by
  have hbytes : (utf8 text.toList).toByteArray = text.toByteArray := String.utf8Encode_toList
  have hdecode : String.fromUTF8? text.toByteArray = some text := dif_pos text.isValidUTF8
  simp only [textOf, decodeText, hbytes, hdecode]

theorem save_eq_ok (epsilon : String) (A : Automaton) :
    save epsilon A = .ok (Format.save epsilon A) := by
  obtain ⟨room, hwrite⟩ := exists_writeGrowing_eq ⟨[], 0⟩ (savedPieces epsilon A)
  rw [save, hwrite, ok_bind, List.nil_append]
  exact textOf_utf8 (Format.save epsilon A)

/-! ## Random inputs -/

section Sampling

variable {γ : Type} [Source γ]

/-- Draw a number below `n`, if there is one. -/
def drawBelow (n : Nat) (g : γ) : Except Trap (Nat × γ) :=
  if h : 0 < n then .ok ((Source.draw n h g).1, (Source.draw n h g).2) else .error .emptyRange

/-- Draw letters from a list. -/
def drawLetters (letters : List Char) : (count : Nat) → γ → Except Trap (List Char × γ)
  | 0, g => .ok ([], g)
  | count + 1, g => do
    let (i, g) ← drawBelow letters.length g
    let c ← getAt letters i
    let (cs, g) ← drawLetters letters count g
    return (c :: cs, g)

/-- A random string of `count` letters, followed by `extra`. -/
def randomInput (A : Automaton) (count : Nat) (extra : String) (g : γ) :
    Except Trap (Option String × γ) :=
  if A.letters.isEmpty then .ok (none, g)
  else do
    let (cs, g) ← drawLetters A.letters count g
    return (some (String.ofList cs ++ extra), g)

/-- Drawing a letter never indexes past the alphabet. -/
theorem drawLetters_eq_ok (letters : List Char) (h : 0 < letters.length) (count : Nat) (g : γ) :
    drawLetters letters count g = .ok (PDA.drawLetters letters h count g) := by
  induction count generalizing g with
  | zero => rfl
  | succ count ih =>
    have hdraw : drawBelow letters.length g =
        .ok ((Source.draw letters.length h g).1.val, (Source.draw letters.length h g).2) := dif_pos h
    have hletter := getAt_of_lt (Source.draw letters.length h g).1.isLt
    simp only [drawLetters, hdraw, ok_bind, hletter, ih]
    rfl

theorem randomInput_eq_ok (A : Automaton) (count : Nat) (extra : String) (g : γ) :
    randomInput A count extra g = .ok (A.randomInput count extra g) := by
  rw [randomInput, Automaton.randomInput]
  by_cases h : 0 < A.letters.length
  · have hne : A.letters.isEmpty = false := by
      rwa [List.isEmpty_eq_false_iff, ← List.length_pos_iff]
    rw [hne, dif_pos h, drawLetters_eq_ok A.letters h, ok_bind]
    rfl
  · have hnil : A.letters.isEmpty = true := by
      rw [List.isEmpty_iff, ← List.length_eq_zero_iff]
      exact Nat.eq_zero_of_not_pos h
    rw [hnil, dif_neg h]
    rfl

end Sampling

/-- **Nothing is ever trapped.** Whatever the text and the token for epsilon, and wherever the text stands,
the loader cuts texts between characters only, finds the arrow that it looks for, finds lines and words
within the lines that they come from, and never comes to the impossible case of a declaration; whatever
the automaton, it can be written, and what was written is a text; and random letters are drawn from a range
that is not empty and found in their list. In all of this the results are those of the unguarded
functions. -/
theorem never_trapped :
    (∀ (address : Nat) (epsilon text : String),
      load address epsilon text = .ok (Format.load epsilon text)) ∧
    (∀ (epsilon : String) (A : Automaton), save epsilon A = .ok (Format.save epsilon A)) ∧
    ∀ (γ : Type) [Source γ] (A : Automaton) (count : Nat) (extra : String) (g : γ),
      randomInput A count extra g = .ok (A.randomInput count extra g) :=
  ⟨load_eq_ok, save_eq_ok, fun _ _ => randomInput_eq_ok⟩

end PDA.Guarded
