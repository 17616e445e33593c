import PDA.CommandLine.Report

/-!
# What is reported about a file

Whether anything is printed depends on the file and on the token for epsilon alone: on whether the file holds
a definition (`Holds`).
-/

namespace PDA.CommandLine

open Format

/-- What the command line leaves behind, given the bytes of the file that its arguments name. -/
def answer (args : Arguments) (file : Except ReadError ByteArray) : Report :=
  report args (file.bind decodeText)

/-- The file could be read, its bytes encode a text, and the text is a definition. -/
def Holds (file : Except ReadError ByteArray) (epsilon : String) (loaded : Loaded) : Prop :=
  ∃ text : String, file = .ok text.toUTF8 ∧ load epsilon text = .ok loaded

variable {args : Arguments} {file : Except ReadError ByteArray} {epsilon : String} {loaded : Loaded}

/-- A file is text exactly if its bytes are those of one. -/
theorem decodeText_eq_ok_iff {bytes : ByteArray} {text : String} :
    decodeText bytes = .ok text ↔ bytes = text.toUTF8 := by
  unfold decodeText String.fromUTF8?
  constructor
  · intro h
    split at h
    · rename_i decoded hdecoded
      obtain rfl := Except.ok.inj h
      split at hdecoded
      · obtain rfl := Option.some.inj hdecoded
        rfl
      · contradiction
    · contradiction
  · rintro rfl
    rw [String.toUTF8_eq_toByteArray, dif_pos text.isValidUTF8]
    rfl

/-- A file holds an automaton exactly if the program loads it. -/
theorem holds_iff_loadFile : Holds file epsilon loaded ↔ loadFile epsilon file = .ok loaded := by
  constructor
  · rintro ⟨text, rfl, hload⟩
    have hdecode : decodeText text.toUTF8 = .ok text := decodeText_eq_ok_iff.2 rfl
    simp only [loadFile, Except.bind, hdecode, hload]
  · intro h
    unfold loadFile at h
    split at h
    · contradiction
    · rename_i text htext
      split at h
      · rename_i loaded' hload
        obtain rfl := Except.ok.inj h
        cases file with
        | error reason => contradiction
        | ok bytes => exact ⟨text, congrArg _ (decodeText_eq_ok_iff.1 htext), hload⟩
      · contradiction

theorem Holds.unique {loaded' : Loaded} (h : Holds file epsilon loaded)
    (h' : Holds file epsilon loaded') : loaded' = loaded :=
  Except.ok.inj ((holds_iff_loadFile.1 h').symm.trans (holds_iff_loadFile.1 h))

/-- With an automaton the program exits with 0, and prints the report. -/
theorem answer_of_holds (h : Holds file args.epsilon loaded) :
    (answer args file).exit = 0 ∧ (answer args file).stdout = body args loaded.automaton := by
  obtain ⟨text, rfl, hload⟩ := h
  have hdecode : decodeText text.toUTF8 = .ok text := decodeText_eq_ok_iff.2 rfl
  simp only [answer, report, Except.bind, hdecode, hload, and_self]

/-- Without an automaton the program exits with 1, and prints nothing. -/
theorem answer_of_not_holds (h : ∀ loaded, ¬ Holds file args.epsilon loaded) :
    (answer args file).exit = 1 ∧ (answer args file).stdout = "" := by
  have hload : ∀ loaded, loadFile args.epsilon file ≠ .ok loaded :=
    fun loaded heq => h loaded (holds_iff_loadFile.2 heq)
  unfold loadFile at hload
  split at hload
  · rename_i reason hreason
    simp only [answer, report, hreason, and_self]
  · rename_i text htext
    split at hload
    · rename_i loaded hloaded
      exact absurd rfl (hload loaded)
    · rename_i faults hfaults
      simp only [answer, report, htext, hfaults, and_self]

end PDA.CommandLine
