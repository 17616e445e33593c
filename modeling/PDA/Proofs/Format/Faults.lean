import PDA.Proofs.Format.Meaning

/-!
# All faults of a text

A text that is not loaded is reported with all that is wrong with it: every line that is meant as a
rule and holds none, in order, and at the end a start state that is missing. No bad line hides another
one, so without the lines that are reported no such line is left (`load_faults_exact`).
-/

namespace PDA.Format

open Text

/-- The number of the line of a fault; a missing start state has none. -/
def Fault.line? : Fault → Option Nat
  | malformedRule line _ _ _ => some line
  | missingStart => none

/-- No start state is declared, or the last one is blank. -/
def StartMissing (rs : List (List Char)) : Prop :=
  ∀ value ∈ lastValue? .startState rs, Text.trim value = []

instance (rs : List (List Char)) : Decidable (StartMissing rs) :=
  inferInstanceAs (Decidable (∀ value ∈ lastValue? .startState rs, Text.trim value = []))

/-- The lines of a text but for those of these numbers. -/
def keptLines (numbers : List Nat) (cs : List Char) : List (List Char) :=
  (((lines cs).zipIdx 1).filter (·.2 ∉ numbers)).map Prod.fst

/-- The text without the lines of these numbers. -/
def deleteLines (numbers : List Nat) (cs : List Char) : List Char :=
  ['\n'].intercalate (keptLines numbers cs)

/-- The faults are all that is wrong with the text. -/
structure AreFaultsOf (epsilon text : String) (faults : List Fault) : Prop where
  ne_nil : faults ≠ []
  missingStart_last : ∃ malformed, .missingStart ∉ malformed ∧
    faults = malformed ++ if StartMissing (rows text.toList) then [.missingStart] else []
  increasing : (faults.filterMap Fault.line?).Pairwise (· < ·)
  mem_line : ∀ n, n ∈ faults.filterMap Fault.line? ↔ ∃ before line after,
    IsLine text.toList n before line after ∧
      IsRuleText (Text.trim line) ∧ ¬ HoldsRule (Text.trim line)
  deleted : ∀ again,
    load epsilon (String.ofList (deleteLines (faults.filterMap Fault.line?) text.toList)) =
      .error again → again = [.missingStart]
  lines_messages : lines (Fault.messages faults).toList = faults.map fun f => f.message.toList

/-! ## Malformed rules -/

section Malformed

variable {cs : List Char}

/-- The faults stand in the order of their lines, and no line has two. -/
theorem Draft.pairwise_line_faults (cs : List Char) :
    ((Draft.ofText cs).faults.toList.filterMap Fault.line?).Pairwise (· < ·) := by
  have hnumber : ∀ {line : Line} {f : Fault} {n : Nat},
      (Entry.ofText line.text).fault? line = some f → f.line? = some n → n = line.number := by
    intro line f n hf hn
    obtain ⟨defect, span, -, rfl⟩ := Entry.fault?_eq_some_iff.1 hf
    exact (Option.some.inj hn).symm
  rw [Draft.faults_ofText, List.pairwise_filterMap, List.pairwise_filterMap]
  refine (pairwise_number_contentLines cs).imp ?_
  intro a b hab f hf g hg m hm n hn
  rw [hnumber hf hm, hnumber hg hn]
  exact hab

/-- The lines with faults are those that are meant as rules and hold none. -/
theorem Draft.mem_line_faults {n : Nat} :
    n ∈ (Draft.ofText cs).faults.toList.filterMap Fault.line? ↔
      ∃ before line after, IsLine cs n before line after ∧
        IsRuleText (Text.trim line) ∧ ¬ HoldsRule (Text.trim line) := by
  rw [List.mem_filterMap]
  constructor
  · rintro ⟨f, hf, hn⟩
    obtain ⟨line, hline, hfault⟩ := Draft.mem_faults_ofText.1 hf
    obtain ⟨defect, span, hentry, rfl⟩ := Entry.fault?_eq_some_iff.1 hfault
    obtain rfl : line.number = n := Option.some.inj hn
    obtain ⟨before, raw, after, hraw, htext, -⟩ := exists_isLine_of_mem_contentLines hline
    refine ⟨before, raw, after, hraw, ?_⟩
    rw [← htext]
    exact Entry.exists_malformed_iff.1 ⟨defect, span, hentry⟩
  · rintro ⟨before, raw, after, hraw, hbad⟩
    have hne : Text.trim raw ≠ [] := by
      intro hnil
      rw [hnil] at hbad
      exact not_hasArrow_nil hbad.1.2
    obtain ⟨line, hline, rfl, htext⟩ := exists_mem_contentLines hraw hne
    rw [← htext] at hbad
    obtain ⟨defect, span, hentry⟩ := Entry.exists_malformed_iff.2 hbad
    exact ⟨_, Draft.mem_faults_ofText.2 ⟨line, hline, Entry.fault?_eq_some_iff.2
      ⟨defect, span, hentry, rfl⟩⟩, rfl⟩

/-- A missing start state is only found at the end of the text. -/
theorem Draft.missingStart_not_mem_faults (cs : List Char) :
    .missingStart ∉ (Draft.ofText cs).faults.toList := by
  intro h
  obtain ⟨line, -, hfault⟩ := Draft.mem_faults_ofText.1 h
  obtain ⟨defect, span, -, hf⟩ := Entry.fault?_eq_some_iff.1 hfault
  contradiction

end Malformed

/-! ## The start state -/

/-- All faults are those of the lines, and a missing start state last. -/
theorem Draft.allFaults_ofText (cs : List Char) : (Draft.ofText cs).allFaults =
    (Draft.ofText cs).faults.toList ++
      if StartMissing (rows cs) then [.missingStart] else [] := by
  have hstart : (Draft.ofText cs).start?.isSome ↔ ¬ StartMissing (rows cs) := by
    rw [Option.isSome_iff_exists, StartMissing]
    push Not
    constructor
    · rintro ⟨q, hq⟩
      obtain ⟨value, hvalue, hne, -⟩ := Draft.start?_ofText_eq_some_iff.1 hq
      exact ⟨value, hvalue, hne⟩
    · rintro ⟨value, hvalue, hne⟩
      exact ⟨⟨String.ofList (Text.trim value)⟩,
        Draft.start?_ofText_eq_some_iff.2 ⟨value, hvalue, hne, String.toList_ofList⟩⟩
  rw [Draft.allFaults]
  by_cases hmissing : StartMissing (rows cs)
  · simp [hmissing, Option.not_isSome_iff_eq_none.1 (mt hstart.1 (not_not.2 hmissing))]
  · simp [hmissing, hstart.2 hmissing]

/-! ## Texts with lines left out -/

section Deleted

variable {numbers : List Nat} {cs line row : List Char}

/-- A line is kept under the number it had. -/
theorem exists_isLine_of_mem_keptLines (h : line ∈ keptLines numbers cs) :
    ∃ n before after, IsLine cs n before line after ∧ n ∉ numbers := by
  obtain ⟨⟨line, n⟩, hkept, rfl⟩ := List.mem_map.1 h
  obtain ⟨hmem, hn⟩ := List.mem_filter.1 hkept
  obtain ⟨pre, post, happend⟩ := List.append_of_mem hmem
  obtain ⟨pre, post, hlines, -, hpost⟩ := List.zipIdx_eq_append_iff.1 happend
  cases post with
  | nil => simp at hpost
  | cons l post =>
    rw [List.zipIdx_cons, List.cons.injEq, Prod.mk.injEq, Nat.add_comm] at hpost
    obtain ⟨⟨rfl, rfl⟩, -⟩ := hpost
    exact ⟨_, _, _, isLine_of_lines_eq hlines, by simpa using hn⟩

/-- Each line that says something is one that was kept. -/
theorem exists_isLine_of_mem_rows_deleteLines (h : row ∈ rows (deleteLines numbers cs)) :
    ∃ n before line after, IsLine cs n before line after ∧ n ∉ numbers ∧ row = Text.trim line := by
  obtain ⟨hrow, hne⟩ := List.mem_filter.1 h
  obtain ⟨line, hline, rfl⟩ := List.mem_map.1 hrow
  rw [deleteLines, lines] at hline
  by_cases hkept : keptLines numbers cs = []
  · -- if no line is kept the text is one blank line
    obtain rfl : line = [] := by simpa [hkept] using hline
    exact absurd hne (by decide)
  · rw [List.splitOn_intercalate '\n' ?_ hkept] at hline
    · obtain ⟨n, before, after, hisLine, hn⟩ := exists_isLine_of_mem_keptLines hline
      exact ⟨n, before, line, after, hisLine, hn, rfl⟩
    · intro l hl
      obtain ⟨n, before, after, hisLine, -⟩ := exists_isLine_of_mem_keptLines hl
      exact hisLine.newline_not_mem

/-- Without the lines that have faults there is no malformed rule. -/
theorem Draft.faults_deleteLines (cs : List Char) :
    (Draft.ofText (deleteLines ((Draft.ofText cs).faults.toList.filterMap Fault.line?)
      cs)).faults.toList = [] := by
  rw [faults_ofText_eq_nil_iff_rows]
  intro row hrow hrule
  obtain ⟨n, before, line, after, hline, hn, rfl⟩ := exists_isLine_of_mem_rows_deleteLines hrow
  by_contra hholds
  exact hn (Draft.mem_line_faults.2 ⟨before, line, after, hline, hrule, hholds⟩)

end Deleted

/-! ## Messages -/

theorem newline_not_mem_toDigits (n : Nat) : '\n' ∉ Nat.toDigits 10 n := by
  intro h
  exact absurd (Nat.isDigit_of_mem_toDigits (by decide) (by decide) h) (by decide)

theorem Defect.newline_not_mem_message (defect : Defect) : '\n' ∉ defect.message.toList := by
  cases defect with
  | tooFewWords n =>
    show '\n' ∉ ("expected `FROM READ POP` before `->`, only " ++ toString n ++
      " token(s) provided").toList
    simp [newline_not_mem_toDigits]
  | noTarget => decide +kernel
  | extraArrow => decide +kernel

/-- A message is one line, since what it quotes is part of one. -/
theorem Draft.newline_not_mem_message {cs : List Char} {f : Fault}
    (h : f ∈ (Draft.ofText cs).allFaults) : '\n' ∉ f.message.toList := by
  rcases Draft.mem_allFaults.1 h with hmalformed | ⟨-, rfl⟩
  · obtain ⟨line, hline, hfault⟩ := Draft.mem_faults_ofText.1 hmalformed
    obtain ⟨defect, span, -, rfl⟩ := Entry.fault?_eq_some_iff.1 hfault
    simp [Fault.message, newline_not_mem_toDigits, Defect.newline_not_mem_message,
      (mem_contentLines hline).1]
  · simp [Fault.message]

/-- Messages without line feeds are shown on a line each. -/
theorem Fault.lines_messages {faults : List Fault} (hne : faults ≠ [])
    (h : ∀ f ∈ faults, '\n' ∉ f.message.toList) :
    lines (Fault.messages faults).toList = faults.map fun f => f.message.toList := by
  have hjoin : (Fault.messages faults).toList =
      ['\n'].intercalate (faults.map fun f => f.message.toList) := by
    rw [Fault.messages, String.toList_intercalate, List.map_map]
    rfl
  rw [hjoin, lines, List.splitOn_intercalate '\n' (by simpa using h) (by simpa using hne)]

/-! ## Loading -/

/-- **All faults.** What is reported for a text that is not loaded is one malformed rule for each line
that is meant as a rule and holds none, in order, and then a start state if it is missing. Without
these lines no malformed rule is reported. The report is shown with one line for each fault. -/
theorem load_faults_exact {epsilon text : String} {faults : List Fault}
    (h : load epsilon text = .error faults) : AreFaultsOf epsilon text faults := by
  obtain ⟨hfaults, hne⟩ := load_eq_error_iff.1 h
  have hlines : faults.filterMap Fault.line? =
      (Draft.ofText text.toList).faults.toList.filterMap Fault.line? := by
    rw [hfaults, Draft.allFaults_ofText, List.filterMap_append]
    split <;> simp [Fault.line?]
  refine ⟨hne, ?_, ?_, ?_, ?_, ?_⟩
  · rw [hfaults, Draft.allFaults_ofText]
    exact ⟨_, Draft.missingStart_not_mem_faults _, rfl⟩
  · rw [hlines]
    exact Draft.pairwise_line_faults text.toList
  · intro n
    rw [hlines, Draft.mem_line_faults]
  · intro again hagain
    obtain ⟨hagain, hne'⟩ := load_eq_error_iff.1 hagain
    rw [hlines, String.toList_ofList, Draft.allFaults_ofText, Draft.faults_deleteLines] at hagain
    split at hagain
    · exact hagain
    · exact absurd hagain hne'
  · refine Fault.lines_messages hne fun f hf => ?_
    rw [hfaults] at hf
    exact Draft.newline_not_mem_message hf

/-- A bad line before, between and after good ones is reported, and a blank start state at the end
makes the one before it void. -/
theorem load_faults_exact_blank_start :
    ∃ faults, load "λ" "q -> r\nstart_state:q\nq a -> b -> c\n\nq a b -> r\nstart_state:\nq a b ->"
        = .error faults ∧
      faults.filterMap Fault.line? = [1, 3, 7] ∧ faults.getLast? = some .missingStart ∧
      AreFaultsOf "λ" "q -> r\nstart_state:q\nq a -> b -> c\n\nq a b -> r\nstart_state:\nq a b ->"
        faults :=
  ⟨_, rfl, rfl, rfl, load_faults_exact rfl⟩

end PDA.Format
