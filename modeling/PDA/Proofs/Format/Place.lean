import PDA.Proofs.Format.Notices

/-!
# Where faults and notices are

The span of a fault or of a notice lies within the line whose number goes with it, and in bytes of the
text it covers just what is to be shown (`load_spans_exact`): the whole trimmed line for a notice, an
arrow or the beginning of the line for a malformed rule.
-/

namespace PDA.Format

open Text

/-- What is shown of a line for a defect; `pre` is what stands before it in the line. -/
def Defect.Marks (line pre shown : List Char) : Defect → Prop
  | .noTarget | .tooFewWords 0 => shown = arrow ∧ ¬ HasArrow pre
  | .tooFewWords (count + 1) => count + 1 < 3 ∧ pre = line.takeWhile isSpace ∧
    shown <+: Text.trim line ∧ ∃ left, shown = left ++ arrow ∧ ¬ HasArrow left
  | .extraArrow => shown = arrow ∧
    ∃ left mid, pre = left ++ arrow ++ mid ∧ ¬ HasArrow left ∧ ¬ HasArrow mid

/-- The span of a malformed rule covers what is shown of its line. -/
def Fault.InPlace (cs : List Char) : Fault → Prop
  | .malformedRule n text defect span => span.start < span.stop ∧ ∃ line pre shown,
    span.PointsAt cs n line pre shown ∧ text.toList = Text.trim line ∧
      defect.Marks line pre shown
  | .missingStart => True

/-- The span of a notice covers its line without the margins. -/
def Notice.InPlace (cs : List Char) (notice : Notice) : Prop :=
  notice.span.start < notice.span.stop ∧
    ∃ line, notice.span.PointsAt cs notice.line line (line.takeWhile isSpace) (Text.trim line)

/-! ## Malformed rules -/

/-- What a fault shows of its line is not empty. -/
theorem Defect.Marks.ne_nil {defect : Defect} {line pre shown : List Char}
    (h : defect.Marks line pre shown) : shown ≠ [] := by
  unfold Defect.Marks at h
  split at h
  · simp [h.1, arrow]
  · simp [h.1, arrow]
  · obtain ⟨-, -, -, left, rfl, -⟩ := h
    simp [arrow]
  · simp [h.1, arrow]

/-- What is shown for a defect is found in the line as it stands in the text. -/
theorem pointsAt_of_malformed {cs before raw after : List Char} {n : Nat} {defect : Defect}
    {span : Span} (hline : IsLine cs n before raw after)
    (h : Entry.ofText (Text.trim raw) = .malformed defect span) :
    ∃ pre shown, (span.shift (byteLength before + byteLength (raw.takeWhile isSpace))).PointsAt
      cs n raw pre shown ∧ defect.Marks raw pre shown := by
  have hmargin : ∀ {left : List Char}, ¬ HasArrow left →
      ¬ HasArrow (raw.takeWhile isSpace ++ left) := fun hleft =>
    not_hasArrow_margin_append (fun c hc => List.mem_takeWhile_imp hc) hleft
  obtain ⟨-, left, right, htrim, hleft, hcases⟩ := Entry.malformed_cases h
  rcases hcases with ⟨mid, post, rfl, hmid, rfl, rfl⟩ | ⟨-, -, rfl, rfl⟩ |
    ⟨-, hne, hfew, rfl, rfl⟩ | ⟨-, -, -, rfl, rfl⟩
  · have hsecond : Text.trim raw = (left ++ arrow ++ mid) ++ arrow ++ post := by
      rw [htrim]
      simp
    have hpoints := pointsAt_shift hline hsecond
    rw [byteLength_append, byteLength_append] at hpoints
    refine ⟨_, _, hpoints, rfl, raw.takeWhile isSpace ++ left, mid, ?_, hmargin hleft, hmid⟩
    simp
  · exact ⟨_, _, pointsAt_shift hline htrim, rfl, hmargin hleft⟩
  · have hbegin : Text.trim raw = [] ++ (left ++ arrow) ++ right := htrim
    have hpoints := pointsAt_shift hline hbegin
    rw [byteLength_nil, Nat.zero_add, byteLength_append, List.append_nil] at hpoints
    have hpos : 0 < (words left).length := List.length_pos_iff.2 hne
    obtain ⟨count, hcount⟩ := Nat.exists_eq_add_one_of_ne_zero hpos.ne'
    rw [hcount] at hfew ⊢
    exact ⟨_, _, hpoints, hfew, rfl, htrim ▸ List.prefix_append _ _, left, rfl, hleft⟩
  · exact ⟨_, _, pointsAt_shift hline htrim, rfl, hmargin hleft⟩

/-- Each fault points at the part of its line that is wrong. -/
theorem Draft.inPlace_of_mem_faults {cs : List Char} {f : Fault}
    (h : f ∈ (Draft.ofText cs).faults.toList) : f.InPlace cs := by
  obtain ⟨line, hline, hfault⟩ := Draft.mem_faults_ofText.1 h
  obtain ⟨defect, span, hentry, rfl⟩ := Entry.fault?_eq_some_iff.1 hfault
  obtain ⟨before, raw, after, hraw, htext, -, hoffset⟩ := exists_isLine_of_mem_contentLines hline
  rw [htext] at hentry
  obtain ⟨pre, shown, hpoints, hmarks⟩ := pointsAt_of_malformed hraw hentry
  rw [← hoffset] at hpoints
  refine ⟨hpoints.start_lt_stop hmarks.ne_nil, raw, pre, shown, hpoints, ?_, hmarks⟩
  rw [String.toList_ofList, htext]

/-! ## Notices -/

/-- Each notice points at its line. -/
theorem Draft.inPlace_of_mem_notices {cs : List Char} {notice : Notice}
    (h : notice ∈ (Draft.ofText cs).notices.toList) : notice.InPlace cs := by
  obtain ⟨line, hline, hnumber, hspan⟩ := Draft.exists_line_of_mem_notices h
  obtain ⟨before, raw, after, hraw, htext, hne, hoffset⟩ := exists_isLine_of_mem_contentLines hline
  have hwhole : Text.trim raw = [] ++ line.text ++ [] := by
    rw [htext, List.nil_append, List.append_nil]
  have hpoints := pointsAt_shift hraw hwhole
  rw [← hoffset, byteLength_nil, Nat.zero_add, List.append_nil] at hpoints
  rw [Notice.InPlace, hnumber, hspan]
  refine ⟨hpoints.start_lt_stop hne, raw, ?_⟩
  rw [← htext]
  exact hpoints

/-! ## Loading -/

/-- **Places.** All that is reported about a text is reported in its place, whether the text is loaded
or not. -/
theorem load_spans_exact (epsilon text : String) :
    match load epsilon text with
    | .ok loaded => ∀ notice ∈ loaded.notices, notice.InPlace text.toList
    | .error faults => ∀ f ∈ faults, f.InPlace text.toList := by
  cases hload : load epsilon text with
  | ok loaded =>
    intro notice hnotice
    obtain ⟨start, -, -, rfl⟩ := load_eq_ok_iff.1 hload
    exact Draft.inPlace_of_mem_notices hnotice
  | error faults =>
    intro f hf
    obtain ⟨rfl, -⟩ := load_eq_error_iff.1 hload
    rcases Draft.mem_allFaults.1 hf with hmalformed | ⟨-, rfl⟩
    · exact Draft.inPlace_of_mem_faults hmalformed
    · exact trivial

/-- The word before the arrow is shown, from byte 7 on: four bytes are before the line and three before
the word. -/
example : load "λ" "é\r\n\u3000q -> r\r\n" = .error
    [.malformedRule 2 "q -> r" (.tooFewWords 1) ⟨7, 11⟩, .missingStart] := rfl

end PDA.Format
