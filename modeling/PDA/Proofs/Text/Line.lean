import PDA.Proofs.Text.Split
import PDA.Text.Line

/-!
# Lines in their text

A line is found again in the text that it comes from: its number is one more than the number of line
feeds before it, and its offset is the number of bytes before it (`isLine_of_mem_ofText`,
`IsLine.mem_ofText`). A span within a line is told by what stands before it (`Span.PointsAt`).
-/

namespace PDA.Text

/-- Line number `n` of the text is `line`; `before` and `after` are the rest of the text. -/
structure IsLine (cs : List Char) (n : Nat) (before line after : List Char) : Prop where
  eq_append : cs = before ++ line ++ after
  newline_not_mem : '\n' ∉ line
  begins : before = [] ∨ before.getLast? = some '\n'
  ends : after = [] ∨ after.head? = some '\n'
  number : n = before.count '\n' + 1

/-- In line number `n` of the text, which is `line`, the span covers the bytes of `shown`; in the line
`pre` stands before them. -/
def Span.PointsAt (span : Span) (cs : List Char) (n : Nat) (line pre shown : List Char) : Prop :=
  ∃ before after post, IsLine cs n before line after ∧ line = pre ++ shown ++ post ∧
    span.start = (utf8 (before ++ pre)).length ∧
    span.stop = (utf8 (before ++ pre ++ shown)).length

/-- The line with so many lines and bytes before it. -/
def Line.shift (lines bytes : Nat) (line : Line) : Line where
  number := lines + line.number
  offset := bytes + line.offset
  text := line.text

/-! ## Lines and line feeds -/

section Lines

variable {cs line : List Char} {pre post : List (List Char)}

theorem intercalate_newline (pre : List (List Char)) (line : List Char) (post : List (List Char)) :
    ['\n'].intercalate (pre ++ line :: post) =
      pre.flatMap (· ++ ['\n']) ++ line ++ post.flatMap ('\n' :: ·) := by
  induction pre with
  | nil =>
    induction post generalizing line with
    | nil => simp
    | cons l post ih =>
      have h := ih l
      rw [List.nil_append] at h ⊢
      rw [List.intercalate_cons_cons, h]
      simp
  | cons l pre ih =>
    rw [List.cons_append, List.intercalate_cons_of_ne_nil (by simp), ih]
    simp

theorem count_newline_flatMap (h : ∀ l ∈ pre, '\n' ∉ l) :
    (pre.flatMap (· ++ ['\n'])).count '\n' = pre.length := by
  induction pre with
  | nil => rfl
  | cons l pre ih =>
    obtain ⟨hl, hpre⟩ := List.forall_mem_cons.1 h
    rw [List.flatMap_cons, List.count_append, List.count_append, List.count_eq_zero_of_not_mem hl,
      ih hpre, List.length_cons, List.count_singleton_self]
    omega

/-- There is one line more than there are line breaks. -/
theorem length_lines (cs : List Char) : (lines cs).length = cs.count '\n' + 1 := by
  induction cs with
  | nil => rfl
  | cons c cs ih =>
    rw [lines] at ih ⊢
    rw [List.splitOn_cons_eq_if_modifyHead]
    by_cases hc : c = '\n'
    · simp [hc, ih]
    · simp [hc, ih]

/-- A line stands after as many line breaks as there are lines before it. -/
theorem isLine_of_lines_eq (h : lines cs = pre ++ line :: post) :
    IsLine cs (pre.length + 1) (pre.flatMap (· ++ ['\n'])) line (post.flatMap ('\n' :: ·)) where
  eq_append := by
    rw [← intercalate_newline, ← h]
    exact (List.intercalate_splitOn '\n').symm
  newline_not_mem := by
    have hline : line ∈ lines cs := by simp [h]
    exact newline_not_mem_of_mem_lines hline
  begins := by
    rcases List.eq_nil_or_concat pre with rfl | ⟨init, l, rfl⟩
    · exact .inl rfl
    · right
      simp [List.concat_eq_append]
  ends := by
    cases post with
    | nil => exact .inl rfl
    | cons l post => exact .inr rfl
  number := by
    rw [count_newline_flatMap]
    intro l hl
    have hmem : l ∈ lines cs := by simp [h, hl]
    exact newline_not_mem_of_mem_lines hmem

/-- What stands at a place of its own between line breaks is a line. -/
theorem IsLine.exists_lines_eq {n : Nat} {before after : List Char}
    (h : IsLine cs n before line after) :
    ∃ pre post, lines cs = pre ++ line :: post ∧ n = pre.length + 1 := by
  -- the line itself is cut off at the next line feed
  have hline : ∃ post, lines (line ++ after) = line :: post := by
    rcases h.ends with rfl | hafter
    · exact ⟨[], by rw [List.append_nil, lines, List.splitOn_eq_singleton h.newline_not_mem]⟩
    · obtain ⟨after', rfl⟩ := List.head?_eq_some_iff.1 hafter
      exact ⟨_, List.splitOn_append_cons_self_of_not_mem h.newline_not_mem after'⟩
  obtain ⟨post, hpost⟩ := hline
  rcases h.begins with rfl | hbefore
  · refine ⟨[], post, ?_, h.number⟩
    rw [h.eq_append]
    exact hpost
  · obtain ⟨before', rfl⟩ := List.getLast?_eq_some_iff.1 hbefore
    refine ⟨lines before', post, ?_, ?_⟩
    · rw [h.eq_append, lines, List.append_assoc, List.append_assoc, List.singleton_append,
        List.splitOn_append_cons_self, ← hpost]
      rfl
    · rw [h.number, length_lines, List.count_append, List.count_singleton_self]

/-- A text has no more than one line of a number. -/
theorem IsLine.unique {n : Nat} {before after before' line' after' : List Char}
    (h : IsLine cs n before line after) (h' : IsLine cs n before' line' after') : line = line' := by
  obtain ⟨pre, post, hlines, hn⟩ := h.exists_lines_eq
  obtain ⟨pre', post', hlines', hn'⟩ := h'.exists_lines_eq
  have hlength : pre.length = pre'.length := by omega
  rw [hlines] at hlines'
  exact (List.cons.inj (List.append_inj_right hlines' hlength)).1

end Lines

/-! ## Numbers and offsets -/

section Locate

variable {cs text : List Char} {css : List (List Char)} {number offset : Nat} {line : Line}

theorem map_text_locate (css : List (List Char)) (number offset : Nat) :
    (Line.locate number offset css).map Line.text = css := by
  induction css generalizing number offset with
  | nil => rfl
  | cons cs css ih => rw [Line.locate, List.map_cons, ih]

/-- The lines of the second text are located past those of the first. -/
theorem locate_append (css css' : List (List Char)) (number offset : Nat) :
    Line.locate number offset (css ++ css') =
      Line.locate number offset css ++
        Line.locate (number + css.length) (offset + byteLength (css.flatMap (· ++ ['\n']))) css' := by
  have hnewline : '\n'.utf8Size = 1 := by decide
  induction css generalizing number offset with
  | nil => simp [Line.locate]
  | cons cs css ih =>
    have hnumber : number + 1 + css.length = number + (cs :: css).length := by
      rw [List.length_cons]
      omega
    have hoffset : offset + byteLength cs + 1 + byteLength (css.flatMap (· ++ ['\n'])) =
        offset + byteLength ((cs :: css).flatMap (· ++ ['\n'])) := by
      simp only [List.flatMap_cons, byteLength_append, byteLength_cons, byteLength_nil, hnewline]
      omega
    rw [List.cons_append, Line.locate, Line.locate, ih, List.cons_append, hnumber, hoffset]

/-- A located line tells how many lines and bytes stand before it. -/
theorem exists_append_of_mem_locate (h : line ∈ Line.locate number offset css) :
    ∃ pre post, css = pre ++ line.text :: post ∧ line.number = number + pre.length ∧
      line.offset = offset + byteLength (pre.flatMap (· ++ ['\n'])) := by
  induction css generalizing number offset with
  | nil => simp [Line.locate] at h
  | cons cs css ih =>
    rcases List.mem_cons.1 h with rfl | h
    · exact ⟨[], css, rfl, rfl, rfl⟩
    · obtain ⟨pre, post, hcss, hnumber, hoffset⟩ := ih h
      refine ⟨cs :: pre, post, by rw [hcss, List.cons_append], ?_, ?_⟩
      · rw [hnumber, List.length_cons]
        omega
      · have hnewline : '\n'.utf8Size = 1 := by decide
        rw [hoffset]
        simp only [List.flatMap_cons, byteLength_append, byteLength_cons, byteLength_nil, hnewline]
        omega

theorem pairwise_number_locate (css : List (List Char)) (number offset : Nat) :
    (Line.locate number offset css).Pairwise fun a b => a.number < b.number := by
  induction css generalizing number offset with
  | nil => exact List.Pairwise.nil
  | cons cs css ih =>
    rw [Line.locate]
    refine List.pairwise_cons.2 ⟨?_, ih _ _⟩
    intro line hline
    obtain ⟨pre, -, -, hnumber, -⟩ := exists_append_of_mem_locate hline
    show number < line.number
    omega

/-- The number of a line counts the line feeds before it, and its offset the bytes. -/
theorem isLine_of_mem_ofText (h : line ∈ Line.ofText cs) :
    ∃ before after, IsLine cs line.number before line.text after ∧
      line.offset = byteLength before := by
  obtain ⟨pre, post, hlines, hnumber, hoffset⟩ := exists_append_of_mem_locate h
  have hline := isLine_of_lines_eq hlines
  rw [Nat.add_comm, ← hnumber] at hline
  exact ⟨_, _, hline, by rw [hoffset, Nat.zero_add]⟩

theorem IsLine.mem_ofText {n : Nat} {before after : List Char} (h : IsLine cs n before text after) :
    ∃ line ∈ Line.ofText cs, line.number = n ∧ line.text = text := by
  obtain ⟨pre, post, hlines, hn⟩ := h.exists_lines_eq
  refine ⟨⟨n, byteLength (pre.flatMap (· ++ ['\n'])), text⟩, ?_, rfl, rfl⟩
  rw [Line.ofText, hlines, locate_append, List.mem_append, Line.locate, hn, Nat.zero_add,
    Nat.add_comm 1]
  exact .inr List.mem_cons_self

@[simp] theorem Line.shift_zero (line : Line) : line.shift 0 0 = line := by
  simp [Line.shift]

theorem Line.trim_shift (lines bytes : Nat) (line : Line) :
    (line.shift lines bytes).trim = line.trim.shift lines bytes := by
  simp [Line.shift, Line.trim, Nat.add_assoc]

theorem Line.span_shift (lines bytes : Nat) (line : Line) :
    (line.shift lines bytes).span = line.span.shift bytes := by
  simp [Line.shift, Line.span, Span.shift, Nat.add_assoc]

/-- Where the count begins only moves the lines. -/
theorem locate_shift (css : List (List Char)) (number offset lines bytes : Nat) :
    Line.locate (lines + number) (bytes + offset) css =
      (Line.locate number offset css).map (Line.shift lines bytes) := by
  induction css generalizing number offset with
  | nil => rfl
  | cons cs css ih =>
    have hnext := ih (number + 1) (offset + byteLength cs + 1)
    rw [← Nat.add_assoc, ← Nat.add_assoc, ← Nat.add_assoc] at hnext
    rw [Line.locate, hnext]
    rfl

theorem flatMap_lines (cs : List Char) : (lines cs).flatMap (· ++ ['\n']) = cs ++ ['\n'] := by
  obtain ⟨pre, line, hlines⟩ := List.eq_nil_or_concat (lines cs) |>.resolve_left
    (List.splitOn_ne_nil '\n' cs)
  have hcs : ['\n'].intercalate (lines cs) = cs := List.intercalate_splitOn '\n'
  rw [hlines, List.concat_eq_append, intercalate_newline, List.flatMap_nil, List.append_nil] at hcs
  rw [hlines, List.concat_eq_append, List.flatMap_append, ← hcs]
  simp

/-- The lines behind a line feed are those of the rest of the text, further on. -/
theorem ofText_append_newline (cs ds : List Char) :
    Line.ofText (cs ++ '\n' :: ds) = Line.ofText cs ++
      (Line.ofText ds).map (Line.shift ((cs ++ ['\n']).count '\n') (byteLength (cs ++ ['\n']))) := by
  have hlines : lines (cs ++ '\n' :: ds) = lines cs ++ lines ds :=
    List.splitOn_append_cons_self cs ds
  have hcount : (lines cs).length = (cs ++ ['\n']).count '\n' := by
    rw [length_lines, List.count_append, List.count_singleton_self]
  rw [Line.ofText, hlines, locate_append, flatMap_lines, hcount, Nat.add_comm 1, Nat.add_comm 0,
    locate_shift]
  rfl

end Locate

/-! ## Margins of a line -/

/-- Nothing but white space is trimmed. -/
theorem exists_eq_append_trim (cs : List Char) :
    ∃ trail, (∀ c ∈ trail, isSpace c = true) ∧ cs = cs.takeWhile isSpace ++ trim cs ++ trail := by
  refine ⟨(trimStart cs).rtakeWhile isSpace, fun c hc => List.mem_rtakeWhile_imp hc, ?_⟩
  rw [List.append_assoc, trim, trimEnd_eq_rdropWhile, List.rdropWhile_append_rtakeWhile, trimStart,
    List.takeWhile_append_dropWhile]

/-- A span in a trimmed line covers the same text in the line as it stands. -/
theorem pointsAt_shift {cs before line after x shown y : List Char} {n : Nat}
    (hline : IsLine cs n before line after) (htrim : trim line = x ++ shown ++ y) :
    (Span.shift ⟨byteLength x, byteLength x + byteLength shown⟩
      (byteLength before + byteLength (line.takeWhile isSpace))).PointsAt cs n line
        (line.takeWhile isSpace ++ x) shown := by
  obtain ⟨trail, -, htrail⟩ := exists_eq_append_trim line
  refine ⟨before, after, y ++ trail, hline, ?_, ?_, ?_⟩
  · rw [htrim] at htrail
    simpa using htrail
  · simp [Span.shift, length_utf8, Nat.add_assoc]
  · simp [Span.shift, length_utf8, Nat.add_assoc]

/-- What is shown has bytes, so the span has. -/
theorem Span.PointsAt.start_lt_stop {span : Span} {cs line pre shown : List Char} {n : Nat}
    (h : span.PointsAt cs n line pre shown) (hne : shown ≠ []) : span.start < span.stop := by
  obtain ⟨before, after, post, -, -, hstart, hstop⟩ := h
  obtain ⟨c, shown, rfl⟩ := List.exists_cons_of_ne_nil hne
  have hsize : 0 < c.utf8Size := c.utf8Size_pos
  simp only [hstart, hstop, length_utf8, byteLength_append, byteLength_cons]
  omega

end PDA.Text
