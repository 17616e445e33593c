import PDA.Format.Load
import PDA.Proofs.Format.Entry
import PDA.Proofs.Guarded.Slice

/-!
# Loading with every check in place

The loader once more, on slices: lines are trimmed and cut at the byte at which their arrow begins, and
the place of a line in the text is found by comparing addresses. Every step that may fail is checked. No
check ever fails, and what is loaded is the same (`load_eq_ok`), wherever in memory the text stands.
-/

namespace PDA.Guarded

open Text Format

/-! ## The loader -/

/-- What is shown of a line that has too few words before its arrow, which is at `first`. -/
def fewWordsSpan (line left : Slice) (offset : Nat) (first : Span) : Except Trap Span :=
  match left.words with
  | [] => .ok first
  | word :: _ => (word.offsetIn line).map fun before => ⟨offset + before, first.stop⟩

/-- The rule that words hold. -/
def readWords (left right : List Slice) : Except Trap RuleLine := do
  let source ← getAt left 0
  let read ← getAt left 1
  let pop ← getAt left 2
  let target ← getAt right 0
  return {
    source := String.ofList source.text
    read := String.ofList read.text
    pop := String.ofList pop.text
    target := String.ofList target.text
    push := right[1]?.map fun word => String.ofList word.text }

/-- Read a rule from what stands before and after the first arrow of a line. The line is at byte `offset`
of the text, and `first` is the place of the arrow. -/
def readSides (line left right : Slice) (offset : Nat) (first : Span) :
    Except Trap (Except (Defect × Span) RuleLine) :=
  match find? arrow right.text with
  | some second =>
    .ok (.error (.extraArrow, ⟨first.stop + second, first.stop + second + byteLength arrow⟩))
  | none =>
    if left.words.length < 3 then
      (fewWordsSpan line left offset first).map fun span =>
        .error (.tooFewWords left.words.length, span)
    else if right.words.isEmpty then .ok (.error (.noTarget, first))
    else (readWords left.words right.words).map .ok

/-- Read a rule from a line that is taken to have an arrow. -/
def readRule (line : Slice) (offset : Nat) : Except Trap (Except (Defect × Span) RuleLine) :=
  match find? arrow line.text with
  | none => .error .notFound
  | some start => do
    let left ← line.takeBytes start
    let right ← line.dropBytes (start + byteLength arrow)
    readSides line left right offset ⟨offset + start, offset + start + byteLength arrow⟩

/-- Take over a declaration that line `number` makes. -/
def declare (draft : Draft) (number : Nat) (span : Span) (keyword : Keyword) (value : List Char) :
    Except Trap Draft :=
  if keyword = .transitions then .ok draft
  else
    let noted :=
      if draft.isDeclared keyword then draft.note (.redeclared number span keyword) else draft
    match keyword with
    | .transitions => .error .unreachable
    | keyword => .ok (noted.assign keyword value)

/-- Read line `number`, which is trimmed and not blank. -/
def readLine (draft : Draft) (number : Nat) (line : Slice) (offset : Nat) : Except Trap Draft :=
  let span : Span := ⟨offset, offset + line.size⟩
  match declaration? line.text with
  | some (keyword, value) => declare draft number span keyword value
  | none =>
    if HasArrow line.text then do
      match ← readRule line offset with
      | .ok words => return { draft with rules := draft.rules.push words }
      | .error (defect, span) =>
        let fault := .malformedRule number (String.ofList line.text) defect span
        return { draft with faults := draft.faults.push fault }
    else .ok (draft.note (.unrecognized number span (suggestions (lineHead line.text))))

/-- Read line `number`, with its margins and the line feed that ends it. -/
def readRaw (draft : Draft) (number offset : Nat) (raw : Slice) : Except Trap Draft :=
  if raw.trim.text.isEmpty then .ok draft
  else do
    let before ← raw.trim.offsetIn raw
    readLine draft number raw.trim (offset + before)

/-- Read the lines from number `number` on; the first of them is at byte `offset` of the text. -/
def readLines (draft : Draft) (number offset : Nat) : List Slice → Except Trap Draft
  | [] => .ok draft
  | raw :: rest => do
    let draft ← readRaw draft number offset raw
    readLines draft (number + 1) (offset + raw.size) rest

/-- Load a definition from a text that stands at `address`. -/
def load (address : Nat) (epsilon text : String) : Except Trap (Except (List Fault) Loaded) := do
  let draft ← readLines {} 1 0 (rawLines address (lines text.toList))
  return match draft.start?, draft.allFaults with
    | some start, [] => .ok ⟨draft.toAutomaton start epsilon, draft.notices.toList⟩
    | _, faults => .error faults

/-! ## Rules -/

section Rule

variable {line L R : Slice} {left right : List Char} {offset : Nat} {first : Span}

/-- Cutting a line at its first arrow is in bounds, and the rest of the work is on the two sides. -/
theorem readRule_eq_readSides (hline : line.text = left ++ arrow ++ right) (hleft : ¬ HasArrow left) :
    ∃ L R : Slice, L.text = left ∧ L.address = line.address ∧ R.text = right ∧
      readRule line offset = readSides line L R offset
        ⟨offset + byteLength left, offset + byteLength left + byteLength arrow⟩ := by
  have hstart : find? arrow line.text = some (byteLength left) := by
    rw [hline, find?_append_arrow hleft]
  have htake := Slice.takeBytes_of_append (hline.trans (List.append_assoc _ _ _))
  have hdrop := Slice.dropBytes_of_append hline
  rw [byteLength_append] at hdrop
  refine ⟨⟨line.address, left⟩, ⟨line.address + (byteLength left + byteLength arrow), right⟩, rfl, rfl,
    rfl, ?_⟩
  rw [readRule, hstart]
  simp only [htake, hdrop]
  rfl

/-- A word of a line stands within it. -/
theorem offsetIn_of_words_eq_cons {word : Slice} {rest : List Slice} (hL : L.text <+: line.text)
    (haddress : L.address = line.address) (hspace : NoLeadingSpace line.text)
    (h : L.words = word :: rest) : word.offsetIn line = .ok 0 := by
  have hword : word.text ∈ words L.text := by
    rw [← L.map_text_words, h]
    exact List.mem_cons_self
  have hinfix : word.text <:+: line.text := (infix_of_mem_words hword).trans hL.isInfix
  have hfirst := Slice.address_of_words_eq_cons h (hspace.of_isPrefix hL)
  rw [Slice.offsetIn_eq_ok_iff, hfirst, haddress, Nat.zero_add]
  exact ⟨rfl, byteLength_le_of_isInfix hinfix⟩

/-- The words that a rule needs are at hand where it is read. -/
theorem readWords_eq {rl : RuleLine} (h : RuleLine.ofPieces L.text R.text [] = .ok rl) :
    readWords L.words R.words = .ok rl := by
  obtain ⟨-, ⟨ws, hleft⟩, ws', hright, hpush⟩ := RuleLine.ofPieces_eq_ok_iff.1 h
  rw [← L.map_text_words] at hleft
  rw [← R.map_text_words] at hright
  obtain ⟨first, rest, hL, hfirst, hrest⟩ := List.map_eq_cons_iff.1 hleft
  obtain ⟨second, rest, rfl, hsecond, hrest⟩ := List.map_eq_cons_iff.1 hrest
  obtain ⟨third, rest, rfl, hthird, -⟩ := List.map_eq_cons_iff.1 hrest
  obtain ⟨firstRight, restRight, hR, hfirstRight, hrestRight⟩ := List.map_eq_cons_iff.1 hright
  have hpushed : restRight[0]?.map (fun word => String.ofList word.text) = rl.push := by
    rw [hpush, ← hrestRight, List.head?_map, Option.map_map, ← List.head?_eq_getElem?]
    rfl
  rw [hL, hR]
  calc readWords (first :: second :: third :: rest) (firstRight :: restRight)
    _ = .ok ⟨.ofList first.text, .ofList second.text, .ofList third.text, .ofList firstRight.text,
          restRight[0]?.map fun word => String.ofList word.text⟩ := rfl
    _ = .ok rl := by
      simp only [hfirst, hsecond, hthird, hfirstRight, hpushed, String.ofList_toList]

theorem fewWordsSpan_of_nil (h : L.words = []) : fewWordsSpan line L offset first = .ok first := by
  simp only [fewWordsSpan, h]

/-- The first word is a part of the line, so its offset can be told. -/
theorem fewWordsSpan_of_ne_nil (h : L.words ≠ []) (hL : L.text <+: line.text)
    (haddress : L.address = line.address) (hspace : NoLeadingSpace line.text) :
    fewWordsSpan line L offset first = .ok ⟨offset, first.stop⟩ := by
  obtain ⟨word, rest, hcons⟩ := List.exists_cons_of_ne_nil h
  have hoffset := offsetIn_of_words_eq_cons hL haddress hspace hcons
  simp only [fewWordsSpan, hcons, hoffset]
  rfl

/-- A second arrow is found before any word is asked for. -/
theorem readSides_of_second {mid post : List Char} (hR : R.text = mid ++ arrow ++ post)
    (hmid : ¬ HasArrow mid) :
    readSides line L R offset first = .ok (.error (.extraArrow,
      ⟨first.stop + byteLength mid, first.stop + byteLength mid + byteLength arrow⟩)) := by
  have hsecond : find? arrow R.text = some (byteLength mid) := by
    rw [hR, find?_append_arrow hmid]
  simp only [readSides, hsecond]

/-- With no other arrow the pieces decide, as they do where they stand in no memory. -/
theorem readSides_of_not_hasArrow (hR : ¬ HasArrow R.text) (hL : L.text <+: line.text)
    (haddress : L.address = line.address) (hspace : NoLeadingSpace line.text) :
    readSides line L R offset
        ⟨offset + byteLength L.text, offset + byteLength L.text + byteLength arrow⟩ =
      .ok ((RuleLine.ofPieces L.text R.text []).mapError fun d => (d.1, d.2.shift offset)) := by
  have hlength : L.words.length = (words L.text).length := by
    rw [← L.map_text_words, List.length_map]
  have hwords : words L.text = [] ↔ L.words = [] := by
    rw [← L.map_text_words, List.map_eq_nil_iff]
  have htarget : words R.text = [] ↔ R.words = [] := by
    rw [← R.map_text_words, List.map_eq_nil_iff]
  simp only [readSides, find?_of_not_hasArrow hR]
  rcases RuleLine.ofPieces_cases L.text R.text [] with h | ⟨-, hnil, h⟩ | ⟨-, hne, hfew, h⟩ |
    ⟨-, hthree, hnil, h⟩ | ⟨-, hthree, hne, rl, h⟩
  · exact absurd rfl h.1
  · rw [if_pos (by rw [hlength, hnil]; decide), fewWordsSpan_of_nil (hwords.1 hnil), h, hlength, hnil]
    simp [Except.map, Except.mapError, Span.shift, Nat.add_assoc]
  · rw [if_pos (hlength ▸ hfew), fewWordsSpan_of_ne_nil (hwords.not.1 hne) hL haddress hspace, h, hlength]
    simp [Except.map, Except.mapError, Span.shift, Nat.add_assoc]
  · rw [if_neg (by rw [hlength]; omega), if_pos (by rw [htarget.1 hnil]; rfl), h]
    simp [Except.mapError, Span.shift, Nat.add_assoc]
  · rw [if_neg (by rw [hlength]; omega), if_neg (by simpa using htarget.not.1 hne), readWords_eq h, h]
    rfl

/-- What a rule is read from: the pieces before and after its first arrow, wherever they stand. -/
theorem readRule_eq (hline : line.text = left ++ arrow ++ right) (hleft : ¬ HasArrow left)
    (hspace : NoLeadingSpace line.text) {piece : List Char} {more : List (List Char)}
    (hright : splitArrows right = piece :: more) :
    readRule line offset =
      .ok ((RuleLine.ofPieces left piece more).mapError fun d => (d.1, d.2.shift offset)) := by
  obtain ⟨L, R, rfl, haddress, rfl, hcut⟩ := @readRule_eq_readSides line left right offset hline hleft
  have hL : L.text <+: line.text := by
    rw [hline, List.append_assoc]
    exact List.prefix_append _ _
  rw [hcut]
  by_cases hR : HasArrow R.text
  · obtain ⟨mid, post, hpost, hmid⟩ := hR.exists_first
    rw [hpost, splitArrows_append_arrow hmid] at hright
    obtain ⟨rfl, rfl⟩ := List.cons.inj hright
    rw [readSides_of_second hpost hmid]
    rcases RuleLine.ofPieces_cases L.text mid (splitArrows post) with h | h | h | h | h
    · rw [h.2]
      simp [Except.mapError, Span.shift, Nat.add_assoc]
    all_goals exact absurd h.1 (splitArrows_ne_nil post)
  · rw [splitArrows_of_not_hasArrow hR] at hright
    obtain ⟨rfl, rfl⟩ := List.cons.inj hright
    exact readSides_of_not_hasArrow hR hL haddress hspace

end Rule

/-! ## Lines -/

theorem trim_append_newline (cs : List Char) : Text.trim (cs ++ ['\n']) = Text.trim cs := by
  have hnewline : isSpace '\n' = true := by decide
  have hend : ∀ xs, trimEnd (xs ++ ['\n']) = trimEnd xs := fun xs =>
    List.rdropWhile_concat_pos isSpace xs '\n' hnewline
  rw [Text.trim, Text.trim, trimStart, trimStart, List.dropWhile_append]
  cases hcs : cs.dropWhile isSpace with
  | nil => simp [hnewline]
  | cons c rest => exact hend (c :: rest)

theorem takeWhile_append_newline {cs : List Char} (h : Text.trim cs ≠ []) :
    (cs ++ ['\n']).takeWhile isSpace = cs.takeWhile isSpace := by
  rw [List.takeWhile_append, if_neg]
  intro hlength
  have hall : cs.takeWhile isSpace = cs := (List.takeWhile_prefix isSpace).eq_of_length hlength
  have hcs := List.takeWhile_append_dropWhile (p := isSpace) (l := cs)
  rw [hall, List.append_right_eq_self] at hcs
  rw [Text.trim, trimStart, hcs] at h
  exact h rfl

section Line

variable {line : Slice} {draft : Draft} {number offset : Nat}

/-- The impossible case of a declaration does not come up: the keyword has been looked at before. -/
theorem declare_eq (draft : Draft) (number : Nat) (span : Span) (keyword : Keyword)
    (value : List Char) : declare draft number span keyword value = .ok
      ((if draft.isDeclared keyword then draft.note (.redeclared number span keyword)
        else draft).assign keyword value) := by
  cases keyword <;> rfl

/-- Reading a line never traps. -/
theorem readLine_eq (hspace : NoLeadingSpace line.text) :
    readLine draft number line offset = .ok (draft.add ⟨number, offset, line.text⟩) := by
  rw [readLine]
  cases hdeclaration : declaration? line.text with
  | some d =>
    obtain ⟨keyword, value⟩ := d
    have hentry : Entry.ofText line.text = .declaration keyword value :=
      Entry.ofText_eq_declaration_iff.2 hdeclaration
    simp only [Draft.add, hentry, declare_eq]
    rfl
  | none =>
    have hstart : ¬ StartsDeclaration line.text := declaration?_eq_none_iff.1 hdeclaration
    by_cases harrow : HasArrow line.text
    · obtain ⟨left, right, hline, hleft⟩ := harrow.exists_first
      obtain ⟨piece, more, hright⟩ := List.exists_cons_of_ne_nil (splitArrows_ne_nil right)
      have hentry := Entry.ofText_append_arrow (hline ▸ hstart) hleft hright
      rw [← hline] at hentry
      simp only [Draft.add, hentry, if_pos harrow, readRule_eq hline hleft hspace hright]
      cases RuleLine.ofPieces left piece more <;> rfl
    · have hentry := Entry.ofText_eq_unrecognized_iff.2 ⟨hstart, harrow⟩
      simp only [Draft.add, hentry, if_neg harrow]
      rfl

/-- A line is read in the same way with the line feed that ends it and without. -/
theorem readRaw_eq {raw : Slice} {cs : List Char} (hraw : raw.text = cs ∨ raw.text = cs ++ ['\n']) :
    readRaw draft number offset raw =
      .ok (([Line.trim ⟨number, offset, cs⟩].filter (!·.isEmpty)).foldl Draft.add draft) := by
  have htrim : raw.trim.text = Text.trim cs := by
    rcases hraw with h | h
    · rw [Slice.trim, h]
    · rw [Slice.trim, h, trim_append_newline]
  have hline : (Line.trim ⟨number, offset, cs⟩).isEmpty = raw.trim.text.isEmpty := by
    rw [htrim]
    rfl
  rw [readRaw]
  by_cases hempty : Text.trim cs = []
  · have hblank : raw.trim.text.isEmpty = true := by rw [htrim, hempty, List.isEmpty_nil]
    rw [if_pos hblank, List.filter_cons_of_neg (by simp [hline, hblank])]
    rfl
  · have hblank : raw.trim.text.isEmpty = false := by rwa [htrim, List.isEmpty_eq_false_iff]
    have hmargin : raw.text.takeWhile isSpace = cs.takeWhile isSpace := by
      rcases hraw with h | h
      · rw [h]
      · rw [h, takeWhile_append_newline hempty]
    have hspace : NoLeadingSpace raw.trim.text := noLeadingSpace_trim raw.text
    rw [if_neg (by simp [hblank]), List.filter_cons_of_pos (by simp [hline, hblank]),
      Slice.offsetIn_trim, hmargin]
    calc readLine draft number raw.trim (offset + byteLength (cs.takeWhile isSpace))
      _ = .ok (draft.add ⟨number, offset + byteLength (cs.takeWhile isSpace), raw.trim.text⟩) :=
        readLine_eq hspace
      _ = .ok (draft.add (Line.trim ⟨number, offset, cs⟩)) := by
        rw [htrim]
        rfl

/-- Reading the lines never traps, and comes to the draft of all of them. -/
theorem readLines_eq (draft : Draft) (number offset address : Nat) (css : List (List Char)) :
    readLines draft number offset (rawLines address css) =
      .ok ((((Line.locate number offset css).map Line.trim).filter (!·.isEmpty)).foldl Draft.add
        draft) := by
  have hnewline : '\n'.utf8Size = 1 := by decide
  fun_induction rawLines address css generalizing draft number offset with
  | case1 => rfl
  | case2 address last hempty =>
    obtain rfl : last = [] := by simpa using hempty
    rfl
  | case3 address last hempty =>
    rw [readLines, readRaw_eq (.inl rfl)]
    rfl
  | case4 address line rest hne ih =>
    have hsize : offset + (Slice.mk address (line ++ ['\n'])).size = offset + byteLength line + 1 := by
      simp only [Slice.size, byteLength_append, byteLength_cons, byteLength_nil, hnewline]
      omega
    rw [readLines, readRaw_eq (.inr rfl), hsize, Line.locate, List.map_cons]
    refine (ih _ (number + 1) (offset + byteLength line + 1)).trans ?_
    rw [← List.foldl_append, ← List.filter_append, List.singleton_append]

end Line

/-- **No check fails.** -/
theorem load_eq_ok (address : Nat) (epsilon text : String) :
    load address epsilon text = .ok (Format.load epsilon text) := by
  have hdraft : readLines {} 1 0 (rawLines address (lines text.toList)) =
      .ok (Draft.ofText text.toList) := readLines_eq {} 1 0 address (lines text.toList)
  rw [load, hdraft, Format.load]
  rfl

end PDA.Guarded
