import PDA.Proofs.Format.Draft

/-!
# All notices of a text

The notice of a line depends on what was declared before it, and on nothing else that was read
(`Draft.noticesAfter`). Told without that order, there is a notice for each line that is neither a
declaration nor meant as a rule, and for each declaration that is not the first one of its keyword, and for
no other line (`load_notices_exact`).
-/

namespace PDA.Format

open Text

/-- The notice of the entry of a line; `declared` tells which keywords were declared before. -/
def Entry.notice? (line : Line) (declared : Keyword → Bool) : Entry → Option Notice
  | .declaration k _ =>
    if declared k then some (.redeclared line.number line.span k) else none
  | .unrecognized =>
    some (.unrecognized line.number line.span (suggestions (lineHead line.text)))
  | _ => none

namespace Entry

variable {line : Line} {declared : Keyword → Bool} {notice : Notice}

/-- There are two reasons for a notice: the line is not recognized, or its keyword was declared before. -/
theorem notice?_eq_some_iff {e : Entry} : e.notice? line declared = some notice ↔
    (e = .unrecognized ∧
      notice = .unrecognized line.number line.span (suggestions (lineHead line.text))) ∨
    ∃ k value, e = .declaration k value ∧ declared k = true ∧
      notice = .redeclared line.number line.span k := by
  cases e with
  | declaration k value => simp [notice?, @eq_comm _ notice]
  | unrecognized => simp [notice?, @eq_comm _ notice]
  | rule words => simp [notice?]
  | malformed defect span => simp [notice?]

theorem notice?_ofText_eq_some_iff : (ofText line.text).notice? line declared = some notice ↔
    (¬ StartsDeclaration line.text ∧ ¬ HasArrow line.text ∧
      notice = .unrecognized line.number line.span (suggestions (lineHead line.text))) ∨
    ∃ k, k.head <+: line.text ∧ declared k = true ∧
      notice = .redeclared line.number line.span k := by
  rw [notice?_eq_some_iff, ofText_eq_unrecognized_iff, and_assoc]
  refine or_congr_right (exists_congr fun k => ?_)
  simp only [ofText_eq_declaration_iff, declaration?_eq_some_iff_head, and_assoc, exists_and_left,
    ↓existsAndEq, true_and]

theorem line_of_notice? (h : (ofText line.text).notice? line declared = some notice) :
    notice.line = line.number := by
  obtain ⟨-, -, rfl⟩ | ⟨k, -, -, rfl⟩ := notice?_ofText_eq_some_iff.1 h
  · rfl
  · rfl

end Entry

/-! ## Notices of a draft -/

namespace Draft

variable {cs : List Char} {ls : List Line} {draft : Draft} {notice : Notice}

theorem notices_assign (draft : Draft) (k : Keyword) (value : List Char) :
    (draft.assign k value).notices = draft.notices := by cases k <;> rfl

/-- A line adds its notice at the end, if there is one. -/
theorem notices_add (draft : Draft) (line : Line) :
    (draft.add line).notices.toList = draft.notices.toList ++
      ((Entry.ofText line.text).notice? line draft.isDeclared).toList := by
  unfold add
  split
  · rename_i hentry
    simp only [notices_assign, hentry, Entry.notice?]
    split <;> simp [note]
  · rename_i hentry
    simp [hentry, Entry.notice?]
  · rename_i hentry
    simp [hentry, Entry.notice?]
  · rename_i hentry
    simp [hentry, Entry.notice?, note]

/-- The notices of lines that are read into a draft. -/
def noticesAfter (draft : Draft) : List Line → List Notice
  | [] => []
  | line :: ls =>
    ((Entry.ofText line.text).notice? line draft.isDeclared).toList ++ noticesAfter (draft.add line) ls

theorem notices_foldl_add (ls : List Line) (draft : Draft) :
    (ls.foldl add draft).notices.toList = draft.notices.toList ++ draft.noticesAfter ls := by
  induction ls generalizing draft with
  | nil => simp [noticesAfter]
  | cons line ls ih => rw [List.foldl_cons, ih, notices_add, List.append_assoc, noticesAfter]

theorem notices_ofText (cs : List Char) :
    (ofText cs).notices.toList = noticesAfter {} (contentLines cs) := by
  rw [ofText, notices_foldl_add]
  rfl

/-- A notice is due to one line, and to what was declared by the lines above it. -/
theorem mem_noticesAfter : notice ∈ draft.noticesAfter ls ↔ ∃ pre line post,
    ls = pre ++ line :: post ∧
      (Entry.ofText line.text).notice? line (pre.foldl add draft).isDeclared = some notice := by
  induction ls generalizing draft with
  | nil => simp [noticesAfter]
  | cons line ls ih =>
    rw [noticesAfter, List.mem_append, ih, Option.mem_toList]
    constructor
    · rintro (h | ⟨pre, line', post, rfl, h⟩)
      · exact ⟨[], line, ls, rfl, h⟩
      · exact ⟨line :: pre, line', post, rfl, h⟩
    · rintro ⟨pre, line', post, hls, h⟩
      cases pre with
      | nil =>
        obtain ⟨rfl, rfl⟩ := List.cons.inj hls
        exact .inl h
      | cons first pre =>
        obtain ⟨rfl, rfl⟩ := List.cons.inj hls
        exact .inr ⟨pre, line', post, rfl, h⟩

/-- No line has more than one notice, and they are in the order of the lines. -/
theorem map_line_noticesAfter_sublist (ls : List Line) (draft : Draft) :
    ((draft.noticesAfter ls).map Notice.line).Sublist (ls.map Line.number) := by
  induction ls generalizing draft with
  | nil => exact List.nil_sublist _
  | cons line ls ih =>
    rw [noticesAfter, List.map_append, List.map_cons, ← List.singleton_append]
    refine List.Sublist.append ?_ (ih (draft.add line))
    cases hnotice : (Entry.ofText line.text).notice? line draft.isDeclared with
    | none => exact List.nil_sublist _
    | some notice => rw [Option.toList_some, List.map_singleton, Entry.line_of_notice? hnotice]

/-- The notices stand in the order of their lines, and no line has two. -/
theorem pairwise_line_noticesAfter (draft : Draft) (cs : List Char) :
    (draft.noticesAfter (contentLines cs)).Pairwise fun a b => a.line < b.line := by
  have hnumbers : ((contentLines cs).map Line.number).Pairwise (· < ·) :=
    List.pairwise_map.2 (pairwise_number_contentLines cs)
  exact List.pairwise_map.1 (hnumbers.sublist (map_line_noticesAfter_sublist _ draft))

/-- The notices of a text that is read into a draft are those of lines that say nothing and of lines that
declare what the draft or an earlier line does. -/
theorem mem_noticesAfter_contentLines :
    notice ∈ draft.noticesAfter (contentLines cs) ↔ ∃ line ∈ contentLines cs,
      (¬ StartsDeclaration line.text ∧ ¬ HasArrow line.text ∧
        notice = .unrecognized line.number line.span (suggestions (lineHead line.text))) ∨
      ∃ k, k ≠ .transitions ∧ k.head <+: line.text ∧
        ((∃ earlier ∈ contentLines cs, earlier.number < line.number ∧ k.head <+: earlier.text) ∨
          draft.isDeclared k = true) ∧
        notice = .redeclared line.number line.span k := by
  simp only [mem_noticesAfter, Entry.notice?_ofText_eq_some_iff]
  constructor
  · rintro ⟨pre, line, post, hls, hnotice⟩
    refine ⟨line, by simp [hls], hnotice.imp_right ?_⟩
    rintro ⟨k, hk, hdeclared, rfl⟩
    have hne : k ≠ .transitions := by
      rintro rfl
      exact Bool.false_ne_true hdeclared
    refine ⟨k, hne, hk, ((isDeclared_foldl_add hne).1 hdeclared).imp_left ?_, rfl⟩
    rintro ⟨earlier, hearlier, hhead⟩
    obtain ⟨hmem, hlt⟩ := (mem_before_iff hls).1 hearlier
    exact ⟨earlier, hmem, hlt, hhead⟩
  · rintro ⟨line, hline, hnotice⟩
    obtain ⟨pre, post, hls⟩ := List.append_of_mem hline
    refine ⟨pre, line, post, hls, hnotice.imp_right ?_⟩
    rintro ⟨k, hne, hk, hdeclared, rfl⟩
    refine ⟨k, hk, (isDeclared_foldl_add hne).2 (hdeclared.imp_left ?_), rfl⟩
    rintro ⟨earlier, hmem, hlt, hhead⟩
    exact ⟨earlier, (mem_before_iff hls).2 ⟨hmem, hlt⟩, hhead⟩

/-- The notices of a text, told from its lines alone. -/
theorem mem_notices_ofText : notice ∈ (ofText cs).notices.toList ↔ ∃ line ∈ contentLines cs,
    (¬ StartsDeclaration line.text ∧ ¬ HasArrow line.text ∧
      notice = .unrecognized line.number line.span (suggestions (lineHead line.text))) ∨
    ∃ k, k ≠ .transitions ∧ k.head <+: line.text ∧
      (∃ earlier ∈ contentLines cs, earlier.number < line.number ∧ k.head <+: earlier.text) ∧
      notice = .redeclared line.number line.span k := by
  rw [notices_ofText, mem_noticesAfter_contentLines]
  simp only [isDeclared_empty, Bool.false_eq_true, or_false]

/-- There is nothing to notice about lines of which none is unrecognized and no two declare the same
keyword. -/
theorem notices_ofText_eq_nil (hknown : .unrecognized ∉ entries cs)
    (honce : ∀ k, k ≠ .transitions → (declared k (entries cs)).length ≤ 1) :
    (ofText cs).notices.toList = [] := by
  refine List.eq_nil_iff_forall_not_mem.2 fun notice hnotice => ?_
  obtain ⟨line, hline, ⟨hd, harrow, -⟩ | ⟨k, hk, hhead, ⟨earlier, hearlier, hlt, hhead'⟩, -⟩⟩ :=
    mem_notices_ofText.1 hnotice
  · exact hknown (List.mem_map.2 ⟨line, hline, Entry.ofText_eq_unrecognized_iff.2 ⟨hd, harrow⟩⟩)
  · have hlength : (declared k (entries cs)).length =
        ((contentLines cs).filter (k.head <+: ·.text)).length := by
      rw [declared, entries, List.filterMap_map, List.length_filterMap_eq_countP,
        ← List.countP_eq_length_filter]
      refine List.countP_congr fun line _ => ?_
      rw [Function.comp_apply, Entry.isSome_value?_ofText_iff, decide_eq_true_iff]
    have hle := honce k hk
    rw [hlength] at hle
    have hdeclares : ∀ l ∈ contentLines cs, k.head <+: l.text →
        l ∈ (contentLines cs).filter (k.head <+: ·.text) :=
      fun l hl hk => List.mem_filter.2 ⟨hl, decide_eq_true hk⟩
    have hline := hdeclares line hline hhead
    have hearlier := hdeclares earlier hearlier hhead'
    -- no more than one line declares the keyword, so both are the same
    obtain ⟨only, honly⟩ := List.length_eq_one_iff.1 (le_antisymm hle (List.length_pos_of_mem hline))
    rw [honly, List.mem_singleton] at hline hearlier
    rw [hline, hearlier] at hlt
    exact lt_irrefl _ hlt

/-- A notice shows the whole of its line. -/
theorem exists_line_of_mem_notices (h : notice ∈ (ofText cs).notices.toList) :
    ∃ line ∈ contentLines cs, notice.line = line.number ∧ notice.span = line.span := by
  obtain ⟨line, hline, ⟨-, -, rfl⟩ | ⟨k, -, -, -, rfl⟩⟩ := mem_notices_ofText.1 h
  · exact ⟨line, hline, rfl, rfl⟩
  · exact ⟨line, hline, rfl, rfl⟩

end Draft

/-! ## Loading -/

/-- Line number `n` of the text is a declaration of the keyword. -/
def DeclaresAt (cs : List Char) (k : Keyword) (n : Nat) : Prop :=
  ∃ before line after, IsLine cs n before line after ∧ k.head <+: Text.trim line

/-- The notices are all that is odd about the text. -/
structure AreNoticesOf (cs : List Char) (notices : List Notice) : Prop where
  increasing : notices.Pairwise fun a b => a.line < b.line
  unrecognized_iff : ∀ n, (∃ span ks, .unrecognized n span ks ∈ notices) ↔
    ∃ before line after, IsLine cs n before line after ∧ Text.trim line ≠ [] ∧
      ¬ StartsDeclaration (Text.trim line) ∧ ¬ HasArrow (Text.trim line)
  redeclared_iff : ∀ n k, (∃ span, .redeclared n span k ∈ notices) ↔
    k ≠ .transitions ∧ DeclaresAt cs k n ∧ ∃ m < n, DeclaresAt cs k m
  silent : ∀ n before line after, IsLine cs n before line after →
    (IsRuleText (Text.trim line) ∨ Keyword.transitions.head <+: Text.trim line ∨
      ∃ k : Keyword, k.head <+: Text.trim line ∧ ∀ m < n, ¬ DeclaresAt cs k m) →
    ∀ notice ∈ notices, notice.line ≠ n

section Exact

variable {cs : List Char} {n : Nat}

/-- A line of the text that is not blank and a line that is read are the same thing. -/
theorem exists_isLine_iff {P : List Char → Prop} :
    (∃ before line after, IsLine cs n before line after ∧ Text.trim line ≠ [] ∧ P (Text.trim line)) ↔
      ∃ line ∈ contentLines cs, line.number = n ∧ P line.text := by
  constructor
  · rintro ⟨before, raw, after, hraw, hne, hP⟩
    obtain ⟨line, hline, hnumber, htext⟩ := exists_mem_contentLines hraw hne
    exact ⟨line, hline, hnumber, htext ▸ hP⟩
  · rintro ⟨line, hline, rfl, hP⟩
    obtain ⟨before, raw, after, hraw, htext, hne, -⟩ := exists_isLine_of_mem_contentLines hline
    rw [htext] at hne hP
    exact ⟨before, raw, after, hraw, hne, hP⟩

/-- A line declares a keyword if it begins with it, the white space before it aside. -/
theorem declaresAt_iff {k : Keyword} :
    DeclaresAt cs k n ↔ ∃ line ∈ contentLines cs, line.number = n ∧ k.head <+: line.text := by
  have hne : ∀ line, k.head <+: Text.trim line → Text.trim line ≠ [] := by
    intro line hhead hnil
    rw [hnil, List.prefix_nil] at hhead
    simp [Keyword.head] at hhead
  rw [← exists_isLine_iff, DeclaresAt]
  refine exists_congr fun before => exists_congr fun line => exists_congr fun after => ?_
  exact and_congr_right fun _ => (and_iff_right_of_imp (hne line)).symm

/-- The notices of a draft are those that the text asks for: one at each line that is not recognized or
declares again, in the order of the lines. -/
theorem Draft.areNoticesOf_ofText (cs : List Char) :
    AreNoticesOf cs (ofText cs).notices.toList := by
  have hredeclared : ∀ n k, (∃ span, .redeclared n span k ∈ (ofText cs).notices.toList) ↔
      k ≠ .transitions ∧ DeclaresAt cs k n ∧ ∃ m < n, DeclaresAt cs k m := by
    intro n k
    simp only [mem_notices_ofText, declaresAt_iff]
    constructor
    · rintro ⟨span, line, hline, ⟨-, -, hnotice⟩ | ⟨k', hk, hhead, hearlier, hnotice⟩⟩
      · contradiction
      · obtain ⟨rfl, rfl, rfl⟩ := Notice.redeclared.inj hnotice
        obtain ⟨earlier, hmem, hlt, hhead'⟩ := hearlier
        exact ⟨hk, ⟨line, hline, rfl, hhead⟩, earlier.number, hlt, earlier, hmem, rfl, hhead'⟩
    · rintro ⟨hk, ⟨line, hline, rfl, hhead⟩, m, hlt, earlier, hmem, rfl, hhead'⟩
      exact ⟨line.span, line, hline, .inr ⟨k, hk, hhead, ⟨earlier, hmem, hlt, hhead'⟩, rfl⟩⟩
  refine ⟨?_, ?_, hredeclared, ?_⟩
  · rw [notices_ofText]
    exact pairwise_line_noticesAfter {} cs
  · intro n
    rw [exists_isLine_iff (P := fun text => ¬ StartsDeclaration text ∧ ¬ HasArrow text)]
    simp only [mem_notices_ofText]
    constructor
    · rintro ⟨span, ks, line, hline, ⟨hd, harrow, hnotice⟩ | ⟨k, -, -, -, hnotice⟩⟩
      · obtain ⟨rfl, -, -⟩ := Notice.unrecognized.inj hnotice
        exact ⟨line, hline, rfl, hd, harrow⟩
      · contradiction
    · rintro ⟨line, hline, rfl, hd, harrow⟩
      exact ⟨_, _, line, hline, .inl ⟨hd, harrow, rfl⟩⟩
  · intro n before raw after hraw hkind notice hnotice hn
    obtain ⟨line, hline, hcases⟩ := mem_notices_ofText.1 hnotice
    have hnumber : line.number = n := by
      rcases hcases with ⟨-, -, rfl⟩ | ⟨k, -, -, -, rfl⟩
      · exact hn
      · exact hn
    obtain ⟨before', raw', after', hraw', htext, -, -⟩ := exists_isLine_of_mem_contentLines hline
    rw [hnumber] at hraw'
    rw [← hraw'.unique hraw, ← htext] at hkind
    rcases hcases with ⟨hd, harrow, -⟩ | ⟨k, hk, hhead, ⟨earlier, hmem, hlt, hhead'⟩, -⟩
    · rcases hkind with hrule | htransitions | ⟨k, hk, -⟩
      · exact harrow hrule.2
      · exact hd ⟨_, htransitions⟩
      · exact hd ⟨k, hk⟩
    · rcases hkind with hrule | htransitions | ⟨k', hk', hfirst⟩
      · exact hrule.1 ⟨k, hhead⟩
      · exact hk (Keyword.eq_of_head_isPrefix hhead htransitions)
      · obtain rfl := Keyword.eq_of_head_isPrefix hhead hk'
        rw [hnumber] at hlt
        exact hfirst earlier.number hlt (declaresAt_iff.2 ⟨earlier, hmem, rfl, hhead'⟩)

end Exact

/-- **All notices.** What is noticed about a text that is loaded, in the order of its lines and at most once
for each, is every line that is neither a declaration nor meant as a rule, and every declaration that
replaces an earlier one. -/
theorem load_notices_exact {epsilon text : String} {loaded : Loaded}
    (h : load epsilon text = .ok loaded) : AreNoticesOf text.toList loaded.notices := by
  obtain ⟨start, -, -, rfl⟩ := load_eq_ok_iff.1 h
  exact Draft.areNoticesOf_ofText text.toList

/-- A text with a declaration in a rule, an arrow in a declaration, and declarations that are blank. -/
def redeclaring : String :=
  "start_state:\nq states: b -> r\nstates:a -> b\ntransitions:\n x states:\n\ntransitions:\n" ++
    "states:\nstart_state:q\n"

theorem load_notices_exact_redeclaring :
    ∃ loaded, load "λ" redeclaring = .ok loaded ∧ loaded.notices.map Notice.line = [5, 8, 9] ∧
      AreNoticesOf redeclaring.toList loaded.notices := by
  have hload : ∃ loaded, load "λ" redeclaring = .ok loaded ∧
      loaded.notices.map Notice.line = [5, 8, 9] := ⟨_, rfl, rfl⟩
  obtain ⟨loaded, hloaded, hlines⟩ := hload
  exact ⟨loaded, hloaded, hlines, load_notices_exact hloaded⟩

end PDA.Format
