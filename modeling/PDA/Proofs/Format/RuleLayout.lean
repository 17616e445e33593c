import PDA.Proofs.Format.Entry
import PDA.Proofs.Text.Layout
import PDA.Proofs.Text.Line

/-!
# Words of a rule in any layout

A line is told by the words before and behind its arrow, however they are laid out. If they are words of a
rule, the line is read as the rule that they say (`ShowsRule.exists_entry`), and any other line with an arrow
that is no declaration is read as malformed, with the only defect that it has (`exists_isOf`).
-/

namespace PDA.Format

open Text

/-- The line shows the words `l` and `r` of a rule, before and behind an arrow. -/
structure ShowsRule (l r : List String) (line : List Char) : Prop where
  three_le : 3 ≤ l.length
  one_le : 1 ≤ r.length
  isSlot : ∀ w ∈ l ++ r, IsSlot w.toList
  first : ∀ w ∈ l[0]?, ¬ StartsDeclaration w.toList
  layout : ∃ left right, line = left ++ arrow ++ right ∧ LaysOut l left ∧ LaysOut r right

/-- The words `l` before an arrow and `r` behind it say the rule when `epsilon` denotes epsilon. -/
structure WordsSay (epsilon : String) (l r : List String) (rule : Rule) : Prop where
  source : l[0]? = some rule.source.name
  read : ∃ w, l[1]? = some w ∧ rule.read = if w = epsilon then none else some ⟨w⟩
  pop : ∃ w, l[2]? = some w ∧ rule.pop = if w = epsilon then none else some ⟨w⟩
  target : r[0]? = some rule.target.name
  push : rule.push =
    r[1]?.elim [] fun w => if w = epsilon then [] else w.toList.map Symbol.ofChar

/-- There is more than one arrow in the text. -/
def HasTwoArrows (cs : List Char) : Prop :=
  ∃ left mid right, cs = left ++ arrow ++ mid ++ arrow ++ right

/-- The line has one arrow, behind a layout of the words `l` and before `right`. -/
structure HasOneArrow (line : List Char) (l : List String) (right : List Char) : Prop where
  not_two : ¬ HasTwoArrows line
  isWord : ∀ w ∈ l, IsWord w.toList
  layout : ∃ left, line = left ++ arrow ++ right ∧ LaysOut l left

/-- What is wrong with a line: more than one arrow, else too few words before it, else no word behind it. -/
def Defect.IsOf (line : List Char) : Defect → Prop
  | .extraArrow => HasTwoArrows line
  | .tooFewWords count => count < 3 ∧ ∃ l right, HasOneArrow line l right ∧ l.length = count
  | .noTarget => ∃ l right, HasOneArrow line l right ∧ 3 ≤ l.length ∧ LaysOut [] right

/-! ## Arrows and margins -/

section Arrows

variable {line left right : List Char} {l l' r ws : List String}

theorem trim_append_arrow (left right : List Char) :
    Text.trim (left ++ arrow ++ right) = trimStart left ++ arrow ++ trimEnd right := by
  have hminus : isSpace '-' = false := by decide
  have hgt : isSpace '>' = false := by decide
  have hsplit : left ++ arrow ++ right = left ++ '-' :: '>' :: right := by simp [arrow]
  have hend : trimEnd (trimStart left ++ ['-'] ++ '>' :: right) =
      trimStart left ++ ['-'] ++ '>' :: trimEnd right := trimEnd_append_cons hgt _ _
  rw [Text.trim, hsplit, trimStart_append_cons hminus]
  simpa [arrow] using hend

/-- Where there is an arrow in a line without its margins, there is one in the line. -/
theorem exists_eq_append_arrow_of_trim (h : Text.trim line = left ++ arrow ++ right) :
    ∃ lead trail, line = (lead ++ left) ++ arrow ++ (right ++ trail) ∧
      (∀ c ∈ lead, isSpace c = true) ∧ ∀ c ∈ trail, isSpace c = true := by
  obtain ⟨trail, htrail, hline⟩ := exists_eq_append_trim line
  refine ⟨line.takeWhile isSpace, trail, ?_, fun c hc => List.mem_takeWhile_imp hc, htrail⟩
  rw [h] at hline
  simpa using hline

theorem hasArrow_trim_iff : HasArrow (Text.trim line) ↔ HasArrow line := by
  constructor
  · exact fun h => h.of_isInfix (trim_isInfix line)
  · intro h
    by_contra hnot
    obtain ⟨trail, htrail, hline⟩ := exists_eq_append_trim line
    have hlead : ∀ c ∈ line.takeWhile isSpace, isSpace c = true := fun c hc =>
      List.mem_takeWhile_imp hc
    rw [hline] at h
    exact not_hasArrow_append_margin htrail (not_hasArrow_margin_append hlead hnot) h

/-- There is one arrow if neither side has one of its own. -/
theorem not_hasTwoArrows (hleft : ¬ HasArrow left) (hright : ¬ HasArrow right) :
    ¬ HasTwoArrows (left ++ arrow ++ right) := by
  rintro ⟨xs, ys, zs, h⟩
  have hpieces := congrArg (List.length ∘ splitArrows) h
  have hpos : ∀ cs, 0 < (splitArrows cs).length := fun cs =>
    List.length_pos_iff.2 (splitArrows_ne_nil cs)
  simp only [Function.comp_apply, splitArrows_append, splitArrows_of_not_hasArrow hleft,
    splitArrows_of_not_hasArrow hright, List.length_append, List.length_singleton] at hpieces
  have hxs := hpos xs
  have hys := hpos ys
  have hzs := hpos zs
  omega

theorem not_hasArrow_of_spaced {cs : List Char} (h : Spaced ws cs)
    (hws : ∀ w ∈ ws, ¬ HasArrow w.toList) : ¬ HasArrow cs := by
  induction h with
  | nil => exact not_hasArrow_nil
  | @cons w ws gap rest hgap hsep hrest ih =>
    obtain ⟨hw, hws⟩ := List.forall_mem_cons.1 hws
    exact not_hasArrow_append_of_head? hw (not_hasArrow_margin_append hgap.isSpace (ih hws))
      (hgap.head?_append hsep hrest)

/-- White space makes no arrow out of words that have none. -/
theorem not_hasArrow_of_laysOut {cs : List Char} (h : LaysOut ws cs)
    (hws : ∀ w ∈ ws, ¬ HasArrow w.toList) : ¬ HasArrow cs := by
  obtain ⟨margin, rest, rfl, hmargin, hrest⟩ := h
  exact not_hasArrow_margin_append hmargin.isSpace (not_hasArrow_of_spaced hrest hws)

/-- With one arrow only, there is one way to tell the words before it. -/
theorem HasOneArrow.unique {right' : List Char} (h : HasOneArrow line l right)
    (h' : HasOneArrow line l' right') : l = l' := by
  have hpieces : ∀ {l right}, HasOneArrow line l right →
      ∃ left, splitArrows line = [left, right] ∧ words left = l.map String.toList := by
    intro l right h
    obtain ⟨left, rfl, hlayout⟩ := h.layout
    have hleft : ¬ HasArrow left := by
      rintro ⟨xs, ys, rfl⟩
      exact h.not_two ⟨xs, ys, right, rfl⟩
    have hright : ¬ HasArrow right := by
      rintro ⟨xs, ys, rfl⟩
      exact h.not_two ⟨left, xs, ys, by simp⟩
    exact ⟨left, splitArrows_eq_pair_iff.2 ⟨rfl, hleft, hright⟩, hlayout.words_eq h.isWord⟩
  obtain ⟨left, hsplit, hwords⟩ := hpieces h
  obtain ⟨left', hsplit', hwords'⟩ := hpieces h'
  rw [hsplit] at hsplit'
  obtain ⟨rfl, -⟩ := List.cons.inj hsplit'
  rw [hwords] at hwords'
  exact List.map_injective_iff.2 (fun _ _ => String.toList_injective) hwords'

/-- A line has one defect only. -/
theorem Defect.IsOf.unique {d d' : Defect} (h : d.IsOf line) (h' : d'.IsOf line) : d = d' := by
  cases d with
  | extraArrow =>
    cases d' with
    | extraArrow => rfl
    | tooFewWords count' =>
      obtain ⟨-, l', right', hone', -⟩ := h'
      exact absurd h hone'.not_two
    | noTarget =>
      obtain ⟨l', right', hone', -⟩ := h'
      exact absurd h hone'.not_two
  | tooFewWords count =>
    obtain ⟨hfew, l, right, hone, rfl⟩ := h
    cases d' with
    | extraArrow => exact absurd h' hone.not_two
    | tooFewWords count' =>
      obtain ⟨-, l', right', hone', rfl⟩ := h'
      rw [hone.unique hone']
    | noTarget =>
      obtain ⟨l', right', hone', hthree, -⟩ := h'
      rw [hone.unique hone'] at hfew
      omega
  | noTarget =>
    obtain ⟨l, right, hone, hthree, -⟩ := h
    cases d' with
    | extraArrow => exact absurd h' hone.not_two
    | tooFewWords count' =>
      obtain ⟨hfew, l', right', hone', rfl⟩ := h'
      rw [hone.unique hone'] at hthree
      omega
    | noTarget => rfl

end Arrows

/-! ## What is read from the line -/

section Line

variable {line left right : List Char} {l r : List String}

/-- Without its margin a text with several words begins with the first of them and white space. -/
theorem exists_trimStart_eq {w w' : String} {ws : List String} (h : LaysOut (w :: w' :: ws) left)
    (hw : IsWord w.toList) : ∃ c rest, isSpace c = true ∧ trimStart left = w.toList ++ c :: rest := by
  obtain ⟨margin, rest, rfl, hmargin, hrest⟩ := h
  cases hrest with
  | @cons w ws gap rest hgap hsep hrest =>
    obtain ⟨c, gap, rfl⟩ := List.exists_cons_of_ne_nil (hsep (by simp))
    refine ⟨c, gap ++ rest, hgap.isSpace c List.mem_cons_self, ?_⟩
    rw [trimStart, List.dropWhile_append_of_pos hmargin.isSpace]
    exact trimStart_eq_self (hw.noLeadingSpace.append hw.1 _)

/-- Words of a rule are read as the rule that they say, however they are laid out. -/
theorem ShowsRule.exists_entry (h : ShowsRule l r line) :
    ∃ words, Entry.ofText (Text.trim line) = .rule words ∧
      ∀ epsilon, WordsSay epsilon l r (words.toRule epsilon) := by
  obtain ⟨hthree, hone, hslot, hfirst, left, right, rfl, hleft, hright⟩ := h
  obtain ⟨hslotl, hslotr⟩ := List.forall_mem_append.1 hslot
  obtain ⟨source, read, pop, more, rfl⟩ := exists_eq_cons_of_three_le hthree
  obtain ⟨target, rest, rfl⟩ := List.exists_cons_of_length_pos hone
  have hd : ¬ StartsDeclaration (Text.trim (left ++ arrow ++ right)) := by
    obtain ⟨c, tail, hc, htrim⟩ := exists_trimStart_eq hleft (hslotl source List.mem_cons_self).1
    rw [trim_append_arrow, htrim, List.append_assoc, List.append_assoc, List.cons_append]
    exact fun hstarts => hfirst source rfl (startsDeclaration_append_space hc hstarts)
  have hwordsl : words (trimStart left) = (source :: read :: pop :: more).map String.toList := by
    rw [words_trimStart, hleft.words_eq fun w hw => (hslotl w hw).1]
  have hwordsr : words (trimEnd right) = (target :: rest).map String.toList := by
    rw [words_trimEnd, hright.words_eq fun w hw => (hslotr w hw).1]
  have harrowl : ¬ HasArrow (trimStart left) := fun harrow =>
    not_hasArrow_of_laysOut hleft (fun w hw => (hslotl w hw).2)
      (harrow.of_isInfix (List.dropWhile_suffix isSpace).isInfix)
  have harrowr : ¬ HasArrow (trimEnd right) := fun harrow =>
    not_hasArrow_of_laysOut hright (fun w hw => (hslotr w hw).2)
      (harrow.of_isInfix (trimEnd_isPrefix right).isInfix)
  refine ⟨⟨source, read, pop, target, rest.head?⟩, Entry.ofText_eq_rule_iff_words.2 ⟨hd, _, _,
    trim_append_arrow left right, harrowl, harrowr, ⟨_, hwordsl⟩, _, hwordsr, ?_⟩, ?_⟩
  · cases rest <;> simp
  · intro epsilon
    refine ⟨rfl, ⟨read, rfl, rfl⟩, ⟨pop, rfl, rfl⟩, rfl, ?_⟩
    cases rest <;> rfl

theorem newline_not_mem_sides (h : '\n' ∉ left ++ arrow ++ right) : '\n' ∉ left ∧ '\n' ∉ right := by
  rw [List.mem_append, not_or, List.mem_append, not_or] at h
  exact ⟨h.1.1, h.2⟩

/-- A line that holds a rule shows the words of one. -/
theorem exists_showsRule (hnewline : '\n' ∉ line) (hd : ¬ StartsDeclaration (Text.trim line))
    (h : HoldsRule (Text.trim line)) : ∃ l r, ShowsRule l r line := by
  obtain ⟨left, right, htrim, hleft, hright, hthree, hone⟩ := h
  obtain ⟨lead, trail, hline, hlead, htrail⟩ := exists_eq_append_arrow_of_trim htrim
  obtain ⟨hnewlinel, hnewliner⟩ := newline_not_mem_sides (hline ▸ hnewline)
  obtain ⟨l, hlayoutl, -, hwordsl⟩ := exists_laysOut_words hnewlinel
  obtain ⟨r, hlayoutr, -, hwordsr⟩ := exists_laysOut_words hnewliner
  rw [words_space_append hlead] at hwordsl
  rw [words_append_space htrail] at hwordsr
  have hbegins : left <+: Text.trim line := by
    rw [htrim, List.append_assoc]
    exact List.prefix_append _ _
  refine ⟨l, r, ?_, ?_, ?_, ?_, _, _, hline, hlayoutl, hlayoutr⟩
  · simpa [hwordsl] using hthree
  · simpa [hwordsr] using hone
  · rw [List.forall_mem_append]
    refine ⟨fun w hw => isSlot_of_mem_words hleft ?_, fun w hw => isSlot_of_mem_words hright ?_⟩
    · rw [hwordsl]
      exact List.mem_map_of_mem hw
    · rw [hwordsr]
      exact List.mem_map_of_mem hw
  · -- the trimmed line begins with its first word
    intro w hw
    obtain ⟨ws, rfl⟩ : ∃ ws, l = w :: ws := by
      cases l with
      | nil => simp at hw
      | cons w' ws => exact ⟨ws, by simpa using hw⟩
    have hw : w.toList <+: left :=
      prefix_of_words_eq_cons hwordsl ((noLeadingSpace_trim line).of_isPrefix hbegins)
    rintro ⟨k, hk⟩
    exact hd ⟨k, hk.trans (hw.trans hbegins)⟩

/-- A line with an arrow that shows no words of a rule is read as malformed, with the defect that it has. -/
theorem exists_isOf (hnewline : '\n' ∉ line) (hd : ¬ StartsDeclaration (Text.trim line))
    (harrow : HasArrow line) (hshows : ∀ l r, ¬ ShowsRule l r line) :
    ∃ defect span, Entry.ofText (Text.trim line) = .malformed defect span ∧ defect.IsOf line := by
  have hholds : ¬ HoldsRule (Text.trim line) := by
    intro h
    obtain ⟨l, r, hrule⟩ := exists_showsRule hnewline hd h
    exact hshows l r hrule
  obtain ⟨defect, span, hentry⟩ :=
    Entry.exists_malformed_iff.2 ⟨⟨hd, hasArrow_trim_iff.2 harrow⟩, hholds⟩
  refine ⟨defect, span, hentry, ?_⟩
  obtain ⟨-, left, right, htrim, hleft, hcases⟩ := Entry.malformed_cases hentry
  obtain ⟨lead, trail, rfl, hlead, htrail⟩ := exists_eq_append_arrow_of_trim htrim
  obtain ⟨hnewlinel, hnewliner⟩ := newline_not_mem_sides hnewline
  obtain ⟨l, hlayout, hl, hwords⟩ := exists_laysOut_words hnewlinel
  rw [words_space_append hlead] at hwords
  have hlength : (words left).length = l.length := by rw [hwords, List.length_map]
  have hone : ¬ HasArrow right → HasOneArrow (lead ++ left ++ arrow ++ (right ++ trail)) l
      (right ++ trail) := fun hright =>
    ⟨not_hasTwoArrows (not_hasArrow_margin_append hlead hleft)
      (not_hasArrow_append_margin htrail hright), hl, _, rfl, hlayout⟩
  rcases hcases with ⟨mid, post, rfl, -, rfl, -⟩ | ⟨hright, hnone, rfl, -⟩ |
    ⟨hright, -, hfew, rfl, -⟩ | ⟨hright, hthree, hempty, rfl, -⟩
  · exact ⟨lead ++ left, mid, post ++ trail, by simp⟩
  · exact ⟨by decide, l, _, hone hright, by rw [← hlength, hnone, List.length_nil]⟩
  · exact ⟨hfew, l, _, hone hright, hlength.symm⟩
  · obtain ⟨r, hlayoutr, -, hwordsr⟩ := exists_laysOut_words hnewliner
    rw [words_append_space htrail, hempty] at hwordsr
    obtain rfl : r = [] := List.map_eq_nil_iff.1 hwordsr.symm
    exact ⟨l, _, hone hright, hlength ▸ hthree, hlayoutr⟩

end Line

end PDA.Format
