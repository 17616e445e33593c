import PDA.Format.RuleLine
import PDA.Proofs.Text.Split
import Mathlib.Data.List.Infix

/-!
# Arrows and the words of a rule

Splitting at arrows loses nothing and leaves no arrow in a piece (`splitArrows_pieces`), and a text
that was put together from pieces without arrows falls into them again. With that the words of a
rule are exactly those that can be written in a line and read back.
-/

namespace PDA.Format

open Text

/-- The text has an arrow in it. -/
def HasArrow (cs : List Char) : Prop := arrow <:+: cs

instance (cs : List Char) : Decidable (HasArrow cs) := inferInstanceAs (Decidable (_ <:+: _))

theorem HasArrow.of_isInfix {xs cs : List Char} (h : HasArrow xs) (hxs : xs <:+: cs) : HasArrow cs :=
  List.IsInfix.trans h hxs

@[simp] theorem not_hasArrow_nil : ¬ HasArrow [] := by decide

theorem arrow_isPrefix_cons_iff {c : Char} {cs : List Char} :
    arrow <+: c :: cs ↔ c = '-' ∧ cs.head? = some '>' := by
  cases cs with
  | nil => simp [arrow]
  | cons d cs => simp [arrow, List.cons_prefix_cons, eq_comm]

/-- An arrow begins with the first character or stands in the rest. -/
theorem hasArrow_cons_iff {c : Char} {cs : List Char} :
    HasArrow (c :: cs) ↔ (c = '-' ∧ cs.head? = some '>') ∨ HasArrow cs := by
  rw [HasArrow, List.infix_cons_iff, arrow_isPrefix_cons_iff, HasArrow]

/-- An arrow does not reach over a character that is no part of one. -/
theorem hasArrow_append_cons_iff {c : Char} (hminus : c ≠ '-') (hgt : c ≠ '>')
    (xs ys : List Char) : HasArrow (xs ++ c :: ys) ↔ HasArrow xs ∨ HasArrow ys := by
  induction xs with
  | nil => simp [hasArrow_cons_iff, hminus]
  | cons x xs ih =>
    rw [List.cons_append, hasArrow_cons_iff, hasArrow_cons_iff, ih, or_assoc]
    cases xs with
    | nil => simp [hgt]
    | cons y xs => simp

/-- There is no arrow in a margin, nor one that begins there. -/
theorem not_hasArrow_margin_append {margin left : List Char} (hmargin : ∀ c ∈ margin, isSpace c = true)
    (h : ¬ HasArrow left) : ¬ HasArrow (margin ++ left) := by
  induction margin with
  | nil => exact h
  | cons c margin ih =>
    obtain ⟨hc, hmargin⟩ := List.forall_mem_cons.1 hmargin
    rw [List.cons_append, hasArrow_cons_iff]
    rintro (⟨rfl, -⟩ | harrow)
    · exact absurd hc (by decide)
    · exact ih hmargin harrow

/-- White space behind a text ends its arrows. -/
theorem not_hasArrow_append_of_head? {xs ys : List Char} (hxs : ¬ HasArrow xs) (hys : ¬ HasArrow ys)
    (hhead : ∀ c ∈ ys.head?, isSpace c = true) : ¬ HasArrow (xs ++ ys) := by
  cases ys with
  | nil => rwa [List.append_nil]
  | cons c ys =>
    have hc : isSpace c = true := hhead c rfl
    have hminus : c ≠ '-' := by
      rintro rfl
      exact absurd hc (by decide)
    have hgt : c ≠ '>' := by
      rintro rfl
      exact absurd hc (by decide)
    rw [hasArrow_append_cons_iff hminus hgt, not_or]
    exact ⟨hxs, fun h => hys (h.of_isInfix (List.suffix_cons c ys).isInfix)⟩

theorem not_hasArrow_append_margin {margin left : List Char} (hmargin : ∀ c ∈ margin, isSpace c = true)
    (h : ¬ HasArrow left) : ¬ HasArrow (left ++ margin) := by
  have hnone : ¬ HasArrow margin := by
    simpa using not_hasArrow_margin_append hmargin not_hasArrow_nil
  exact not_hasArrow_append_of_head? h hnone fun c hc => hmargin c (List.mem_of_head? hc)

/-! ## Splitting at arrows -/

/-- No arrow begins with `c`, so `c` belongs to the first piece. -/
theorem splitArrows_cons {c : Char} {cs : List Char} (h : ¬ (c = '-' ∧ cs.head? = some '>')) :
    splitArrows (c :: cs) = (splitArrows cs).modifyHead (c :: ·) := by
  rw [splitArrows]
  rintro cs' rfl rfl
  exact h ⟨rfl, rfl⟩

/-- The pieces make up the text, and none of them has an arrow. -/
theorem splitArrows_pieces (cs : List Char) :
    ∃ first rest, splitArrows cs = first :: rest ∧ arrow.intercalate (first :: rest) = cs ∧
      ∀ piece ∈ first :: rest, ¬ HasArrow piece := by
  fun_induction splitArrows cs with
  | case1 => exact ⟨[], [], by simp⟩
  | case2 cs ih =>
    obtain ⟨first, rest, hsplit, hjoin, hpieces⟩ := ih
    refine ⟨[], first :: rest, by rw [hsplit], ?_, ?_⟩
    · rw [List.intercalate_cons_cons, hjoin]
      rfl
    · exact List.forall_mem_cons.2 ⟨not_hasArrow_nil, hpieces⟩
  | case3 c cs hc ih =>
    obtain ⟨first, rest, hsplit, hjoin, hpieces⟩ := ih
    obtain ⟨hfirst, hrest⟩ := List.forall_mem_cons.1 hpieces
    refine ⟨c :: first, rest, by rw [hsplit]; rfl, ?_, ?_⟩
    · rw [List.intercalate_cons_cons_left, hjoin]
    · refine List.forall_mem_cons.2 ⟨?_, hrest⟩
      rw [hasArrow_cons_iff]
      rintro (⟨rfl, hhead⟩ | harrow)
      · -- the rest of the text begins as its first piece does
        cases first with
        | nil => simp at hhead
        | cons d first =>
          obtain rfl : d = '>' := by simpa using hhead
          rw [List.intercalate_cons_cons_left] at hjoin
          exact hc _ rfl hjoin.symm
      · exact hfirst harrow

theorem splitArrows_of_not_hasArrow {cs : List Char} (h : ¬ HasArrow cs) :
    splitArrows cs = [cs] := by
  induction cs with
  | nil => rfl
  | cons c cs ih =>
    rw [hasArrow_cons_iff, not_or] at h
    rw [splitArrows_cons h.1, ih h.2]
    rfl

/-- A minus right before an arrow does not make one with it. -/
theorem not_head_arrow {c : Char} {left : List Char} (h : ¬ (c = '-' ∧ left.head? = some '>'))
    (right : List Char) : ¬ (c = '-' ∧ (left ++ arrow ++ right).head? = some '>') := by
  cases left with
  | nil => simp [arrow]
  | cons d left => exact h

theorem splitArrows_ne_nil (cs : List Char) : splitArrows cs ≠ [] := by
  obtain ⟨first, rest, hsplit, -, -⟩ := splitArrows_pieces cs
  simp [hsplit]

/-- An arrow parts what is before it from what is behind it, whatever stands there. -/
theorem splitArrows_append (left right : List Char) :
    splitArrows (left ++ arrow ++ right) = splitArrows left ++ splitArrows right := by
  fun_induction splitArrows left with
  | case1 => rfl
  | case2 cs ih => exact congrArg ([] :: ·) ih
  | case3 c cs hc ih =>
    have hnot : ¬ (c = '-' ∧ cs.head? = some '>') := by
      rintro ⟨rfl, hhead⟩
      obtain ⟨cs, rfl⟩ := List.head?_eq_some_iff.1 hhead
      exact hc cs rfl rfl
    obtain ⟨piece, pieces, hsplit⟩ := List.exists_cons_of_ne_nil (splitArrows_ne_nil cs)
    rw [List.cons_append, List.cons_append, splitArrows_cons (not_head_arrow hnot right),
      ih, hsplit]
    rfl

/-- The first piece ends where the first arrow begins. -/
theorem splitArrows_append_arrow {left : List Char} (h : ¬ HasArrow left) (right : List Char) :
    splitArrows (left ++ arrow ++ right) = left :: splitArrows right := by
  rw [splitArrows_append, splitArrows_of_not_hasArrow h, List.singleton_append]

/-- A text with an arrow has a first one. -/
theorem HasArrow.exists_first {cs : List Char} (h : HasArrow cs) :
    ∃ left rest, cs = left ++ arrow ++ rest ∧ ¬ HasArrow left := by
  obtain ⟨first, rest, -, hjoin, hpieces⟩ := splitArrows_pieces cs
  have hfirst : ¬ HasArrow first := hpieces first List.mem_cons_self
  cases rest with
  | nil =>
    rw [List.intercalate_singleton] at hjoin
    exact absurd (hjoin ▸ h) hfirst
  | cons piece rest =>
    rw [List.intercalate_cons_cons] at hjoin
    exact ⟨first, _, hjoin.symm, hfirst⟩

theorem hasArrow_append_arrow (left rest : List Char) : HasArrow (left ++ arrow ++ rest) :=
  ⟨left, rest, rfl⟩

/-- There is one arrow exactly if there are two pieces. -/
theorem splitArrows_eq_pair_iff {cs left right : List Char} :
    splitArrows cs = [left, right] ↔
      cs = left ++ arrow ++ right ∧ ¬ HasArrow left ∧ ¬ HasArrow right := by
  constructor
  · intro h
    obtain ⟨first, rest, hsplit, hjoin, hpieces⟩ := splitArrows_pieces cs
    rw [h] at hsplit
    rw [← hsplit] at hjoin hpieces
    exact ⟨by simpa using hjoin.symm, hpieces left (by simp), hpieces right (by simp)⟩
  · rintro ⟨rfl, hleft, hright⟩
    rw [splitArrows_append_arrow hleft, splitArrows_of_not_hasArrow hright]

/-! ## Words of a rule -/

/-- A text that can be a word of a rule. -/
def IsSlot (cs : List Char) : Prop := IsWord cs ∧ ¬ HasArrow cs

instance (cs : List Char) : Decidable (IsSlot cs) := inferInstanceAs (Decidable (_ ∧ _))

/-- The words of a piece without arrows can stand in a rule. -/
theorem isSlot_of_mem_words {piece w : List Char} (hpiece : ¬ HasArrow piece)
    (h : w ∈ words piece) : IsSlot w :=
  ⟨isWord_of_mem_words h, fun hw => hpiece (hw.of_isInfix (infix_of_mem_words h))⟩

theorem not_hasArrow_append_space {xs ys : List Char} (hxs : ¬ HasArrow xs) (hys : ¬ HasArrow ys) :
    ¬ HasArrow (xs ++ ' ' :: ys) := by
  rw [hasArrow_append_cons_iff (by decide) (by decide), not_or]
  exact ⟨hxs, hys⟩

theorem exists_eq_cons_of_three_le {α : Type} {ws : List α} (h : 3 ≤ ws.length) :
    ∃ source read pop rest, ws = source :: read :: pop :: rest := by
  match ws, h with
  | source :: read :: pop :: rest, _ => exact ⟨source, read, pop, rest, rfl⟩

namespace RuleLine

variable {rl : RuleLine}

/-- Each word can stand in a rule. -/
structure WellFormed (rl : RuleLine) : Prop where
  source : IsSlot rl.source.toList
  read : IsSlot rl.read.toList
  pop : IsSlot rl.pop.toList
  target : IsSlot rl.target.toList
  push : ∀ word ∈ rl.push, IsSlot word.toList

/-- The pieces of a line hold a rule exactly if there is one arrow, with three words before it and
one after it. -/
theorem ofPieces_eq_ok_iff {left right : List Char} {more : List (List Char)} :
    ofPieces left right more = .ok rl ↔ more = [] ∧
      (∃ ws, words left = rl.source.toList :: rl.read.toList :: rl.pop.toList :: ws) ∧
      ∃ ws, words right = rl.target.toList :: ws ∧ rl.push = ws.head?.map String.ofList := by
  obtain ⟨source, read, pop, target, push⟩ := rl
  unfold ofPieces
  split
  · simp
  · rename_i source' read' pop' ws target' ws' hleft hright
    simp only [hleft, hright, Except.ok.injEq, mk.injEq, List.cons.injEq, true_and]
    constructor
    · rintro ⟨rfl, rfl, rfl, rfl, rfl⟩
      simp
    · rintro ⟨⟨ws₁, rfl, rfl, rfl, -⟩, ws₂, ⟨rfl, rfl⟩, rfl⟩
      simp
  · rename_i hright
    simp [hright]
  · rename_i hleft
    simp [hleft]
  · rename_i hrule hfew
    constructor
    · simp
    · rintro ⟨-, ⟨ws, hws⟩, ws', hws', -⟩
      exact (hrule _ _ _ _ _ _ hws hws').elim

/-- What is wrong with the pieces of a line is looked for in a fixed order: more than one arrow, too
few words before it, no word after it. -/
theorem ofPieces_cases (left right : List Char) (more : List (List Char)) :
    (more ≠ [] ∧ ofPieces left right more = .error (.extraArrow,
      ⟨byteLength left + byteLength arrow + byteLength right,
        byteLength left + byteLength arrow + byteLength right + byteLength arrow⟩)) ∨
    (more = [] ∧ words left = [] ∧ ofPieces left right more = .error (.tooFewWords 0,
      ⟨byteLength left, byteLength left + byteLength arrow⟩)) ∨
    (more = [] ∧ words left ≠ [] ∧ (words left).length < 3 ∧ ofPieces left right more =
      .error (.tooFewWords (words left).length, ⟨0, byteLength left + byteLength arrow⟩)) ∨
    (more = [] ∧ 3 ≤ (words left).length ∧ words right = [] ∧ ofPieces left right more =
      .error (.noTarget, ⟨byteLength left, byteLength left + byteLength arrow⟩)) ∨
    (more = [] ∧ 3 ≤ (words left).length ∧ words right ≠ [] ∧
      ∃ rl, ofPieces left right more = .ok rl) := by
  unfold ofPieces
  split
  · exact .inl ⟨by simp, rfl⟩
  · rename_i hleft hright
    exact .inr (.inr (.inr (.inr ⟨rfl, by simp [hleft], by simp [hright], _, rfl⟩)))
  · rename_i hleft hright
    exact .inr (.inr (.inr (.inl ⟨rfl, by simp [hleft], hright, rfl⟩)))
  · rename_i hleft
    exact .inr (.inl ⟨rfl, hleft, rfl⟩)
  · rename_i hne hrule hnoTarget
    have hfew : (words left).length < 3 := by
      by_contra hlength
      obtain ⟨source, read, pop, ws, hleft⟩ := exists_eq_cons_of_three_le (not_lt.1 hlength)
      cases hright : words right with
      | nil => exact hnoTarget _ _ _ _ hleft hright
      | cons target ws' => exact hrule _ _ _ _ _ _ hleft hright
    exact .inr (.inr (.inl ⟨rfl, hne, hfew, rfl⟩))

/-- The words that are read from pieces without arrows can stand in a rule. -/
theorem wellFormed_of_ofPieces {left right : List Char} {more : List (List Char)}
    (h : ofPieces left right more = .ok rl) (hleft : ¬ HasArrow left) (hright : ¬ HasArrow right) :
    rl.WellFormed := by
  obtain ⟨-, ⟨ws, hws⟩, ws', hws', hpush⟩ := ofPieces_eq_ok_iff.1 h
  have hl : ∀ w ∈ words left, IsSlot w := fun w hw => isSlot_of_mem_words hleft hw
  have hr : ∀ w ∈ words right, IsSlot w := fun w hw => isSlot_of_mem_words hright hw
  rw [hws] at hl
  rw [hws'] at hr
  refine ⟨hl _ (by simp), hl _ (by simp), hl _ (by simp), hr _ (by simp), ?_⟩
  intro word hword
  rw [hpush] at hword
  obtain ⟨w, hw, rfl⟩ := Option.map_eq_some_iff.1 hword
  rw [String.toList_ofList]
  exact hr w (List.mem_cons_of_mem _ (List.mem_of_head? hw))

/-! ### Writing the words -/

/-- What is written before the arrow. -/
def left (rl : RuleLine) : List Char :=
  rl.source.toList ++ ' ' :: (rl.read.toList ++ ' ' :: (rl.pop.toList ++ [' ']))

/-- What is written after the arrow. -/
def right (rl : RuleLine) : List Char :=
  ' ' :: (rl.target.toList ++ rl.push.elim [] fun word => ' ' :: word.toList)

/-- The words as a line, with one blank between neighbours. -/
def text (rl : RuleLine) : List Char := rl.left ++ arrow ++ rl.right

namespace WellFormed

/-- The left side is read as the three words it was written from. -/
theorem words_left (h : rl.WellFormed) :
    words rl.left = [rl.source.toList, rl.read.toList, rl.pop.toList] := by
  have hspace : isSpace ' ' = true := by decide
  rw [left, words_cons_word h.source.1 hspace, words_cons_word h.read.1 hspace,
    words_cons_word h.pop.1 hspace, words_nil]

/-- The right side is read as the one or two words it was written from. -/
theorem words_right (h : rl.WellFormed) :
    words rl.right = rl.target.toList :: rl.push.toList.map String.toList := by
  have hspace : isSpace ' ' = true := by decide
  rw [right, words_cons_space hspace]
  cases hp : rl.push with
  | none => simp [words_of_isWord h.target.1]
  | some word =>
    have hword : IsSlot word.toList := h.push word hp
    simp [words_cons_word h.target.1 hspace, words_of_isWord hword.1]

theorem not_hasArrow_left (h : rl.WellFormed) : ¬ HasArrow rl.left :=
  not_hasArrow_append_space h.source.2 <| not_hasArrow_append_space h.read.2 <|
    not_hasArrow_append_space h.pop.2 not_hasArrow_nil

theorem not_hasArrow_right (h : rl.WellFormed) : ¬ HasArrow rl.right := by
  refine not_hasArrow_append_space not_hasArrow_nil ?_
  cases hp : rl.push with
  | none => simpa using h.target.2
  | some word => exact not_hasArrow_append_space h.target.2 (h.push word hp).2

/-- The only arrow of a rule that is written is the one between its sides. -/
theorem splitArrows_text (h : rl.WellFormed) : splitArrows rl.text = [rl.left, rl.right] := by
  rw [text, splitArrows_append_arrow h.not_hasArrow_left,
    splitArrows_of_not_hasArrow h.not_hasArrow_right]

/-- Words that can stand in a rule are read as they were written. -/
theorem ofPieces_left_right (h : rl.WellFormed) : ofPieces rl.left rl.right [] = .ok rl := by
  refine ofPieces_eq_ok_iff.2 ⟨rfl, ⟨[], h.words_left⟩, _, h.words_right, ?_⟩
  cases rl.push <;> simp

theorem newline_not_mem_text (h : rl.WellFormed) : '\n' ∉ rl.text := by
  have hword : ∀ {w : String}, IsSlot w.toList → '\n' ∉ w.toList := fun hw hmem =>
    absurd (hw.1.2 _ hmem) (by decide)
  have hpush : '\n' ∉ rl.push.elim [] fun word => ' ' :: word.toList := by
    cases hp : rl.push with
    | none => simp
    | some word => simpa using hword (h.push word hp)
  simp [text, left, right, arrow, hword h.source, hword h.read, hword h.pop, hword h.target, hpush]

/-- There is no white space at either end of the line. -/
theorem trim_text (h : rl.WellFormed) : trim rl.text = rl.text := by
  rw [trim_eq_self_iff]
  constructor
  · rw [text, List.append_assoc, left, List.append_assoc]
    exact h.source.1.noLeadingSpace.append h.source.1.1 _
  · have htarget : NoTrailingSpace rl.target.toList := h.target.1.noTrailingSpace
    have hright : NoTrailingSpace
        (rl.target.toList ++ rl.push.elim [] fun word => ' ' :: word.toList) := by
      cases hp : rl.push with
      | none => simpa using htarget
      | some word =>
        have hword : IsWord word.toList := (h.push word hp).1
        rw [Option.elim_some, ← List.singleton_append]
        exact (hword.noTrailingSpace.append hword.1 _).append (by simp) _
    rw [text, right, ← List.singleton_append (x := ' ')]
    exact (hright.append (by simp [h.target.1.1]) _).append (by simp) _

end WellFormed

end RuleLine

end PDA.Format
