import PDA.Text.Split
import Mathlib.Data.List.DropRight
import Mathlib.Data.List.TakeWhile

/-!
# Lines, words and margins

What is in a piece of a text, and which pieces a text that was put together falls into again. Lines
come back from `lines_flatMap`, words from `words_cons_word`, and the margins of a text are kept by
`trim` exactly if they hold no white space (`trim_eq_self_iff`).
-/

namespace PDA.Text

/-! ## Pieces of a split list -/

section Pieces

variable {α : Type} {p : α → Bool} {xs ys : List α}

/-- The first piece is where the list begins, the other ones stand further back, and no piece holds
a separator. -/
theorem splitOnP_pieces (p : α → Bool) (xs : List α) :
    ∃ first rest, xs.splitOnP p = first :: rest ∧ first <+: xs ∧ (∀ ys ∈ rest, ys <:+: xs) ∧
      ∀ ys ∈ first :: rest, ∀ y ∈ ys, p y = false := by
  induction xs with
  | nil => exact ⟨[], [], by simp⟩
  | cons x xs ih =>
    obtain ⟨first, rest, hsplit, hfirst, hrest, hp⟩ := ih
    have hback : ∀ ys ∈ rest, ys <:+: x :: xs := fun ys hys =>
      List.infix_cons (hrest ys hys)
    rw [List.splitOnP_cons_eq_if_modifyHead, hsplit]
    by_cases hx : p x = true
    · rw [if_pos hx]
      refine ⟨[], first :: rest, rfl, List.nil_prefix, ?_, ?_⟩
      · exact List.forall_mem_cons.2 ⟨List.infix_cons hfirst.isInfix, hback⟩
      · exact List.forall_mem_cons.2 ⟨by simp, hp⟩
    · rw [if_neg hx]
      obtain ⟨hpf, hpr⟩ := List.forall_mem_cons.1 hp
      refine ⟨x :: first, rest, rfl, List.cons_prefix_cons.2 ⟨rfl, hfirst⟩, hback, ?_⟩
      exact List.forall_mem_cons.2 ⟨List.forall_mem_cons.2 ⟨by simpa using hx, hpf⟩, hpr⟩

theorem not_of_mem_splitOnP (h : ys ∈ xs.splitOnP p) : ∀ y ∈ ys, p y = false := by
  obtain ⟨first, rest, hsplit, -, -, hp⟩ := splitOnP_pieces p xs
  exact hp ys (hsplit ▸ h)

/-- Every piece stands somewhere in the list. -/
theorem infix_of_mem_splitOnP (h : ys ∈ xs.splitOnP p) : ys <:+: xs := by
  obtain ⟨first, rest, hsplit, hfirst, hrest, -⟩ := splitOnP_pieces p xs
  rw [hsplit] at h
  rcases List.mem_cons.1 h with rfl | h
  · exact hfirst.isInfix
  · exact hrest ys h

theorem infix_of_mem_splitOn [BEq α] {a : α} (h : ys ∈ xs.splitOn a) : ys <:+: xs := by
  rw [List.splitOn_eq_splitOnP] at h
  exact infix_of_mem_splitOnP h

/-- No piece has the separator. -/
theorem not_mem_of_mem_splitOn [BEq α] [LawfulBEq α] {a : α} (h : ys ∈ xs.splitOn a) :
    a ∉ ys := by
  rw [List.splitOn_eq_splitOnP] at h
  intro ha
  simpa using not_of_mem_splitOnP h a ha

/-- The first piece ends at the first separator. -/
theorem head?_splitOn [BEq α] [LawfulBEq α] [DecidableEq α] (a : α) (xs : List α) :
    (xs.splitOn a).head? = some (xs.takeWhile (· ≠ a)) := by
  induction xs with
  | nil => simp
  | cons x xs ih =>
    rw [List.splitOn_cons_eq_if_modifyHead]
    by_cases hx : x = a
    · simp [hx]
    · simp [hx, ih]

theorem not_mem_intercalate {a b : α} {ls : List (List α)} (hab : b ≠ a) (h : ∀ l ∈ ls, b ∉ l) :
    b ∉ [a].intercalate ls := by
  induction ls with
  | nil => simp
  | cons l ls ih =>
    obtain ⟨hl, hls⟩ := List.forall_mem_cons.1 h
    cases ls with
    | nil => simpa using hl
    | cons l' ls =>
      rw [List.intercalate_cons_cons]
      simp [hl, hab, ih hls]

end Pieces

/-! ## Lines -/

theorem newline_not_mem_of_mem_lines {cs line : List Char} (h : line ∈ lines cs) : '\n' ∉ line :=
  not_mem_of_mem_splitOn h

/-- Lines that are each ended by a line feed come back, with an empty last line. -/
theorem lines_flatMap {ls : List (List Char)} (h : ∀ l ∈ ls, '\n' ∉ l) :
    lines (ls.flatMap (· ++ ['\n'])) = ls ++ [[]] := by
  induction ls with
  | nil => rfl
  | cons l ls ih =>
    have hl : '\n' ∉ l := h l List.mem_cons_self
    have hls : lines (ls.flatMap (· ++ ['\n'])) = ls ++ [[]] :=
      ih fun l' hl' => h l' (List.mem_cons_of_mem _ hl')
    rw [List.flatMap_cons, List.append_assoc, List.singleton_append, lines,
      List.splitOn_append_cons_self_of_not_mem hl]
    rw [lines] at hls
    rw [hls, List.cons_append]

/-! ## Words -/

/-- A text without white space that is not empty. -/
def IsWord (cs : List Char) : Prop := cs ≠ [] ∧ ∀ c ∈ cs, isSpace c = false

instance (cs : List Char) : Decidable (IsWord cs) :=
  decidable_of_iff (cs ≠ [] ∧ cs.all (!isSpace ·)) (by simp [IsWord])

@[simp] theorem words_nil : words [] = [] := by simp [words]

/-- A word is not empty and has no white space. -/
theorem isWord_of_mem_words {cs w : List Char} (h : w ∈ words cs) : IsWord w := by
  obtain ⟨hw, hne⟩ := List.mem_filter.1 h
  exact ⟨by simpa using hne, not_of_mem_splitOnP hw⟩

theorem infix_of_mem_words {cs w : List Char} (h : w ∈ words cs) : w <:+: cs :=
  infix_of_mem_splitOnP (List.mem_filter.1 h).1

theorem words_of_isWord {w : List Char} (h : IsWord w) : words w = [w] := by
  rw [words, List.splitOnP_eq_singleton h.2]
  simp [h.1]

/-- White space between two texts separates their words. -/
theorem words_append_cons {c : Char} (hc : isSpace c = true) (xs ys : List Char) :
    words (xs ++ c :: ys) = words xs ++ words ys := by
  rw [words, List.splitOnP_append_cons xs ys hc, List.filter_append]
  rfl

theorem words_cons_space {c : Char} (hc : isSpace c = true) (cs : List Char) :
    words (c :: cs) = words cs := by
  simpa using words_append_cons hc [] cs

/-- White space ends a word. -/
theorem words_cons_word {w : List Char} {c : Char} (hw : IsWord w) (hc : isSpace c = true)
    (cs : List Char) : words (w ++ c :: cs) = w :: words cs := by
  rw [words_append_cons hc, words_of_isWord hw, List.singleton_append]

/-- A word that white space follows, or nothing at all, is read as a whole. -/
theorem words_append_of_head? {w cs : List Char} (hw : IsWord w)
    (h : ∀ c ∈ cs.head?, isSpace c = true) : words (w ++ cs) = w :: words cs := by
  cases cs with
  | nil => rw [List.append_nil, words_of_isWord hw, words_nil]
  | cons c cs =>
    have hc : isSpace c = true := h c rfl
    rw [words_cons_word hw hc, words_cons_space hc]

theorem words_space_append {gap : List Char} (h : ∀ c ∈ gap, isSpace c = true) (cs : List Char) :
    words (gap ++ cs) = words cs := by
  induction gap with
  | nil => rfl
  | cons c gap ih =>
    obtain ⟨hc, hgap⟩ := List.forall_mem_cons.1 h
    rw [List.cons_append, words_cons_space hc, ih hgap]

theorem words_append_space {gap : List Char} (h : ∀ c ∈ gap, isSpace c = true) (cs : List Char) :
    words (cs ++ gap) = words cs := by
  cases gap with
  | nil => rw [List.append_nil]
  | cons c gap =>
    obtain ⟨hc, hgap⟩ := List.forall_mem_cons.1 h
    have hnone : words gap = [] := by simpa using words_space_append hgap []
    rw [words_append_cons hc, hnone, List.append_nil]

/-- A text that does not begin with white space begins with its first word. -/
theorem prefix_of_words_eq_cons {cs w : List Char} {ws : List (List Char)}
    (h : words cs = w :: ws) (hcs : ∀ c ∈ cs.head?, isSpace c = false) : w <+: cs := by
  obtain ⟨first, rest, hsplit, hfirst, -, -⟩ := splitOnP_pieces isSpace cs
  have hne : first ≠ [] := by
    rintro rfl
    cases cs with
    | nil => simp at h
    | cons c cs =>
      have hc : isSpace c = false := hcs c rfl
      rw [List.splitOnP_cons_eq_if_modifyHead, if_neg (by simp [hc])] at hsplit
      obtain ⟨f, r, hfr⟩ := List.exists_cons_of_ne_nil (List.splitOnP_ne_nil isSpace cs)
      simp [hfr] at hsplit
  have hw : w = first := by
    rw [words, hsplit, List.filter_cons_of_pos (by simpa using hne)] at h
    exact (List.cons.inj h).1.symm
  exact hw ▸ hfirst

/-! ## Margins -/

/-- The text does not begin with white space. -/
def NoLeadingSpace (cs : List Char) : Prop := ∀ c ∈ cs.head?, isSpace c = false

/-- The text does not end in white space. -/
def NoTrailingSpace (cs : List Char) : Prop := ∀ c ∈ cs.getLast?, isSpace c = false

instance (cs : List Char) : Decidable (NoLeadingSpace cs) :=
  match h : cs.head? with
  | none => isTrue (by simp [NoLeadingSpace, h])
  | some c => decidable_of_iff (isSpace c = false) (by simp [NoLeadingSpace, h])

instance (cs : List Char) : Decidable (NoTrailingSpace cs) :=
  match h : cs.getLast? with
  | none => isTrue (by simp [NoTrailingSpace, h])
  | some c => decidable_of_iff (isSpace c = false) (by simp [NoTrailingSpace, h])

theorem trimEnd_eq_rdropWhile (cs : List Char) : trimEnd cs = cs.rdropWhile isSpace := rfl

theorem noLeadingSpace_trimStart (cs : List Char) : NoLeadingSpace (trimStart cs) := by
  intro c hc
  have h := List.head?_dropWhile_not isSpace cs
  rw [trimStart] at hc
  rw [Option.mem_def.1 hc] at h
  simpa using h

theorem noTrailingSpace_trimEnd (cs : List Char) : NoTrailingSpace (trimEnd cs) := by
  intro c hc
  rw [trimEnd, List.getLast?_reverse] at hc
  exact noLeadingSpace_trimStart cs.reverse c hc

theorem trimEnd_isPrefix (cs : List Char) : trimEnd cs <+: cs := List.rdropWhile_prefix isSpace cs

/-- Trimming only takes away at the ends. -/
theorem trim_isInfix (cs : List Char) : trim cs <:+: cs :=
  (trimEnd_isPrefix _).isInfix.trans (List.dropWhile_suffix isSpace).isInfix

theorem NoLeadingSpace.of_isPrefix {xs cs : List Char} (h : NoLeadingSpace cs) (hxs : xs <+: cs) :
    NoLeadingSpace xs := by
  obtain ⟨ys, rfl⟩ := hxs
  cases xs with
  | nil => intro c hc; simp at hc
  | cons x xs => exact h

theorem NoLeadingSpace.append {xs : List Char} (h : NoLeadingSpace xs) (hne : xs ≠ [])
    (ys : List Char) : NoLeadingSpace (xs ++ ys) := by
  rw [NoLeadingSpace, List.head?_append_of_ne_nil xs hne]
  exact h

theorem NoTrailingSpace.append {ys : List Char} (h : NoTrailingSpace ys) (hne : ys ≠ [])
    (xs : List Char) : NoTrailingSpace (xs ++ ys) := by
  rw [NoTrailingSpace, List.getLast?_append_of_ne_nil xs hne]
  exact h

theorem IsWord.noLeadingSpace {cs : List Char} (h : IsWord cs) : NoLeadingSpace cs :=
  fun c hc => h.2 c (List.mem_of_head? hc)

theorem IsWord.noTrailingSpace {cs : List Char} (h : IsWord cs) : NoTrailingSpace cs :=
  fun c hc => h.2 c (List.mem_of_getLast? hc)

theorem noLeadingSpace_trim (cs : List Char) : NoLeadingSpace (trim cs) :=
  (noLeadingSpace_trimStart cs).of_isPrefix (trimEnd_isPrefix _)

theorem noTrailingSpace_trim (cs : List Char) : NoTrailingSpace (trim cs) :=
  noTrailingSpace_trimEnd _

theorem trimStart_eq_self {cs : List Char} (h : NoLeadingSpace cs) : trimStart cs = cs := by
  cases cs with
  | nil => rfl
  | cons c cs => exact List.dropWhile_cons_of_neg (by simp [h c rfl])

theorem trimEnd_eq_self {cs : List Char} (h : NoTrailingSpace cs) : trimEnd cs = cs := by
  rw [trimEnd_eq_rdropWhile, List.rdropWhile_eq_self_iff]
  intro hne
  simp [h _ (List.getLast?_eq_some_getLast hne)]

/-- Trimming the end changes nothing exactly if there is no white space to take away. -/
theorem trimEnd_eq_self_iff {cs : List Char} : trimEnd cs = cs ↔ NoTrailingSpace cs :=
  ⟨fun h => h ▸ noTrailingSpace_trimEnd cs, trimEnd_eq_self⟩

/-- Trimming changes nothing exactly if there is no white space at either end. -/
theorem trim_eq_self_iff {cs : List Char} :
    trim cs = cs ↔ NoLeadingSpace cs ∧ NoTrailingSpace cs := by
  constructor
  · intro h
    exact ⟨h ▸ noLeadingSpace_trim cs, h ▸ noTrailingSpace_trim cs⟩
  · rintro ⟨hstart, hend⟩
    rw [trim, trimStart_eq_self hstart, trimEnd_eq_self hend]

theorem words_trimStart (cs : List Char) : words (trimStart cs) = words cs := by
  have hmargin : ∀ c ∈ cs.takeWhile isSpace, isSpace c = true := fun c hc =>
    List.mem_takeWhile_imp hc
  rw [trimStart, ← words_space_append hmargin, List.takeWhile_append_dropWhile]

theorem words_trimEnd (cs : List Char) : words (trimEnd cs) = words cs := by
  have hmargin : ∀ c ∈ cs.rtakeWhile isSpace, isSpace c = true := fun c hc =>
    List.mem_rtakeWhile_imp hc
  rw [trimEnd_eq_rdropWhile, ← words_append_space hmargin, List.rdropWhile_append_rtakeWhile]

/-- White space at the front of a text is that at the front of what precedes a visible character. -/
theorem trimStart_append_cons {c : Char} (hc : isSpace c = false) (xs ys : List Char) :
    trimStart (xs ++ c :: ys) = trimStart xs ++ c :: ys := by
  induction xs with
  | nil => simp [trimStart, hc]
  | cons x xs ih =>
    by_cases hx : isSpace x = true
    · simpa [trimStart, hx] using ih
    · simp [trimStart, hx]

/-- White space at the end of a text is that at the end of what follows a visible character. -/
theorem trimEnd_append_cons {c : Char} (hc : isSpace c = false) (xs ys : List Char) :
    trimEnd (xs ++ c :: ys) = xs ++ c :: trimEnd ys := by
  have hrev : (xs ++ c :: ys).reverse = ys.reverse ++ c :: xs.reverse := by simp
  rw [trimEnd, hrev, List.dropWhile_append]
  split
  · rename_i hnil
    have hys : ys.reverse.dropWhile isSpace = [] := by simpa using hnil
    rw [List.dropWhile_cons_of_neg (by simp [hc]), trimEnd, hys]
    simp
  · rw [trimEnd]
    simp

theorem trimStart_space_append {margin : List Char} (h : ∀ c ∈ margin, isSpace c = true)
    (cs : List Char) : trimStart (margin ++ cs) = trimStart cs := List.dropWhile_append_of_pos h

theorem trimEnd_append_space {gap : List Char} (h : ∀ c ∈ gap, isSpace c = true) (cs : List Char) :
    trimEnd (cs ++ gap) = trimEnd cs := by
  have hreverse : ∀ c ∈ gap.reverse, isSpace c = true := fun c hc => h c (List.mem_reverse.1 hc)
  rw [trimEnd, List.reverse_append, List.dropWhile_append_of_pos hreverse, trimEnd]

/-- Trimming drops the margins and nothing else. -/
theorem trim_margins {margin cs gap : List Char} (hmargin : ∀ c ∈ margin, isSpace c = true)
    (hgap : ∀ c ∈ gap, isSpace c = true) (hstart : NoLeadingSpace cs) (hend : NoTrailingSpace cs) :
    trim (margin ++ cs ++ gap) = cs := by
  rw [trim, List.append_assoc, trimStart_space_append hmargin]
  by_cases hne : cs = []
  · subst hne
    have hnone : trimStart gap = [] := List.dropWhile_eq_nil_iff.2 hgap
    rw [List.nil_append, hnone]
    rfl
  · rw [trimStart_eq_self (hstart.append hne gap), trimEnd_append_space hgap, trimEnd_eq_self hend]

end PDA.Text
