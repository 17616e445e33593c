import PDA.Proofs.Text.Split

/-!
# Words in any layout

Words stand in a line with white space between neighbours and, as one likes, at the two ends. Every layout
of words is read as these words (`LaysOut.words_eq`), and every line is a layout of some words
(`exists_laysOut`), so that what is read from words can be told without splitting a text.
-/

namespace PDA.Text

/-- White space that does not end the line. -/
def IsGap (gap : List Char) : Prop := ∀ c ∈ gap, isSpace c = true ∧ c ≠ '\n'

instance (gap : List Char) : Decidable (IsGap gap) :=
  decidable_of_iff (gap.all fun c => isSpace c && c != '\n') (by simp [IsGap])

/-- The words in order, each with a gap behind it; only the gap behind the last word may be empty. -/
inductive Spaced : List String → List Char → Prop
  | nil : Spaced [] []
  | cons {w : String} {ws : List String} {gap rest : List Char} (hgap : IsGap gap)
      (hsep : ws ≠ [] → gap ≠ []) (hrest : Spaced ws rest) :
      Spaced (w :: ws) (w.toList ++ (gap ++ rest))

/-- The text is a layout of the words within a line. -/
def LaysOut (ws : List String) (cs : List Char) : Prop :=
  ∃ margin rest, cs = margin ++ rest ∧ IsGap margin ∧ Spaced ws rest

variable {ws : List String} {cs gap rest : List Char}

theorem IsGap.isSpace (h : IsGap gap) : ∀ c ∈ gap, Text.isSpace c = true := fun c hc => (h c hc).1

/-- A word is followed by white space, if by anything. -/
theorem IsGap.head?_append (hgap : IsGap gap) (hsep : ws ≠ [] → gap ≠ []) (hrest : Spaced ws rest) :
    ∀ c ∈ (gap ++ rest).head?, Text.isSpace c = true := by
  cases gap with
  | nil =>
    have hws : ws = [] := by
      by_contra hne
      exact hsep hne rfl
    subst hws
    cases hrest
    simp
  | cons c gap => simpa using hgap.isSpace c List.mem_cons_self

/-! ## Reading a layout -/

theorem Spaced.words_eq (h : Spaced ws cs) (hws : ∀ w ∈ ws, IsWord w.toList) :
    words cs = ws.map String.toList := by
  induction h with
  | nil => rfl
  | @cons w ws gap rest hgap hsep hrest ih =>
    obtain ⟨hw, hws⟩ := List.forall_mem_cons.1 hws
    rw [words_append_of_head? hw (hgap.head?_append hsep hrest), words_space_append hgap.isSpace,
      ih hws, List.map_cons]

/-- A text that lays out some words has these words. -/
theorem LaysOut.words_eq (h : LaysOut ws cs) (hws : ∀ w ∈ ws, IsWord w.toList) :
    words cs = ws.map String.toList := by
  obtain ⟨margin, rest, rfl, hmargin, hrest⟩ := h
  rw [words_space_append hmargin.isSpace, hrest.words_eq hws]

/-! ## Every line is a layout -/

theorem LaysOut.cons_space {c : Char} (hc : isSpace c = true) (hnewline : c ≠ '\n')
    (h : LaysOut ws cs) : LaysOut ws (c :: cs) := by
  obtain ⟨margin, rest, rfl, hmargin, hrest⟩ := h
  exact ⟨c :: margin, rest, rfl, List.forall_mem_cons.2 ⟨⟨hc, hnewline⟩, hmargin⟩, hrest⟩

/-- A visible character in front of a layout belongs to its first word, or is a word of its own if white
space follows or nothing at all. -/
theorem LaysOut.exists_cons {c : Char} (hc : isSpace c = false) (h : LaysOut ws cs)
    (hws : ∀ w ∈ ws, IsWord w.toList) :
    ∃ ws', LaysOut ws' (c :: cs) ∧ ∀ w ∈ ws', IsWord w.toList := by
  have hword : ∀ {w : List Char}, (∀ d ∈ w, isSpace d = false) →
      IsWord (String.ofList (c :: w)).toList := by
    intro w hw
    rw [String.toList_ofList]
    exact ⟨by simp, List.forall_mem_cons.2 ⟨hc, hw⟩⟩
  have hnone : IsGap [] := by simp [IsGap]
  have halone : ∀ {gap rest ws}, IsGap gap → (ws ≠ [] → gap ≠ []) → Spaced ws rest →
      LaysOut (String.ofList [c] :: ws) (c :: (gap ++ rest)) := fun hgap hsep hrest =>
    ⟨[], _, by simp, hnone, .cons hgap hsep hrest⟩
  obtain ⟨margin, rest, rfl, hmargin, hrest⟩ := h
  by_cases hsep : margin = []
  · subst hsep
    cases hrest with
    | nil =>
      exact ⟨_, halone hnone (by simp) .nil, List.forall_mem_cons.2 ⟨hword (by simp), hws⟩⟩
    | @cons w ws gap rest hgap hsep hrest =>
      obtain ⟨hw, hws⟩ := List.forall_mem_cons.1 hws
      refine ⟨String.ofList (c :: w.toList) :: ws, ⟨[], _, ?_, hnone, .cons hgap hsep hrest⟩, ?_⟩
      · simp
      · exact List.forall_mem_cons.2 ⟨hword hw.2, hws⟩
  · exact ⟨_, halone hmargin (fun _ => hsep) hrest,
      List.forall_mem_cons.2 ⟨hword (by simp), hws⟩⟩

theorem exists_laysOut (h : '\n' ∉ cs) : ∃ ws, LaysOut ws cs ∧ ∀ w ∈ ws, IsWord w.toList := by
  induction cs with
  | nil => exact ⟨[], ⟨[], [], rfl, by simp [IsGap], .nil⟩, by simp⟩
  | cons c cs ih =>
    rw [List.mem_cons, not_or] at h
    obtain ⟨ws, hlayout, hws⟩ := ih h.2
    by_cases hc : isSpace c = true
    · exact ⟨ws, hlayout.cons_space hc (Ne.symm h.1), hws⟩
    · exact hlayout.exists_cons (by simpa using hc) hws

/-- Every text without a line break lays out its words. -/
theorem exists_laysOut_words (h : '\n' ∉ cs) :
    ∃ ws, LaysOut ws cs ∧ (∀ w ∈ ws, IsWord w.toList) ∧ words cs = ws.map String.toList := by
  obtain ⟨ws, hlayout, hws⟩ := exists_laysOut h
  exact ⟨ws, hlayout, hws, hlayout.words_eq hws⟩

end PDA.Text
