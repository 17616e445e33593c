import Mathlib.Data.List.Forall2
import PDA.Text.Fuzzy

/-!
# Which names a pattern matches

Matching every character as early as possible finds the pattern wherever it can be found at all
(`isSome_positions?_iff`), so a name gets a score exactly if the pattern is a subsequence of it. In a name
without upper case letters only equal characters match (`isSome_score?_iff`), whatever the pattern says
about case.
-/

namespace PDA.Text.Fuzzy

/-- A character `p` of a pattern matches a character `c` of a name. -/
def Comparison.Matches (cmp : Comparison) (p c : Char) : Prop := cmp.accepts c p = true

variable {cmp : Comparison} {pattern name : List Char} {p c : Char}

/-! ## The search -/

/-- Where the first character matches, nothing is lost by using it for the first one of the pattern. -/
theorem sublistForall₂_cons_iff {α β : Type} {R : α → β → Prop} {a : α} {b : β} {as : List α}
    {bs : List β} (h : R a b) :
    List.SublistForall₂ R (a :: as) (b :: bs) ↔ List.SublistForall₂ R as bs := by
  constructor
  · intro hmatch
    cases hmatch with
    | cons _ hrest => exact hrest
    | cons_right hlater =>
      obtain ⟨l, hl, hsub⟩ := List.sublistForall₂_iff.1 hlater
      cases hl with
      | cons _ hrest => exact List.sublistForall₂_iff.2 ⟨_, hrest, (List.sublist_cons_self _ _).trans hsub⟩
  · exact .cons h

theorem sublistForall₂_cons_iff_of_not {α β : Type} {R : α → β → Prop} {a : α} {b : β} {as : List α}
    {bs : List β} (h : ¬ R a b) :
    List.SublistForall₂ R (a :: as) (b :: bs) ↔ List.SublistForall₂ R (a :: as) bs := by
  constructor
  · intro hmatch
    cases hmatch with
    | cons hab _ => exact absurd hab h
    | cons_right hlater => exact hlater
  · exact .cons_right

/-- The first character that matches is taken. -/
theorem positions?_of_matches (h : cmp.Matches p c) (ps cs : List Char) (i : Nat) :
    positions? cmp (p :: ps) (c :: cs) i = (positions? cmp ps cs (i + 1)).map (i :: ·) := if_pos h

theorem positions?_of_not_matches (h : ¬ cmp.Matches p c) (ps cs : List Char) (i : Nat) :
    positions? cmp (p :: ps) (c :: cs) i = positions? cmp (p :: ps) cs (i + 1) := if_neg h

/-- Taking the first match each time misses no way to match. -/
theorem isSome_positions?_iff (cmp : Comparison) (pattern name : List Char) (i : Nat) :
    (positions? cmp pattern name i).isSome ↔ List.SublistForall₂ cmp.Matches pattern name := by
  induction name generalizing pattern i with
  | nil =>
    cases pattern with
    | nil => simp [positions?, List.SublistForall₂.nil]
    | cons p ps => simp [positions?, List.sublistForall₂_iff]
  | cons c cs ih =>
    cases pattern with
    | nil => simp [positions?, List.SublistForall₂.nil]
    | cons p ps =>
      by_cases h : cmp.Matches p c
      · rw [positions?_of_matches h, Option.isSome_map, ih, sublistForall₂_cons_iff h]
      · rw [positions?_of_not_matches h, ih, sublistForall₂_cons_iff_of_not h]

/-! ## Names without upper case -/

theorem toLower_eq_self (h : c.isUpper = false) : c.toLower = c :=
  dif_neg (of_decide_eq_false h)

/-- Whether or not case counts, a character that is not an upper case letter matches only itself. If case
does not count, the pattern has no upper case letter either. -/
theorem matches_iff_eq (hp : p ∈ pattern) (hc : c.isUpper = false) :
    (Comparison.ofPattern pattern).Matches p c ↔ p = c := by
  have hlower : c.toLower = c := toLower_eq_self hc
  rw [Comparison.Matches, Comparison.accepts, Comparison.ofPattern, @eq_comm _ p c]
  cases hcase : pattern.any Char.isUpper with
  | true => simp
  | false =>
    have hp' : p.toLower = p := toLower_eq_self (by simpa using List.any_eq_false.1 hcase p hp)
    simp [hlower, hp']

/-- Against a name without capitals a character only matches itself. -/
theorem forall₂_matches_iff_eq {ps l : List Char} (hps : ∀ p ∈ ps, p ∈ pattern)
    (hl : ∀ c ∈ l, c.isUpper = false) :
    List.Forall₂ (Comparison.ofPattern pattern).Matches ps l ↔ ps = l := by
  induction ps generalizing l with
  | nil => rw [List.forall₂_nil_left_iff, @eq_comm _ [] l]
  | cons p ps ih =>
    obtain ⟨hp, hps⟩ := List.forall_mem_cons.1 hps
    cases l with
    | nil => simp
    | cons c l =>
      obtain ⟨hc, hl⟩ := List.forall_mem_cons.1 hl
      rw [List.forall₂_cons, matches_iff_eq hp hc, ih hps hl, List.cons.injEq]

/-- A name without capitals has a score exactly if the pattern is a subsequence of it. -/
theorem isSome_score?_iff (h : ∀ c ∈ name, c.isUpper = false) :
    (score? name pattern).isSome ↔ pattern.Sublist name := by
  have hexact : ∀ l, l.Sublist name →
      (List.Forall₂ (Comparison.ofPattern pattern).Matches pattern l ↔ pattern = l) := fun l hl =>
    forall₂_matches_iff_eq (fun _ hp => hp) fun c hc => h c (hl.subset hc)
  rw [score?, Option.isSome_map, isSome_positions?_iff, List.sublistForall₂_iff]
  constructor
  · rintro ⟨l, hl, hsub⟩
    rwa [(hexact l hsub).1 hl]
  · intro hsub
    exact ⟨pattern, (hexact pattern hsub).2 rfl, hsub⟩

end PDA.Text.Fuzzy
