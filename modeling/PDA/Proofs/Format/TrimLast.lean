import PDA.Proofs.OrderedSet
import PDA.Proofs.Format.Loadable

/-!
# White space at the end of a set

A line is trimmed when it is read, and so the last member of a set loses the white space at its end.
Nothing is lost exactly if there is none (`Automaton.same_trimLast_iff`).
-/

namespace PDA

open Format Text

/-- Trim the last text at its end. -/
def trimLast : List (List Char) → List (List Char)
  | [] => []
  | [m] => [trimEnd m]
  | m :: n :: ms => m :: trimLast (n :: ms)

theorem trimLast_concat (ms : List (List Char)) (m : List Char) :
    trimLast (ms ++ [m]) = ms ++ [trimEnd m] := by
  induction ms with
  | nil => rfl
  | cons m' ms ih =>
    cases ms with
    | nil => rfl
    | cons n ms => rw [List.cons_append, List.cons_append, trimLast, ← List.cons_append, ih]; rfl

/-- White space at the end of a line is white space at the end of its last name. -/
theorem intercalate_trimLast (ms : List (List Char)) :
    trimEnd ([','].intercalate ms) = [','].intercalate (trimLast ms) := by
  induction ms with
  | nil => rfl
  | cons m ms ih =>
    cases ms with
    | nil => simp [trimLast]
    | cons n ms =>
      have htail : trimLast (n :: ms) ≠ [] := by cases ms <;> simp [trimLast]
      rw [trimLast, List.intercalate_cons_of_ne_nil htail, ← ih, List.intercalate_cons_cons,
        List.append_assoc, List.singleton_append, trimEnd_append_cons (by decide),
        List.append_assoc, List.singleton_append]

theorem trimLast_ne_nil {ms : List (List Char)} (h : ms ≠ []) : trimLast ms ≠ [] := by
  obtain ⟨init, m, rfl⟩ := List.eq_nil_or_concat ms |>.resolve_left h
  simp [trimLast_concat]

theorem mem_trimLast {ms : List (List Char)} {m : List Char} (h : m ∈ trimLast ms) :
    ∃ n ∈ ms, m <+: n := by
  rcases List.eq_nil_or_concat ms with rfl | ⟨init, n, rfl⟩
  · simp [trimLast] at h
  · rw [List.concat_eq_append] at *
    rw [trimLast_concat, List.mem_append, List.mem_singleton] at h
    rcases h with h | rfl
    · exact ⟨m, by simp [h], List.prefix_rfl⟩
    · exact ⟨n, by simp, trimEnd_isPrefix n⟩

namespace OrderedSet

variable {α : Type}

/-- Trim the last name at its end. -/
def trimLastName (name : α ≃ String) (as : List α) : List α :=
  ((PDA.trimLast (as.map fun a => (name a).toList)).map String.ofList).map name.symm

theorem trimLastName_concat (name : α ≃ String) (as : List α) (a : α) :
    trimLastName name (as ++ [a]) = as ++ [name.symm (String.ofList (trimEnd (name a).toList))] := by
  rw [trimLastName, List.map_append, List.map_singleton, trimLast_concat, List.map_append,
    List.map_append, List.map_map, List.map_map]
  simp [Function.comp_def]

/-- The name of the last member, if there is one, does not end in white space. -/
def TrimmedEnd (name : α ≃ String) (s : OrderedSet α) : Prop :=
  ∀ m ∈ (s.toList.map name).getLast?, NoTrailingSpace m.toList

instance (name : α ≃ String) (s : OrderedSet α) : Decidable (s.TrimmedEnd name) :=
  inferInstanceAs (Decidable (∀ m ∈ (s.toList.map name).getLast?, NoTrailingSpace m.toList))

variable [DecidableEq α]

/-- The set after white space was lost at the end of its last member. -/
def trimLast (name : α ≃ String) (s : OrderedSet α) : OrderedSet α :=
  .ofList (trimLastName name s.toList)

/-- A set whose last name has no white space at its end is saved as it is. -/
theorem trimLast_eq_self {name : α ≃ String} {s : OrderedSet α} (h : s.TrimmedEnd name) :
    s.trimLast name = s := by
  have hnames : trimLastName name s.toList = s.toList := by
    rcases List.eq_nil_or_concat s.toList with hs | ⟨as, a, hs⟩
    · rw [hs]
      rfl
    · have ha : NoTrailingSpace (name a).toList := h (name a) (by simp [hs])
      rw [hs, List.concat_eq_append, trimLastName_concat, trimEnd_eq_self ha]
      simp
  rw [trimLast, hnames, ofList_toList]

/-- As a set, nothing changes exactly if the last member does not end in white space. -/
theorem same_trimLast_iff {name : α ≃ String} {s : OrderedSet α} :
    (s.trimLast name).Same s ↔ s.TrimmedEnd name := by
  constructor
  · intro h m hm
    rcases List.eq_nil_or_concat s.toList with hs | ⟨as, a, hs⟩
    · simp [hs] at hm
    · rw [List.concat_eq_append] at hs
      obtain rfl : name a = m := by simpa [hs] using hm
      have ha : a ∈ s.trimLast name := (same_iff.1 h a).2 (by rw [← mem_toList, hs]; simp)
      rw [trimLast, mem_ofList, hs, trimLastName_concat, List.mem_append, List.mem_singleton] at ha
      rcases ha with ha | ha
      · -- a member is listed only once
        have hnodup : (as ++ [a]).Nodup := hs ▸ s.nodup
        exact absurd rfl ((List.nodup_append.1 hnodup).2.2 a ha a List.mem_cons_self)
      · have hname : name a = String.ofList (trimEnd (name a).toList) := name.eq_symm_apply.1 ha
        have htrim := congrArg String.toList hname
        rw [String.toList_ofList] at htrim
        exact trimEnd_eq_self_iff.1 htrim.symm
  · intro h
    rw [trimLast_eq_self h]
    exact same_iff.2 fun _ => Iff.rfl

end OrderedSet

namespace Automaton

/-- The automaton after white space was lost at the end of the last member of every set. -/
def trimLast (A : Automaton) : Automaton where
  states := A.states.trimLast State.equiv
  inputAlphabet := A.inputAlphabet.trimLast Symbol.equiv
  stackAlphabet := A.stackAlphabet.trimLast Symbol.equiv
  start := A.start
  accept := A.accept.trimLast State.equiv
  rules := A.rules

theorem trimmedEnds_iff {A : Automaton} : A.TrimmedEnds ↔
    A.states.TrimmedEnd State.equiv ∧ A.inputAlphabet.TrimmedEnd Symbol.equiv ∧
    A.stackAlphabet.TrimmedEnd Symbol.equiv ∧ A.accept.TrimmedEnd State.equiv :=
  forall_memberNames

/-- An automaton is saved as it is if its four last names have no white space at their end. -/
theorem TrimmedEnds.trimLast_eq_self {A : Automaton} (h : A.TrimmedEnds) : A.trimLast = A := by
  obtain ⟨hstates, hinput, hstack, haccept⟩ := trimmedEnds_iff.1 h
  rw [trimLast, OrderedSet.trimLast_eq_self hstates, OrderedSet.trimLast_eq_self hinput,
    OrderedSet.trimLast_eq_self hstack, OrderedSet.trimLast_eq_self haccept]

/-- Cutting the last names leaves the same automaton exactly if there is nothing to cut. -/
theorem same_trimLast_iff {A : Automaton} : A.trimLast.Same A ↔ A.TrimmedEnds := by
  simp only [Same, trimLast, OrderedSet.same_trimLast_iff, trimmedEnds_iff, and_true, true_and]

/-- Whether an automaton is loadable does not depend on the order of its sets. -/
theorem Loadable.of_same {epsilon : String} {A B : Automaton} (h : A.Loadable epsilon)
    (hAB : A.Same B) : B.Loadable epsilon := by
  obtain ⟨hstates, hinput, hstack, hstart, haccept, hrules⟩ := hAB
  obtain ⟨hA₁, hA₂, hA₃, hA₄⟩ := forall_memberNames.1 h.members
  have hmove : ∀ {α : Type} [DecidableEq α] (name : α → String) {s t : OrderedSet α}, s.Same t →
      (∀ m ∈ s.toList.map name, IsMember m) → ∀ m ∈ t.toList.map name, IsMember m := by
    intro α _ name s t hst hs m hm
    obtain ⟨a, ha, rfl⟩ := List.mem_map.1 hm
    exact hs _ (List.mem_map_of_mem (hst.2 a ha))
  exact ⟨forall_memberNames.2 ⟨hmove _ hstates hA₁, hmove _ hinput hA₂, hmove _ hstack hA₃,
    hmove _ haccept hA₄⟩, hstart ▸ h.start, hrules ▸ h.rules⟩

end Automaton

end PDA
