import Mathlib.Data.List.FinRange
import Mathlib.Data.List.InsertIdx
import PDA.Proofs.Machine.RuleOrder

/-!
# Rules that can be deleted

A rule is redundant if an earlier one applies wherever it does, or if it reads a symbol that no character
is. The rule that is found is the first one that applies, so it is never redundant, and all redundant rules
can be deleted at once (`Automaton.findRule?_deleteRules`): it does no harm that a rule goes together with
the ones that cover it.
-/

namespace PDA

namespace Rule

variable {r s : Rule} {q : State} {c : Char} {top : Option Symbol}

/-- What `s` asks for, `r` asks for at most. -/
def Covers (r s : Rule) : Prop :=
  r.source = s.source ∧ (r.read = none ∨ r.read = s.read) ∧ (r.pop = none ∨ r.pop = s.pop)

/-- The rule reads a symbol that is not exactly one character. -/
def IsDead (r : Rule) : Prop := ∃ a ∈ r.read, ¬ a.IsSingle

instance (r s : Rule) : Decidable (r.Covers s) := inferInstanceAs (Decidable (_ ∧ _))

instance (r : Rule) : Decidable r.IsDead :=
  inferInstanceAs (Decidable (∃ a ∈ r.read, ¬ a.IsSingle))

/-- Where a covered rule applies, the covering rule applies as well. -/
theorem Covers.applies (h : r.Covers s) (hs : s.Applies q c top) : r.Applies q c top := by
  obtain ⟨hsource, hread, hpop⟩ := h
  obtain ⟨hq, hc, htop⟩ := hs
  refine ⟨hsource.trans hq, ?_, ?_⟩
  · rcases hread with hnone | heq
    · simp [Reads, hnone]
    · rwa [Reads, heq]
  · rcases hpop with hnone | heq
    · simp [Pops, hnone]
    · rwa [Pops, heq]

/-- A dead rule never applies. -/
theorem IsDead.not_applies (h : r.IsDead) : ¬ r.Applies q c top := by
  rintro ⟨-, hc, -⟩
  obtain ⟨a, ha, hsingle⟩ := h
  exact hsingle (Symbol.isSingle_iff.2 ⟨c, hc a ha⟩)

end Rule

namespace Automaton

variable {A : Automaton} {q : State} {c : Char} {top : Option Symbol} {r : Rule}

/-- The rule in place `j` is covered by an earlier one, or dead. -/
def Redundant (A : Automaton) (j : Fin A.rules.length) : Prop :=
  (∃ i < j, (A.rules.get i).Covers (A.rules.get j)) ∨ (A.rules.get j).IsDead

instance (A : Automaton) (j : Fin A.rules.length) : Decidable (A.Redundant j) :=
  inferInstanceAs (Decidable (_ ∨ _))

/-- The automaton without the rule in place `j`. -/
def eraseRule (A : Automaton) (j : Fin A.rules.length) : Automaton :=
  { A with rules := A.rules.eraseIdx j }

/-- The automaton without the rules in the places `P`. -/
def deleteRules (A : Automaton) (P : Fin A.rules.length → Prop) [DecidablePred P] : Automaton :=
  { A with rules := ((List.finRange A.rules.length).filter (¬ P ·)).map A.rules.get }

/-- Erasing one rule is deleting all rules at one position. -/
theorem eraseRule_eq_deleteRules (A : Automaton) (j : Fin A.rules.length) :
    A.eraseRule j = A.deleteRules (· = j) := by
  have hplace : (List.finRange A.rules.length).eraseIdx j =
      (List.finRange A.rules.length).filter (¬ · = j) := by
    have hnodup := List.nodup_finRange A.rules.length
    have herase := hnodup.erase_getElem j (by simp)
    rw [List.getElem_finRange, hnodup.erase_eq_filter] at herase
    rw [← herase]
    exact List.filter_congr fun i _ => by simp [bne, beq_eq_decide]
  have hrules : A.rules.eraseIdx j =
      ((List.finRange A.rules.length).filter (¬ · = j)).map A.rules.get := by
    rw [← hplace, ← List.eraseIdx_map, List.map_get_finRange]
  rw [eraseRule, deleteRules, hrules]

section Delete

variable {P : Fin A.rules.length → Prop} [DecidablePred P]

/-- Deleting rules adds none. -/
theorem mem_rules_of_mem_deleteRules (h : r ∈ (A.deleteRules P).rules) : r ∈ A.rules := by
  obtain ⟨i, -, rfl⟩ := List.mem_map.1 h
  exact List.get_mem A.rules i

/-- The first rule that applies is found after others were deleted. -/
theorem findRule?_deleteRules_of_first {i : Fin A.rules.length} (hi : ¬ P i)
    (happlies : (A.rules.get i).Applies q c top)
    (hbefore : ∀ j < i, ¬ (A.rules.get j).Applies q c top) :
    (A.deleteRules P).findRule? q c top = some (A.rules.get i) := by
  obtain ⟨before, after, hplaces⟩ := List.append_of_mem (List.mem_finRange i)
  have hlt : ∀ j ∈ before, j < i := by
    have hsorted := List.pairwise_lt_finRange A.rules.length
    rw [hplaces, List.pairwise_append] at hsorted
    exact fun j hj => hsorted.2.2 j hj i List.mem_cons_self
  rw [findRule?, deleteRules, List.find?_map, List.find?_filter, Option.map_eq_some_iff]
  refine ⟨i, List.find?_eq_some_iff_append.2 ⟨?_, before, after, hplaces, ?_⟩, rfl⟩
  · simpa using ⟨hi, happlies⟩
  intro j hj
  have hnot : ¬ (A.rules.get j).Applies q c top := hbefore j (hlt j hj)
  simpa using .inr hnot

/-- Without redundant rules the same rule is found everywhere. -/
theorem findRule?_deleteRules (h : ∀ j, P j → A.Redundant j) (q : State) (c : Char)
    (top : Option Symbol) : (A.deleteRules P).findRule? q c top = A.findRule? q c top := by
  cases hfind : A.findRule? q c top with
  | none =>
    rw [findRule?_eq_none_iff] at hfind ⊢
    intro r hr
    exact hfind r (mem_rules_of_mem_deleteRules hr)
  | some r =>
    obtain ⟨i, rfl, happlies, hbefore⟩ := findRule?_eq_some_iff.1 hfind
    -- what covers the rule that was found would apply before it
    have hkept : ¬ P i := by
      intro hi
      rcases h i hi with ⟨j, hj, hcovers⟩ | hdead
      · exact hbefore j hj (hcovers.applies happlies)
      · exact hdead.not_applies happlies
    exact findRule?_deleteRules_of_first hkept happlies hbefore

/-- Without redundant rules every run is the same, from any configuration. -/
theorem runFrom_deleteRules (h : ∀ j, P j → A.Redundant j) (k : Configuration) (cs : List Char) :
    (A.deleteRules P).runFrom k cs = A.runFrom k cs :=
  runFrom_congr (findRule?_deleteRules h) (fun _ => Iff.rfl) k cs

end Delete

/-- **Redundant rules can be deleted.** A rule that is covered by an earlier one or dead is not needed,
and no such rule is needed for deleting the others. -/
theorem process_delete_redundant (A : Automaton) (input : String) :
    (∀ j, A.Redundant j → (A.eraseRule j).process input = A.process input) ∧
      (A.deleteRules A.Redundant).process input = A.process input := by
  constructor
  · intro j hj
    rw [eraseRule_eq_deleteRules]
    exact runFrom_deleteRules (fun i hi => hi ▸ hj) A.initial input.toList
  · exact runFrom_deleteRules (fun _ hj => hj) A.initial input.toList

/-- The first rule covers the second one, and both cover the third one; the fourth one is dead, and the
last one is needed. -/
def shadowing : Automaton where
  start := ⟨"s"⟩
  accept := .ofList [⟨"t"⟩]
  rules :=
    [⟨⟨"s"⟩, some ⟨"a"⟩, none, ⟨"s"⟩, [⟨"X"⟩]⟩, ⟨⟨"s"⟩, some ⟨"a"⟩, some ⟨"X"⟩, ⟨"u"⟩, []⟩,
      ⟨⟨"s"⟩, some ⟨"a"⟩, some ⟨"X"⟩, ⟨"v"⟩, []⟩, ⟨⟨"s"⟩, some ⟨"ab"⟩, none, ⟨"v"⟩, []⟩,
      ⟨⟨"s"⟩, none, some ⟨"X"⟩, ⟨"t"⟩, []⟩]

/-- A rule that is covered may cover another one; all of them can go at once. -/
theorem process_delete_redundant_shadowing :
    (∃ j : Fin shadowing.rules.length, j.val = 1 ∧ shadowing.Redundant j ∧
      (shadowing.eraseRule j).process "aab" = shadowing.process "aab") ∧
    (shadowing.deleteRules shadowing.Redundant).rules = [shadowing.rules[0], shadowing.rules[4]] ∧
    (shadowing.deleteRules shadowing.Redundant).process "aab" = shadowing.process "aab" := by
  obtain ⟨herase, hdelete⟩ := process_delete_redundant shadowing "aab"
  have hcovered : shadowing.Redundant ⟨1, by decide⟩ := by decide
  exact ⟨⟨_, rfl, hcovered, herase _ hcovered⟩, by decide, hdelete⟩

end Automaton

end PDA
