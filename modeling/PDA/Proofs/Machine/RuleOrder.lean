import Mathlib.Data.List.OfFn
import Mathlib.Logic.Equiv.Basic
import PDA.Proofs.Machine.Reach

/-!
# The order of the rules

Of the rules that apply the first one is taken, so the order of two rules can only matter if both of
them apply in some situation, that is, if they overlap (`Rule.exists_applies_iff_overlaps`). Rules that
do not overlap may change places (`Automaton.findRule?_rearrange`).
-/

namespace PDA

/-! ## Overlapping rules -/

/-- The symbol consists of exactly one character. -/
def Symbol.IsSingle (s : Symbol) : Prop := s.text.length = 1

instance (s : Symbol) : Decidable s.IsSingle := inferInstanceAs (Decidable (_ = _))

/-- A symbol consists of one character exactly if there is a character that it consists of. -/
theorem Symbol.isSingle_iff {s : Symbol} : s.IsSingle ↔ ∃ c, s.IsChar c := by
  rw [IsSingle, ← String.length_toList, List.length_eq_one_iff]
  exact exists_congr fun c => char?_eq_some_iff.symm

namespace Rule

variable {r s : Rule}

/-- There is a character that both rules may read. -/
def ReadsOverlap (r s : Rule) : Prop :=
  match r.read, s.read with
  | none, none => True
  | some a, none | none, some a => a.IsSingle
  | some a, some b => a = b ∧ a.IsSingle

/-- There is a top of the stack with which both rules may be taken. -/
def PopsOverlap (r s : Rule) : Prop := r.pop = none ∨ s.pop = none ∨ r.pop = s.pop

/-- Both rules apply in some situation. -/
def Overlaps (r s : Rule) : Prop := r.source = s.source ∧ r.ReadsOverlap s ∧ r.PopsOverlap s

instance (r s : Rule) : Decidable (r.ReadsOverlap s) := by
  unfold ReadsOverlap
  split <;> infer_instance

instance (r s : Rule) : Decidable (r.PopsOverlap s) := inferInstanceAs (Decidable (_ ∨ _))

instance (r s : Rule) : Decidable (r.Overlaps s) := inferInstanceAs (Decidable (_ ∧ _))

/-- There is a character that both rules may read exactly if what they read overlaps. -/
theorem exists_reads_iff : (∃ c, r.Reads c ∧ s.Reads c) ↔ r.ReadsOverlap s := by
  unfold Reads ReadsOverlap
  cases r.read with
  | none =>
    cases s.read with
    | none => simp
    | some b => simp [Symbol.isSingle_iff]
  | some a =>
    cases s.read with
    | none => simp [Symbol.isSingle_iff]
    | some b =>
      simp only [Option.mem_some_iff, forall_eq', Symbol.isSingle_iff]
      constructor
      · rintro ⟨c, ha, hb⟩
        have hab : a = b :=
          (Symbol.isChar_iff_eq_ofChar.1 ha).trans (Symbol.isChar_iff_eq_ofChar.1 hb).symm
        exact ⟨hab, c, ha⟩
      · rintro ⟨rfl, c, ha⟩
        exact ⟨c, ha, ha⟩

/-- There is a top of the stack for both rules exactly if what they pop overlaps. -/
theorem exists_pops_iff : (∃ top, r.Pops top ∧ s.Pops top) ↔ r.PopsOverlap s := by
  unfold Pops PopsOverlap
  cases r.pop with
  | none =>
    cases s.pop with
    | none => simp
    | some t => simp
  | some t =>
    cases s.pop with
    | none => simp
    | some u => simp [eq_comm]

/-- Two rules apply in one situation exactly if they overlap. -/
theorem exists_applies_iff_overlaps :
    (∃ q c top, r.Applies q c top ∧ s.Applies q c top) ↔ r.Overlaps s := by
  rw [Overlaps, ← exists_reads_iff, ← exists_pops_iff]
  constructor
  · rintro ⟨q, c, top, ⟨hr, hrc, hrt⟩, hs, hsc, hst⟩
    exact ⟨hr.trans hs.symm, ⟨c, hrc, hsc⟩, top, hrt, hst⟩
  · rintro ⟨hsource, ⟨c, hrc, hsc⟩, top, hrt, hst⟩
    exact ⟨s.source, c, top, ⟨hsource, hrc, hrt⟩, rfl, hsc, hst⟩

end Rule

namespace Automaton

variable {A B : Automaton} {q : State} {c : Char} {top : Option Symbol} {r : Rule}

/-! ## The rule that is found -/

/-- No rule is found exactly if none applies. -/
theorem findRule?_eq_none_iff :
    A.findRule? q c top = none ↔ ∀ r ∈ A.rules, ¬ r.Applies q c top := by
  simp [findRule?]

/-- The first rule of a family that applies stands at the smallest index at which one does. -/
theorem find?_ofFn_eq_some_iff {n : Nat} {f : Fin n → Rule} :
    ((List.ofFn f).find? fun r => r.Applies q c top) = some r ↔
      ∃ i, f i = r ∧ r.Applies q c top ∧ ∀ j < i, ¬ (f j).Applies q c top := by
  rw [List.find?_eq_some_iff_getElem]
  constructor
  · rintro ⟨happlies, i, hi, hr, hbefore⟩
    have hn : i < n := by simpa using hi
    refine ⟨⟨i, hn⟩, by simpa using hr, by simpa using happlies, fun j hj => ?_⟩
    simpa using hbefore j hj
  · rintro ⟨i, hr, happlies, hbefore⟩
    refine ⟨by simpa using happlies, i, by simp, by simpa using hr, fun j hj => ?_⟩
    simpa using hbefore ⟨j, hj.trans i.isLt⟩ hj

/-- The rule that is found applies, and none before it does. -/
theorem findRule?_eq_some_iff : A.findRule? q c top = some r ↔
    ∃ i : Fin A.rules.length, A.rules[i] = r ∧ r.Applies q c top ∧
      ∀ j < i, ¬ A.rules[j].Applies q c top := by
  have hfirst := @find?_ofFn_eq_some_iff q c top r _ A.rules.get
  rwa [List.ofFn_get] at hfirst

/-- Runs depend on the rules that are found, on the accept states, and on nothing else. -/
theorem runFrom_congr (hfind : ∀ q c top, A.findRule? q c top = B.findRule? q c top)
    (haccept : ∀ q, A.Accepting q ↔ B.Accepting q) (k : Configuration) (cs : List Char) :
    A.runFrom k cs = B.runFrom k cs :=
  runFrom_congr_of_invariant (fun k c _ => hfind k.state c k.top) (fun _ _ _ _ _ => trivial) haccept
    trivial cs

/-! ## Rules that change places -/

/-- The automaton with its rules rearranged: the rule in place `i` goes to place `σ i`. -/
def rearrange (A : Automaton) (σ : Equiv.Perm (Fin A.rules.length)) : Automaton :=
  { A with rules := List.ofFn fun i => A.rules[σ.symm i] }

/-- Of two rules that overlap, the one that came first still does after the rules were rearranged. -/
def KeepsOrder (A : Automaton) (σ : Equiv.Perm (Fin A.rules.length)) : Prop :=
  ∀ i j, i < j → A.rules[i].Overlaps A.rules[j] → σ i < σ j

instance (A : Automaton) (σ : Equiv.Perm (Fin A.rules.length)) : Decidable (A.KeepsOrder σ) :=
  inferInstanceAs (Decidable (∀ i j, i < j → A.rules[i].Overlaps A.rules[j] → σ i < σ j))

variable {σ : Equiv.Perm (Fin A.rules.length)}

/-- If rules that overlap keep their order, the same rule is found everywhere. -/
theorem findRule?_rearrange (h : A.KeepsOrder σ) (q : State) (c : Char) (top : Option Symbol) :
    (A.rearrange σ).findRule? q c top = A.findRule? q c top := by
  cases hfind : A.findRule? q c top with
  | none =>
    rw [findRule?_eq_none_iff] at hfind ⊢
    intro r hr
    obtain ⟨i, rfl⟩ := List.mem_ofFn.1 hr
    exact hfind _ (List.getElem_mem _)
  | some r =>
    obtain ⟨i, hi, happlies, hbefore⟩ := findRule?_eq_some_iff.1 hfind
    refine find?_ofFn_eq_some_iff.2 ⟨σ i, by simpa using hi, happlies, ?_⟩
    intro j hj happliesj
    obtain ⟨j, rfl⟩ := σ.surjective j
    simp only [Equiv.symm_apply_apply] at happliesj
    -- a rule that applies overlaps with the one that was found, so it does not come before it now
    have hoverlaps : A.rules[i].Overlaps A.rules[j] :=
      Rule.exists_applies_iff_overlaps.1 ⟨q, c, top, hi ▸ happlies, happliesj⟩
    rcases lt_trichotomy j i with hlt | rfl | hlt
    · exact hbefore j hlt happliesj
    · exact lt_irrefl _ hj
    · exact lt_asymm hj (h i j hlt hoverlaps)

/-- **The order of rules matters only where they overlap.** Two rules overlap exactly if both apply in
some situation, and rules that are rearranged without changing the order of any two that overlap give
the same runs. -/
theorem process_rearrange :
    (∀ r s : Rule, (∃ q c top, r.Applies q c top ∧ s.Applies q c top) ↔ r.Overlaps s) ∧
    ∀ (A : Automaton) (σ : Equiv.Perm (Fin A.rules.length)), A.KeepsOrder σ →
      ∀ input : String, (A.rearrange σ).process input = A.process input :=
  ⟨fun _ _ => Rule.exists_applies_iff_overlaps, fun A _ h input =>
    runFrom_congr (findRule?_rearrange h) (fun _ => Iff.rfl) A.initial input.toList⟩

/-- The first two rules read different letters, the third one reads any letter and overlaps with both of
them, and the last one overlaps with nothing, for it reads two letters. -/
def pushPop : Automaton where
  start := ⟨"s"⟩
  rules :=
    [⟨⟨"s"⟩, some ⟨"a"⟩, none, ⟨"s"⟩, [⟨"X"⟩]⟩, ⟨⟨"s"⟩, some ⟨"b"⟩, some ⟨"X"⟩, ⟨"s"⟩, []⟩,
      ⟨⟨"s"⟩, none, none, ⟨"t"⟩, []⟩, ⟨⟨"s"⟩, some ⟨"ab"⟩, none, ⟨"u"⟩, []⟩]

/-- Swap the first two rules, and the last two. -/
def pairSwap : Equiv.Perm (Fin pushPop.rules.length) :=
  (Equiv.swap (0 : Fin 4) 1).trans (Equiv.swap 2 3)

/-- Two of the rules overlap and keep their order; the others change places. -/
theorem process_rearrange_pairSwap :
    (∃ q c top, pushPop.rules[0].Applies q c top ∧ pushPop.rules[2].Applies q c top) ∧
      pushPop.KeepsOrder pairSwap ∧ (pushPop.rearrange pairSwap).rules ≠ pushPop.rules ∧
      (pushPop.rearrange pairSwap).process "aabbb" = pushPop.process "aabbb" := by
  have hkeeps : pushPop.KeepsOrder pairSwap := by decide
  exact ⟨(process_rearrange.1 _ _).2 (by decide), hkeeps, by decide,
    process_rearrange.2 pushPop pairSwap hkeeps "aabbb"⟩

end Automaton

end PDA
