import Mathlib.Data.List.Pairwise
import PDA.Automaton.Issue
import PDA.Proofs.Machine.Reach

/-!
# States that are not declared

The list of issues is told by its order and by what it has about each part of the automaton
(`Automaton.AreIssues`), and there is no other list like that. If it is empty, a run is in a declared state
at every step: it starts in one, and a rule leads to no other (`Automaton.issues_exact`).
-/

namespace PDA

/-- The place of an issue among the others: the start state, the accept states, then rule after rule. -/
def Issue.rank : Issue → Nat
  | .start _ => 0
  | .accept _ => 1
  | .rule i _ => i + 2

/-! ## Lists in groups -/

section Groups

variable {α : Type} {f : α → Nat} {xs ys : List α}

/-- Lists with the same members in each group have the same members. -/
theorem mem_iff_of_filter_eq (h : ∀ n, xs.filter (f · = n) = ys.filter (f · = n)) (a : α) :
    a ∈ xs ↔ a ∈ ys := by
  have hgroup : a ∈ xs.filter (f · = f a) ↔ a ∈ ys.filter (f · = f a) := by rw [h]
  simpa using hgroup

/-- The first member of an ordered list belongs to the lowest group. -/
theorem le_of_mem_cons_of_pairwise {x y : α} (h : ((y :: ys).map f).Pairwise (· ≤ ·))
    (hx : x ∈ y :: ys) : f y ≤ f x := by
  rw [List.map_cons, List.pairwise_cons] at h
  rcases List.mem_cons.1 hx with rfl | hmem
  · exact Nat.le_refl _
  · exact h.1 (f x) (List.mem_map_of_mem hmem)

/-- A list that is ordered in groups is told by its groups. -/
theorem eq_of_filter_eq (hxs : (xs.map f).Pairwise (· ≤ ·)) (hys : (ys.map f).Pairwise (· ≤ ·))
    (h : ∀ n, xs.filter (f · = n) = ys.filter (f · = n)) : xs = ys := by
  induction xs generalizing ys with
  | nil =>
    refine (List.eq_nil_iff_forall_not_mem.2 fun a ha => ?_).symm
    exact List.not_mem_nil ((mem_iff_of_filter_eq h a).2 ha)
  | cons x xs ih =>
    have hx : x ∈ ys := (mem_iff_of_filter_eq h x).1 List.mem_cons_self
    obtain ⟨y, ys, rfl⟩ := List.exists_cons_of_ne_nil (List.ne_nil_of_mem hx)
    have hy : y ∈ x :: xs := (mem_iff_of_filter_eq h y).2 List.mem_cons_self
    have hkey : f x = f y :=
      Nat.le_antisymm (le_of_mem_cons_of_pairwise hxs hy) (le_of_mem_cons_of_pairwise hys hx)
    have hfirst := h (f x)
    rw [List.filter_cons_of_pos (by simp), List.filter_cons_of_pos (by simp [hkey]),
      List.cons.injEq] at hfirst
    obtain ⟨rfl, hgroup⟩ := hfirst
    have htail : ∀ n, xs.filter (f · = n) = ys.filter (f · = n) := by
      intro n
      by_cases hn : f x = n
      · rw [← hn, hgroup]
      · have hrest := h n
        rwa [List.filter_cons_of_neg (by simpa using hn),
          List.filter_cons_of_neg (by simpa using hn)] at hrest
    rw [List.map_cons, List.pairwise_cons] at hxs hys
    rw [ih hxs.2 hys.2 htail]

/-- Those that are picked from a list without repetitions stand in their order. -/
theorem eq_filter_of_sublist {p : α → Prop} [DecidablePred p] (hys : ys.Nodup)
    (hsub : xs.Sublist ys) (hmem : ∀ a, a ∈ xs ↔ a ∈ ys ∧ p a) : xs = ys.filter (p ·) := by
  have hall : xs.filter (p ·) = xs := List.filter_eq_self.2 fun a ha => by simp [((hmem a).1 ha).2]
  have hfilter : xs.Sublist (ys.filter (p ·)) := hall ▸ hsub.filter (p ·)
  have hperm : xs.Perm (ys.filter (p ·)) := by
    rw [List.perm_ext_iff_of_nodup (hys.sublist hsub) (hys.filter _)]
    intro a
    rw [hmem, List.mem_filter, decide_eq_true_iff]
  exact hfilter.eq_of_length hperm.length_eq

/-- If the elements of each part are ranked by the place of the part, a part is found by its place. -/
theorem filter_flatMap_zipIdx {β : Type} {g : β × Nat → List α} (shift : Nat)
    (hrank : ∀ p, ∀ a ∈ g p, f a = p.2 + shift) (bs : List β) (k i : Nat) :
    ((bs.zipIdx k).flatMap g).filter (f · = k + i + shift) =
      (bs[i]?).elim [] fun b => g (b, k + i) := by
  induction bs generalizing k i with
  | nil => rfl
  | cons b bs ih =>
    rw [List.zipIdx_cons, List.flatMap_cons, List.filter_append]
    cases i with
    | zero =>
      have hfirst : (g (b, k)).filter (f · = k + 0 + shift) = g (b, k) :=
        List.filter_eq_self.2 fun a ha => by simp [hrank _ a ha]
      have hrest : ((bs.zipIdx (k + 1)).flatMap g).filter (f · = k + 0 + shift) = [] := by
        rw [List.filter_eq_nil_iff]
        intro a ha
        obtain ⟨p, hp, hap⟩ := List.mem_flatMap.1 ha
        have hle : k + 1 ≤ p.2 := List.le_snd_of_mem_zipIdx hp
        have hfa : f a = p.2 + shift := hrank p a hap
        simp only [decide_eq_true_eq]
        omega
      rw [hfirst, hrest, List.append_nil]
      rfl
    | succ i =>
      have hfirst : (g (b, k)).filter (f · = k + (i + 1) + shift) = [] := by
        rw [List.filter_eq_nil_iff]
        intro a ha
        have hfa : f a = k + shift := hrank _ a ha
        simp only [decide_eq_true_eq]
        omega
      have hplace : k + (i + 1) = k + 1 + i := by omega
      rw [hfirst, List.nil_append, hplace, ih, List.getElem?_cons_succ]

end Groups

namespace Automaton

/-- The list has all issues of the automaton, in order, and nothing else. -/
structure AreIssues (A : Automaton) (issues : List Issue) : Prop where
  increasing : (issues.map Issue.rank).Pairwise (· ≤ ·)
  start : issues.filter (·.rank = 0) = if A.start ∈ A.states then [] else [.start A.start]
  accept : ∃ qs : List State, issues.filter (·.rank = 1) = qs.map Issue.accept ∧
    qs.Sublist A.accept.toList ∧ ∀ q, q ∈ qs ↔ q ∈ A.accept ∧ q ∉ A.states
  /-- A rule that leads back to its own state is listed twice. -/
  rule : ∀ i r, A.rules[i]? = some r → issues.filter (·.rank = i + 2) =
    (if r.source ∈ A.states then [] else [.rule i r.source]) ++
      (if r.target ∈ A.states then [] else [.rule i r.target])
  inRange : ∀ i q, .rule i q ∈ issues → i < A.rules.length

/-! ## The list of issues -/

section Issues

variable {A : Automaton} {issues issues' : List Issue}

/-- The issues of a rule, given with its place. -/
def ruleIssues (A : Automaton) (p : Rule × Nat) : List Issue :=
  (A.undeclared [p.1.source, p.1.target]).map (.rule p.2)

/-- The issues of a rule form a group of their own, in the order of the rules. -/
theorem rank_of_mem_ruleIssues {p : Rule × Nat} {issue : Issue} (h : issue ∈ A.ruleIssues p) :
    issue.rank = p.2 + 2 := by
  obtain ⟨q, -, rfl⟩ := List.mem_map.1 h
  rfl

/-- The issues come in groups: that of the start state, those of the accept states, and those of each rule. -/
theorem issues_eq (A : Automaton) : A.issues =
    (A.undeclared [A.start]).map .start ++ (A.undeclared A.accept.toList).map .accept ++
      A.rules.zipIdx.flatMap A.ruleIssues := rfl

/-- Issues made in one way all belong to one group. -/
theorem filter_rank_map (mk : State → Issue) {m : Nat} (hmk : ∀ q, (mk q).rank = m) (qs : List State)
    (n : Nat) : (qs.map mk).filter (·.rank = n) = if m = n then qs.map mk else [] := by
  split
  · rename_i hn
    simp [List.filter_eq_self, hmk, hn]
  · rename_i hn
    simp [List.filter_eq_nil_iff, hmk, hn]

/-- The members of a group come from the part of the list that belongs to it. -/
theorem filter_rank_issues (A : Automaton) (n : Nat) : A.issues.filter (·.rank = n) =
    (if 0 = n then (A.undeclared [A.start]).map Issue.start else []) ++
      (if 1 = n then (A.undeclared A.accept.toList).map Issue.accept else []) ++
      (A.rules.zipIdx.flatMap A.ruleIssues).filter (·.rank = n) := by
  rw [issues_eq, List.filter_append, List.filter_append, filter_rank_map .start fun _ => rfl,
    filter_rank_map .accept fun _ => rfl]

/-- No issue of a rule belongs to the first two groups. -/
theorem filter_rank_ruleIssues_of_lt {n : Nat} (hn : n < 2) :
    (A.rules.zipIdx.flatMap A.ruleIssues).filter (·.rank = n) = [] := by
  rw [List.filter_eq_nil_iff]
  intro issue h
  obtain ⟨p, -, hp⟩ := List.mem_flatMap.1 h
  have hrank : issue.rank = p.2 + 2 := rank_of_mem_ruleIssues hp
  simp only [decide_eq_true_eq]
  omega

/-- The issues in the group of a rule are those of this rule. -/
theorem filter_rank_issues_rule (A : Automaton) (i : Nat) :
    A.issues.filter (·.rank = i + 2) = (A.rules[i]?).elim [] fun r => A.ruleIssues (r, i) := by
  have hrules := filter_flatMap_zipIdx (f := Issue.rank) (g := A.ruleIssues) 2
    (fun _ _ => rank_of_mem_ruleIssues) A.rules 0 i
  rw [Nat.zero_add] at hrules
  rw [filter_rank_issues, if_neg (by omega), if_neg (by omega), hrules]
  rfl

/-- The groups stand one after the other. -/
theorem pairwise_rank_issues (A : Automaton) : (A.issues.map Issue.rank).Pairwise (· ≤ ·) := by
  have hplaces : (A.rules.zipIdx.map Prod.snd).Pairwise (· < ·) := by
    rw [List.zipIdx_map_snd]
    exact List.pairwise_lt_range'
  have hrules : (A.rules.zipIdx.flatMap A.ruleIssues).Pairwise (·.rank ≤ ·.rank) := by
    rw [List.pairwise_flatMap]
    constructor
    · intro p _
      refine List.pairwise_of_forall_mem_list fun a ha b hb => ?_
      have hsame : a.rank = b.rank := by
        rw [rank_of_mem_ruleIssues ha, rank_of_mem_ruleIssues hb]
      exact Nat.le_of_eq hsame
    · refine (List.pairwise_map.1 hplaces).imp fun hlt a ha b hb => ?_
      rw [rank_of_mem_ruleIssues ha, rank_of_mem_ruleIssues hb]
      omega
  have hfirst : ((A.undeclared [A.start]).map Issue.start ++
      (A.undeclared A.accept.toList).map Issue.accept).Pairwise (·.rank ≤ ·.rank) := by
    rw [List.pairwise_append, List.pairwise_map, List.pairwise_map]
    refine ⟨List.pairwise_of_forall fun _ _ => Nat.le_refl _,
      List.pairwise_of_forall fun _ _ => Nat.le_refl _, fun a ha b hb => ?_⟩
    obtain ⟨q, -, rfl⟩ := List.mem_map.1 ha
    exact Nat.zero_le _
  rw [List.pairwise_map, issues_eq, List.pairwise_append]
  refine ⟨hfirst, hrules, fun a ha b hb => ?_⟩
  obtain ⟨p, -, hbp⟩ := List.mem_flatMap.1 hb
  have ha : a.rank < 2 := by
    rcases List.mem_append.1 ha with h | h <;> obtain ⟨q, -, rfl⟩ := List.mem_map.1 h
    · exact Nat.zero_lt_two
    · exact Nat.one_lt_two
  rw [rank_of_mem_ruleIssues hbp]
  omega

/-- What is listed is what should be listed. -/
theorem areIssues_issues (A : Automaton) : A.AreIssues A.issues where
  increasing := A.pairwise_rank_issues
  start := by
    rw [filter_rank_issues, filter_rank_ruleIssues_of_lt Nat.zero_lt_two, undeclared]
    by_cases hstart : A.start ∈ A.states <;> simp [hstart]
  accept := by
    refine ⟨A.undeclared A.accept.toList, ?_, List.filter_sublist, fun q => by simp [undeclared]⟩
    rw [filter_rank_issues, filter_rank_ruleIssues_of_lt Nat.one_lt_two]
    simp
  rule := by
    intro i r hr
    rw [filter_rank_issues_rule, hr, Option.elim_some, ruleIssues, undeclared]
    by_cases hsource : r.source ∈ A.states <;> by_cases htarget : r.target ∈ A.states <;>
      simp [hsource, htarget]
  inRange := by
    intro i q h
    have hmem : .rule i q ∈ A.issues.filter (·.rank = i + 2) := List.mem_filter.2 ⟨h, by simp [Issue.rank]⟩
    rw [filter_rank_issues_rule] at hmem
    by_contra hi
    simp [List.getElem?_eq_none (Nat.le_of_not_lt hi)] at hmem

/-- There are no issues of rules that do not exist. -/
theorem AreIssues.filter_rank_eq_nil (h : A.AreIssues issues) {i : Nat} (hi : A.rules[i]? = none) :
    issues.filter (·.rank = i + 2) = [] := by
  rw [List.filter_eq_nil_iff]
  intro issue hissue hrank
  have hlength : A.rules.length ≤ i := List.getElem?_eq_none_iff.1 hi
  cases issue with
  | start | accept => simp [Issue.rank] at hrank
  | rule j q =>
    have hj : j < A.rules.length := h.inRange j q hissue
    have hji : j = i := by simpa [Issue.rank] using hrank
    omega

/-- What a list of issues has about each part leaves no choice. -/
theorem AreIssues.eq (h : A.AreIssues issues) (h' : A.AreIssues issues') : issues = issues' := by
  refine eq_of_filter_eq h.increasing h'.increasing fun n => ?_
  match n with
  | 0 => rw [h.start, h'.start]
  | 1 =>
    obtain ⟨qs, hqs, hsub, hmem⟩ := h.accept
    obtain ⟨qs', hqs', hsub', hmem'⟩ := h'.accept
    rw [hqs, hqs', eq_filter_of_sublist A.accept.nodup hsub hmem,
      eq_filter_of_sublist A.accept.nodup hsub' hmem']
  | i + 2 =>
    cases hr : A.rules[i]? with
    | some r => rw [h.rule i r hr, h'.rule i r hr]
    | none => rw [h.filter_rank_eq_nil hr, h'.filter_rank_eq_nil hr]

/-- Nothing is undeclared exactly if all states are declared. -/
theorem undeclared_eq_nil_iff {qs : List State} : A.undeclared qs = [] ↔ ∀ q ∈ qs, q ∈ A.states := by
  simp [undeclared]

/-- There are no issues exactly if every state that is used is declared. -/
theorem issues_eq_nil_iff : A.issues = [] ↔ A.start ∈ A.states ∧ (∀ q ∈ A.accept, q ∈ A.states) ∧
    ∀ r ∈ A.rules, r.source ∈ A.states ∧ r.target ∈ A.states := by
  have hrules : A.rules.zipIdx.flatMap A.ruleIssues = [] ↔
      ∀ r ∈ A.rules, r.source ∈ A.states ∧ r.target ∈ A.states := by
    simp only [List.flatMap_eq_nil_iff, ruleIssues, List.map_eq_nil_iff, undeclared_eq_nil_iff,
      List.forall_mem_cons, List.not_mem_nil, false_implies, implies_true, and_true]
    constructor
    · intro h r hr
      obtain ⟨i, hi⟩ := List.mem_iff_getElem?.1 hr
      exact h (r, i) (List.mem_zipIdx_iff_getElem?.2 hi)
    · exact fun h p hp => h p.1 (List.fst_mem_of_mem_zipIdx hp)
  rw [issues_eq, List.append_eq_nil_iff, List.append_eq_nil_iff, List.map_eq_nil_iff,
    List.map_eq_nil_iff, undeclared_eq_nil_iff, undeclared_eq_nil_iff, hrules, and_assoc]
  simp

end Issues

/-! ## Runs -/

section Runs

variable {A : Automaton}

/-- A step leads into a declared state if the targets of the rules are declared. -/
theorem state_mem_of_next? (htarget : ∀ r ∈ A.rules, r.target ∈ A.states) {k k' : Configuration}
    {c : Char} (h : A.next? k c = some k') : k'.state ∈ A.states := by
  obtain ⟨r, hr, -, rfl⟩ := exists_rule_of_next? h
  exact htarget r hr

/-- If the start state and all targets of rules are declared, a run never leaves the declared states. -/
theorem state_mem_of_mem_trace (hstart : A.start ∈ A.states)
    (htarget : ∀ r ∈ A.rules, r.target ∈ A.states) (input : String) :
    ∀ s ∈ (A.process input).trace, s.config.state ∈ A.states :=
  trace_runFrom_induction (P := fun k => k.state ∈ A.states)
    (fun _ _ _ _ hnext => state_mem_of_next? htarget hnext) hstart

/-- **Declared names are enough.** The issues are exactly the uses of states that are not declared, in
order. There are none exactly if the start state, all accept states and both states of every rule are
declared, and then no run leaves the declared states. -/
theorem issues_exact (A : Automaton) :
    (∀ issues, A.issues = issues ↔ A.AreIssues issues) ∧
    (A.issues = [] ↔ A.start ∈ A.states ∧ (∀ q ∈ A.accept, q ∈ A.states) ∧
      ∀ r ∈ A.rules, r.source ∈ A.states ∧ r.target ∈ A.states) ∧
    (A.issues = [] → ∀ input, ∀ s ∈ (A.process input).trace, s.config.state ∈ A.states) := by
  refine ⟨fun issues => ⟨?_, fun h => A.areIssues_issues.eq h⟩, issues_eq_nil_iff, fun h input => ?_⟩
  · rintro rfl
    exact A.areIssues_issues
  · obtain ⟨hstart, -, hrules⟩ := issues_eq_nil_iff.1 h
    exact state_mem_of_mem_trace hstart (fun r hr => (hrules r hr).2) input

/-- An automaton that declares one of its four states, and loops in one of the others. -/
def undeclaredLoop : Automaton where
  states := .ofList [⟨"q"⟩]
  start := ⟨"s"⟩
  accept := .ofList [⟨"x"⟩, ⟨"q"⟩, ⟨"s"⟩]
  rules := [⟨⟨"q"⟩, none, none, ⟨"s"⟩, []⟩, ⟨⟨"q"⟩, none, none, ⟨"q"⟩, []⟩,
    ⟨⟨"x"⟩, none, none, ⟨"x"⟩, []⟩]

/-- The same automaton with all its states declared, and started in one that loops. -/
def declaredLoop : Automaton :=
  { undeclaredLoop with states := .ofList [⟨"s"⟩, ⟨"x"⟩, ⟨"q"⟩], start := ⟨"x"⟩ }

/-- The loop is listed twice, and goes on in a declared state once its state is declared. -/
theorem issues_exact_loop :
    undeclaredLoop.AreIssues [.start ⟨"s"⟩, .accept ⟨"x"⟩, .accept ⟨"s"⟩, .rule 0 ⟨"s"⟩,
      .rule 2 ⟨"x"⟩, .rule 2 ⟨"x"⟩] ∧
    declaredLoop.issues = [] ∧
    ∀ s ∈ (declaredLoop.process "ab").trace, s.config.state ∈ declaredLoop.states := by
  have hissues : undeclaredLoop.issues = [.start ⟨"s"⟩, .accept ⟨"x"⟩, .accept ⟨"s"⟩,
      .rule 0 ⟨"s"⟩, .rule 2 ⟨"x"⟩, .rule 2 ⟨"x"⟩] := by decide
  have hnone : declaredLoop.issues = [] := by decide
  obtain ⟨-, -, hruns⟩ := issues_exact declaredLoop
  exact ⟨((issues_exact undeclaredLoop).1 _).1 hissues, hnone, hruns hnone "ab"⟩

end Runs

end Automaton

end PDA
