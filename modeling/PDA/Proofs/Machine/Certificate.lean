import Mathlib.Data.List.Chain
import PDA.Machine.Process

/-!
# A trace proves its outcome

A trace says everything about its run: an outcome can be checked against an automaton and an input
by looking at each step and the one after it, without running anything. The check succeeds for the
outcome of the run (`certificate_runFrom`) and, as a run has no choice, for no other
(`Certificate.eq_runFrom`).
-/

namespace PDA

namespace Automaton

section Certificate

variable (A : Automaton)

/-- The rule that is found in `k` on the character `c` leads to `k'`. -/
def Moves (k : Configuration) (c : Char) (k' : Configuration) : Prop :=
  ∃ r, A.findRule? k.state c k.stack.getLast? = some r ∧ k'.state = r.target ∧
    k'.stack = (if r.pop.isSome then k.stack.dropLast else k.stack) ++ r.push

/-- The step `t` may come right after the step `s`: if a character was looked at in `s` and not
rejected in `t`, then `t` happens where the rule led to. -/
def MayFollow (s t : Step) : Prop :=
  match s, t with
  | .consumed k c, .consumed k' _ | .consumed k c, .final k' => A.Moves k c k'
  | _, _ => True

/-- The outcome `o` is what its trace shows to be the outcome on `cs`, started in the configuration
`k₀`: the trace looks at the characters `looked` and then ends with the step `last`. -/
structure Certificate (k₀ : Configuration) (cs : List Char) (o : Outcome)
    (looked : List (Configuration × Char)) (last : Step) : Prop where
  trace_eq : o.trace = looked.map (fun p => .consumed p.1 p.2) ++ [last]
  symbols : looked.map Prod.snd <+: cs
  starts : ∀ s ∈ o.trace.head?, s.config = k₀
  follows : o.trace.IsChain A.MayFollow
  terminal : last.isTerminal
  final : ∀ k, last = .final k →
    looked.length = cs.length ∧ (o.accepted = true ↔ k.state ∈ A.accept)
  rejected : ∀ k c, last = .rejected k c → 1 ≤ looked.length ∧ o.accepted = false ∧
    looked.getLast? = some (k, c) ∧ A.findRule? k.state c k.stack.getLast? = none

end Certificate

section Step

variable {A : Automaton} {k k' : Configuration} {c : Char}

/-- The machine moves from one configuration to another exactly if the local rules say so. -/
theorem next?_eq_some_iff : A.next? k c = some k' ↔ A.Moves k c k' := by
  rw [next?, Option.map_eq_some_iff, Moves]
  refine exists_congr fun r => and_congr_right fun _ => ?_
  rw [Configuration.ext_iff, eq_comm (b := k'.state), eq_comm (b := k'.stack)]
  rfl

/-- The machine is stuck exactly if no rule is found for the top of the stack. -/
theorem next?_eq_none_iff :
    A.next? k c = none ↔ A.findRule? k.state c k.stack.getLast? = none :=
  Option.map_eq_none_iff

/-- After a character that was looked at, a step other than a rejection may follow exactly if it is in the
next configuration. -/
theorem mayFollow_iff {s : Step} (hs : ∀ k' d, s ≠ .rejected k' d) :
    A.MayFollow (.consumed k c) s ↔ A.next? k c = some s.config := by
  rw [next?_eq_some_iff]
  cases s with
  | rejected k' d => exact absurd rfl (hs k' d)
  | consumed | final => rfl

end Step

namespace Certificate

variable {A : Automaton} {k k' : Configuration} {c : Char} {cs : List Char} {o : Outcome}
  {looked : List (Configuration × Char)} {last : Step}

/-! ## The run has a certificate -/

/-- At the end of the input there is nothing to look at, and the state decides. -/
theorem nil (A : Automaton) (k : Configuration) :
    A.Certificate k [] ⟨A.Accepting k.state, [.final k]⟩ [] (.final k) where
  trace_eq := rfl
  symbols := List.prefix_rfl
  starts := by simp [Step.config]
  follows := List.isChain_singleton _
  terminal := rfl
  final := by
    intro k₁ hlast
    obtain rfl := Step.final.inj hlast
    exact ⟨rfl, decide_eq_true_iff⟩
  rejected := by simp

/-- If there is no next configuration, the run looks at the character and is rejected there. -/
theorem stuck (h : A.next? k c = none) (cs : List Char) :
    A.Certificate k (c :: cs) ⟨false, [.consumed k c, .rejected k c]⟩ [(k, c)]
      (.rejected k c) where
  trace_eq := rfl
  symbols := by simp
  starts := by simp [Step.config]
  follows := List.isChain_pair.2 trivial
  terminal := rfl
  final := by simp
  rejected := by
    intro k' c' hlast
    obtain ⟨rfl, rfl⟩ := Step.rejected.inj hlast
    exact ⟨le_rfl, rfl, rfl, next?_eq_none_iff.1 h⟩

/-- A trace is not empty, and it starts in the configuration of the run. -/
theorem exists_cons (h : A.Certificate k cs o looked last) :
    ∃ s ts, o.trace = s :: ts ∧ s.config = k := by
  have hstarts := h.starts
  cases htrace : o.trace with
  | nil => simp [h.trace_eq] at htrace
  | cons s ts =>
    rw [htrace] at hstarts
    exact ⟨s, ts, rfl, hstarts s rfl⟩

/-- A certificate for the rest of the input becomes one for the whole by putting the step in front. -/
theorem cons (hnext : A.next? k c = some k') (h : A.Certificate k' cs o looked last) :
    A.Certificate k (c :: cs) (o.after (.consumed k c)) ((k, c) :: looked) last where
  trace_eq := by simp [Outcome.after, h.trace_eq]
  symbols := by simpa using h.symbols
  starts := by simp [Outcome.after, Step.config]
  follows := by
    obtain ⟨s, ts, htrace, hs⟩ := h.exists_cons
    have hfollows := h.follows
    rw [Outcome.after, htrace]
    rw [htrace] at hfollows
    refine List.isChain_cons_cons.2 ⟨?_, hfollows⟩
    subst hs
    cases s with
    | rejected => trivial
    | consumed | final => exact (mayFollow_iff (by simp)).2 hnext
  terminal := h.terminal
  final := by
    intro k₁ hlast
    obtain ⟨hlength, haccept⟩ := h.final k₁ hlast
    exact ⟨by simp [hlength], haccept⟩
  rejected := by
    intro k₁ c₁ hlast
    obtain ⟨_, haccepted, hgetLast, hfind⟩ := h.rejected k₁ c₁ hlast
    exact ⟨by simp, haccepted, by simp [List.getLast?_cons, hgetLast], hfind⟩

/-! ## There is no other certificate -/

/-- A trace that looks at nothing is that of the empty input. -/
theorem eq_of_nil (h : A.Certificate k cs o [] last) :
    cs = [] ∧ o = ⟨A.Accepting k.state, [.final k]⟩ := by
  have htrace : o.trace = [last] := h.trace_eq
  have hconfig : last.config = k := h.starts last (by simp [htrace])
  cases last with
  | consumed k₁ c => exact absurd h.terminal (by simp [Step.isTerminal])
  | rejected k₁ c => exact absurd (h.rejected k₁ c rfl).1 (by simp)
  | final k₁ =>
    obtain rfl : k₁ = k := hconfig
    obtain ⟨hlength, haccept⟩ := h.final k₁ rfl
    have hnil : cs = [] := List.length_eq_zero_iff.1 hlength.symm
    have haccepted : o.accepted = decide (A.Accepting k₁.state) := by
      rw [Bool.eq_iff_iff, haccept, decide_eq_true_iff]
      rfl
    exact ⟨hnil, Outcome.ext haccepted htrace⟩

/-- What is behind the first step of a certificate is a certificate for the rest of the input. -/
theorem tail (h : A.Certificate k (c :: cs) o ((k, c) :: looked) last)
    (hnext : A.next? k c = some k')
    (hstarts : ∀ s ∈ (looked.map (fun p => Step.consumed p.1 p.2) ++ [last]).head?, s.config = k') :
    A.Certificate k' cs ⟨o.accepted, looked.map (fun p => .consumed p.1 p.2) ++ [last]⟩ looked
      last where
  trace_eq := rfl
  symbols := (List.prefix_cons_inj c).1 h.symbols
  starts := hstarts
  follows := by
    have hfollows := h.follows
    rw [h.trace_eq] at hfollows
    exact hfollows.tail
  terminal := h.terminal
  final := by
    intro k₁ hlast
    obtain ⟨hlength, haccept⟩ := h.final k₁ hlast
    exact ⟨by simpa using hlength, haccept⟩
  rejected := by
    intro k₁ c₁ hlast
    obtain ⟨-, haccepted, hgetLast, hfind⟩ := h.rejected k₁ c₁ hlast
    cases looked with
    | nil =>
      -- the rejection would be on the character on which the run goes on
      obtain ⟨rfl, rfl⟩ : k = k₁ ∧ c = c₁ := by simpa using hgetLast
      rw [next?_eq_none_iff.2 hfind] at hnext
      contradiction
    | cons p looked => exact ⟨by simp, haccepted, by simpa using hgetLast, hfind⟩

/-- A trace that looks at a character either ends there with a rejection, or what follows is a
certificate for the rest of the input. -/
theorem cases_of_cons {k₁ : Configuration} (h : A.Certificate k cs o ((k₁, c) :: looked) last) :
    ∃ cs', cs = c :: cs' ∧
      (A.next? k c = none ∧ o = ⟨false, [.consumed k c, .rejected k c]⟩ ∨
        ∃ k' o', A.next? k c = some k' ∧ o = Outcome.after (.consumed k c) o' ∧
          A.Certificate k' cs' o' looked last) := by
  obtain ⟨cs, rfl, -⟩ := List.cons_prefix_iff.1 h.symbols
  have htrace := h.trace_eq
  rw [List.map_cons, List.cons_append] at htrace
  obtain rfl : k₁ = k := h.starts (.consumed k₁ c) (by rw [htrace]; rfl)
  have hfollows := h.follows
  rw [htrace] at hfollows
  have hnext : ∀ s ts, looked.map (fun p => Step.consumed p.1 p.2) ++ [last] = s :: ts →
      (∀ k' d, s ≠ .rejected k' d) → A.next? k₁ c = some s.config := by
    intro s ts hs hne
    rw [hs] at hfollows
    exact (mayFollow_iff hne).1 (List.isChain_cons_cons.1 hfollows).1
  have hafter : o = Outcome.after (.consumed k₁ c)
      ⟨o.accepted, looked.map (fun p => .consumed p.1 p.2) ++ [last]⟩ := Outcome.ext rfl htrace
  refine ⟨cs, rfl, ?_⟩
  cases looked with
  | cons p looked =>
    have hmove : A.next? k₁ c = some p.1 := hnext _ _ rfl (by simp)
    exact .inr ⟨p.1, _, hmove, hafter, h.tail hmove (by simp [Step.config])⟩
  | nil =>
    cases last with
    | consumed k₂ d => exact absurd h.terminal (by simp [Step.isTerminal])
    | final k₂ =>
      have hmove : A.next? k₁ c = some k₂ := hnext _ _ rfl (by simp)
      exact .inr ⟨k₂, _, hmove, hafter, h.tail hmove (by simp [Step.config])⟩
    | rejected k₂ d =>
      obtain ⟨-, haccepted, hgetLast, hfind⟩ := h.rejected k₂ d rfl
      obtain ⟨rfl, rfl⟩ : k₁ = k₂ ∧ c = d := by simpa using hgetLast
      exact .inl ⟨next?_eq_none_iff.2 hfind, Outcome.ext haccepted htrace⟩

end Certificate

/-- Every run has a certificate. -/
theorem certificate_runFrom (A : Automaton) (k : Configuration) (cs : List Char) :
    ∃ looked last, A.Certificate k cs (A.runFrom k cs) looked last := by
  induction cs generalizing k with
  | nil => exact ⟨_, _, Certificate.nil A k⟩
  | cons c cs ih =>
    cases hnext : A.next? k c with
    | none =>
      rw [runFrom_cons_of_none _ hnext]
      exact ⟨_, _, Certificate.stuck hnext cs⟩
    | some k' =>
      obtain ⟨looked, last, h⟩ := ih k'
      rw [runFrom_cons_of_some _ hnext]
      exact ⟨_, _, Certificate.cons hnext h⟩

/-- Only the run itself has one: what the local rules allow is determined step by step. -/
theorem Certificate.eq_runFrom {A : Automaton} {k : Configuration} {cs : List Char} {o : Outcome}
    {looked : List (Configuration × Char)} {last : Step}
    (h : A.Certificate k cs o looked last) : o = A.runFrom k cs := by
  induction looked generalizing k cs o with
  | nil =>
    obtain ⟨rfl, rfl⟩ := h.eq_of_nil
    rfl
  | cons p looked ih =>
    obtain ⟨cs', rfl, ⟨hnext, rfl⟩ | ⟨k', o', hnext, rfl, htail⟩⟩ := h.cases_of_cons
    · rw [runFrom_cons_of_none _ hnext]
    · rw [runFrom_cons_of_some _ hnext, ih htail]

/-- **A trace is a certificate.** An outcome is that of the run on an input exactly if its trace
passes the check. -/
theorem process_eq_iff_certificate (A : Automaton) (input : String) (o : Outcome) :
    A.process input = o ↔
      ∃ looked last, A.Certificate ⟨A.start, []⟩ input.toList o looked last := by
  constructor
  · rintro rfl
    exact certificate_runFrom A A.initial input.toList
  · rintro ⟨looked, last, h⟩
    exact h.eq_runFrom.symm

end Automaton

end PDA
