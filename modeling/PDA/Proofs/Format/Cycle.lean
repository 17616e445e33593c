import Mathlib.Logic.Function.Iterate
import PDA.Proofs.Format.RoundTrip

/-!
# Saving and loading again and again

Each time an automaton is saved and loaded, the last member of each set is trimmed at its end. It
vanishes if that makes it the same as an earlier member, and then another member is the last one and may
be trimmed the next time. So a set changes as often as it has members at most
(`OrderedSet.trimmedEnd_iterate`), and from then on the automaton and its text stay as they are.
-/

namespace PDA

open Format Text

namespace OrderedSet

variable {α : Type}

/-- The member whose name is that of `a` without the white space at its end. -/
def trimmedName (name : α ≃ String) (a : α) : α := name.symm (String.ofList (trimEnd (name a).toList))

section End

variable {name : α ≃ String} {s : OrderedSet α} {init : List α} {a : α}

theorem trimmedEnd_of_nil (h : s.toList = []) : s.TrimmedEnd name := by
  intro m hm
  simp [h] at hm

theorem trimmedEnd_of_concat (h : s.toList = init ++ [trimmedName name a]) : s.TrimmedEnd name := by
  intro m hm
  have hm : name (trimmedName name a) = m := by simpa [h] using hm
  rw [← hm, trimmedName, Equiv.apply_symm_apply, String.toList_ofList]
  exact noTrailingSpace_trimEnd _

end End

variable [DecidableEq α] {name : α ≃ String} {s : OrderedSet α} {init : List α} {a : α}

/-- The last member of `s` is trimmed in `t`, and vanishes if it is the same as an earlier one then. -/
structure TrimsEnd (name : α ≃ String) (s t : OrderedSet α) : Prop where
  empty : s.toList = [] → t.toList = []
  last : ∀ init a, s.toList = init ++ [a] →
    t.toList = if trimmedName name a ∈ init then init else init ++ [trimmedName name a]

/-- A cut name that was a member already is not there twice: the set loses a member. -/
theorem toList_trimLast_of_concat (name : α ≃ String) (h : s.toList = init ++ [a]) :
    (s.trimLast name).toList =
      if trimmedName name a ∈ init then init else init ++ [trimmedName name a] := by
  have hinit : init.Nodup := (List.nodup_append.1 (h ▸ s.nodup)).1
  have hset : ofList init = ⟨init, hinit⟩ := ofList_toList ⟨init, hinit⟩
  rw [trimLast, h, trimLastName_concat, ofList_concat, hset, toList_insert]
  rfl

/-- What saving and loading does to a set is what `TrimsEnd` says. -/
theorem trimsEnd_trimLast (name : α ≃ String) (s : OrderedSet α) :
    s.TrimsEnd name (s.trimLast name) where
  empty h := by
    rw [trimLast, h]
    rfl
  last _ _ h := toList_trimLast_of_concat name h

/-- A cycle either settles the set or makes it smaller, and this is why it settles in the end. -/
theorem trimmedEnd_trimLast_or_length_lt (name : α ≃ String) (s : OrderedSet α) :
    (s.trimLast name).TrimmedEnd name ∨ (s.trimLast name).toList.length < s.toList.length := by
  rcases List.eq_nil_or_concat s.toList with hs | ⟨init, a, hs⟩
  · exact .inl (trimmedEnd_of_nil ((trimsEnd_trimLast name s).empty hs))
  · rw [List.concat_eq_append] at hs
    have htrim := toList_trimLast_of_concat name hs
    by_cases hmem : trimmedName name a ∈ init
    · rw [if_pos hmem] at htrim
      right
      rw [htrim, hs, List.length_append, List.length_singleton]
      omega
    · rw [if_neg hmem] at htrim
      exact .inl (trimmedEnd_of_concat htrim)

/-- As many cycles as the set has members settle it. -/
theorem trimmedEnd_iterate {n : ℕ} (h : s.toList.length ≤ n) :
    ((trimLast name)^[n] s).TrimmedEnd name := by
  induction n generalizing s with
  | zero =>
    have hnil : s.toList = [] := List.length_eq_zero_iff.1 (by omega)
    exact trimmedEnd_of_nil hnil
  | succ n ih =>
    rw [Function.iterate_succ_apply]
    -- one more member is paid for, or there is nothing left to do
    rcases trimmedEnd_trimLast_or_length_lt name s with htrimmed | hlt
    · have hfixed : trimLast name (s.trimLast name) = s.trimLast name := trimLast_eq_self htrimmed
      rwa [Function.iterate_fixed hfixed]
    · exact ih (by omega)

end OrderedSet

namespace Automaton

/-- How many members the largest set of the automaton has. -/
def largestSize (A : Automaton) : ℕ :=
  max (max A.states.toList.length A.inputAlphabet.toList.length)
    (max A.stackAlphabet.toList.length A.accept.toList.length)

/-- In `B` the ends of the sets of `A` are trimmed, and everything else is kept. -/
structure TrimsEnds (A B : Automaton) : Prop where
  start : B.start = A.start
  rules : B.rules = A.rules
  states : A.states.TrimsEnd State.equiv B.states
  inputAlphabet : A.inputAlphabet.TrimsEnd Symbol.equiv B.inputAlphabet
  stackAlphabet : A.stackAlphabet.TrimsEnd Symbol.equiv B.stackAlphabet
  accept : A.accept.TrimsEnd State.equiv B.accept

/-- What saving and loading does to an automaton is what `TrimsEnds` says. -/
theorem trimsEnds_trimLast (A : Automaton) : A.TrimsEnds A.trimLast where
  start := rfl
  rules := rfl
  states := OrderedSet.trimsEnd_trimLast _ _
  inputAlphabet := OrderedSet.trimsEnd_trimLast _ _
  stackAlphabet := OrderedSet.trimsEnd_trimLast _ _
  accept := OrderedSet.trimsEnd_trimLast _ _

/-- A set of the automaton settles on its own, whatever the other sets do. -/
theorem trimmedEnd_of_semiconj {α : Type} [DecidableEq α] {name : α ≃ String}
    {f : Automaton → OrderedSet α} (hf : Function.Semiconj f trimLast (OrderedSet.trimLast name))
    {A : Automaton} {n : ℕ} (h : (f A).toList.length ≤ n) : (f (trimLast^[n] A)).TrimmedEnd name := by
  rw [hf.iterate_right n A]
  exact OrderedSet.trimmedEnd_iterate h

/-- As many cycles as the largest set has members settle all of them. -/
theorem trimmedEnds_iterate {A : Automaton} {n : ℕ} (h : A.largestSize ≤ n) :
    (trimLast^[n] A).TrimmedEnds := by
  rw [largestSize] at h
  refine trimmedEnds_iff.2 ⟨?_, ?_, ?_, ?_⟩
  · exact trimmedEnd_of_semiconj (f := states) (fun _ => rfl) (by omega)
  · exact trimmedEnd_of_semiconj (f := inputAlphabet) (fun _ => rfl) (by omega)
  · exact trimmedEnd_of_semiconj (f := stackAlphabet) (fun _ => rfl) (by omega)
  · exact trimmedEnd_of_semiconj (f := accept) (fun _ => rfl) (by omega)

end Automaton

namespace Format

/-- The automaton after it was saved and loaded again `n` times. -/
def afterCycles (epsilon : String) (A : Automaton) : ℕ → Except (List Fault) Automaton
  | 0 => .ok A
  | n + 1 =>
    match afterCycles epsilon A n with
    | .ok B => (load epsilon (save epsilon B)).map Loaded.automaton
    | .error faults => .error faults

/-- Every cycle of a loadable automaton succeeds, and cuts the last names once more. -/
theorem afterCycles_eq {epsilon : String} {A : Automaton} (h : A.Loadable epsilon) (n : ℕ) :
    afterCycles epsilon A n = .ok (Automaton.trimLast^[n] A) ∧
      (Automaton.trimLast^[n] A).Loadable epsilon := by
  induction n with
  | zero => exact ⟨rfl, h⟩
  | succ n ih =>
    obtain ⟨hcycles, hloadable⟩ := ih
    have hload := load_save_eq hloadable
    rw [afterCycles, hcycles, Function.iterate_succ_apply']
    refine ⟨?_, loadable_of_load hload⟩
    show (load epsilon (save epsilon _)).map Loaded.automaton = _
    rw [hload]
    rfl

/-- **Saving and loading settles.** What was loaded can be saved and loaded as often as one likes. Each
time only the ends of the sets are trimmed, and after as many times as the largest set has members
nothing changes any more. -/
theorem cycles_settle {epsilon text : String} {loaded : Loaded} (h : load epsilon text = .ok loaded) :
    (∃ B, load epsilon (save epsilon loaded.automaton) = .ok ⟨B, []⟩ ∧
      loaded.automaton.TrimsEnds B) ∧
    ∀ n, ∃ B, afterCycles epsilon loaded.automaton n = .ok B ∧
      (loaded.automaton.largestSize ≤ n → ∃ C, load epsilon (save epsilon B) = .ok ⟨C, []⟩ ∧
        C = B ∧ save epsilon C = save epsilon B) := by
  have hA : loaded.automaton.Loadable epsilon := loadable_of_load h
  refine ⟨⟨_, load_save_eq hA, Automaton.trimsEnds_trimLast _⟩, fun n => ?_⟩
  obtain ⟨hcycles, hloadable⟩ := afterCycles_eq hA n
  refine ⟨_, hcycles, fun hn => ⟨_, load_save_eq hloadable, ?_⟩⟩
  have hfixed := (Automaton.trimmedEnds_iterate hn).trimLast_eq_self
  exact ⟨hfixed, congrArg (save epsilon) hfixed⟩

/-- Here it takes two times: without its blank the last member is the same as the first one, and then
the second one is the last. -/
theorem cycles_settle_twice :
    ∃ loaded, load "λ" "start_state:s\nstates:a,b ,a :\n" = .ok loaded ∧
      loaded.automaton.largestSize ≤ 3 ∧
      afterCycles "λ" loaded.automaton 1 =
        .ok { states := .ofList [⟨"a"⟩, ⟨"b "⟩], start := ⟨"s"⟩ } ∧
      afterCycles "λ" loaded.automaton 2 = .ok { states := .ofList [⟨"a"⟩, ⟨"b"⟩], start := ⟨"s"⟩ } ∧
      ∃ B, afterCycles "λ" loaded.automaton 3 = .ok B ∧ ∃ C, load "λ" (save "λ" B) = .ok ⟨C, []⟩ ∧
        C = B ∧ save "λ" C = save "λ" B := by
  have h : load "λ" "start_state:s\nstates:a,b ,a :\n" =
      .ok ⟨{ states := .ofList [⟨"a"⟩, ⟨"b "⟩, ⟨"a "⟩], start := ⟨"s"⟩ }, []⟩ := rfl
  refine ⟨_, h, by decide, rfl, rfl, ?_⟩
  obtain ⟨B, hcycles, hsettled⟩ := (cycles_settle h).2 3
  exact ⟨B, hcycles, hsettled (by decide)⟩

end Format

end PDA
