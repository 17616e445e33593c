import PDA.Proofs.Format.RoundTrip

/-!
# The automaton for arithmetic expressions

The definition of an automaton that reads an arithmetic expression with an end marker, and what it
does in each of its states. The text of the definition is the one that is written for the automaton,
so it is loaded as that automaton (`load_text`).
-/

namespace PDA.Expression

open Format Text

/-- The text of the definition. -/
def text : String :=
  "states:qs,q0,q1,q2
input_symbols:0,1,2,3,4,5,6,7,8,9,+,-,*,/,(,),$
stack_symbols:Z,P
start_state:qs
accept_states:q2
transitions:
qs 0 λ -> q1 Z
qs 1 λ -> q1 Z
qs 2 λ -> q1 Z
qs 3 λ -> q1 Z
qs 4 λ -> q1 Z
qs 5 λ -> q1 Z
qs 6 λ -> q1 Z
qs 7 λ -> q1 Z
qs 8 λ -> q1 Z
qs 9 λ -> q1 Z
qs ( λ -> q0 ZP
q0 0 λ -> q1
q0 1 λ -> q1
q0 2 λ -> q1
q0 3 λ -> q1
q0 4 λ -> q1
q0 5 λ -> q1
q0 6 λ -> q1
q0 7 λ -> q1
q0 8 λ -> q1
q0 9 λ -> q1
q0 ( λ -> q0 P
q1 + λ -> q0
q1 - λ -> q0
q1 * λ -> q0
q1 / λ -> q0
q1 ) P -> q1
q1 $ Z -> q2
"

/-- The operands of an expression. -/
def digits : List Char := ['0', '1', '2', '3', '4', '5', '6', '7', '8', '9']

/-- The signs that may stand between two terms. -/
def operators : List Char := ['+', '-', '*', '/']

/-- Nothing has been read. -/
def qs : State := ⟨"qs"⟩

/-- An operand is to come. -/
def q0 : State := ⟨"q0"⟩

/-- An operand has been read. -/
def q1 : State := ⟨"q1"⟩

/-- The end marker has been read. -/
def q2 : State := ⟨"q2"⟩

/-- The bottom of the stack. -/
def Z : Symbol := ⟨"Z"⟩

/-- An open parenthesis. -/
def P : Symbol := ⟨"P"⟩

/-- The rules that read one of the characters and differ in nothing else. -/
def reading (cs : List Char) (source : State) (pop : Option Symbol) (target : State)
    (push : List Symbol) : List Rule :=
  cs.map fun c => ⟨source, some (.ofChar c), pop, target, push⟩

/-- The automaton that the text defines. -/
def automaton : Automaton where
  states := .ofList [qs, q0, q1, q2]
  inputAlphabet := .ofList ((digits ++ operators ++ ['(', ')', '$']).map .ofChar)
  stackAlphabet := .ofList [Z, P]
  start := qs
  accept := .ofList [q2]
  rules :=
    reading digits qs none q1 [Z] ++ reading ['('] qs none q0 [Z, P] ++
      reading digits q0 none q1 [] ++ reading ['('] q0 none q0 [P] ++
      reading operators q1 none q0 [] ++ reading [')'] q1 (some P) q1 [] ++
      reading ['$'] q1 (some Z) q2 []

/-! ## Loading -/

/-- Rules that read visible characters other than the token for epsilon can be written. -/
theorem writable_reading {cs : List Char} {source target : State} {pop : Option Symbol}
    {push : List Symbol} (hcs : cs.all fun c => !isSpace c && c != 'λ')
    (hsource : IsSlot source.name.toList ∧ ¬ StartsDeclaration source.name.toList)
    (hpop : IsSlot (savedSlot "λ" pop).toList ∧ pop ≠ some ⟨"λ"⟩)
    (htarget : IsSlot target.name.toList) (hpush : IsPush "λ" push) :
    ∀ r ∈ reading cs source pop target push, r.Writable "λ" := by
  intro r hr
  obtain ⟨c, hc, rfl⟩ := List.mem_map.1 hr
  obtain ⟨hspace, hne⟩ : isSpace c = false ∧ c ≠ 'λ' := by
    simpa using List.all_eq_true.1 hcs c hc
  refine ⟨hsource.1, hsource.2, ?_, ?_, hpop.1, hpop.2, htarget, hpush⟩
  · have htext : (savedSlot "λ" (some (Symbol.ofChar c))).toList = [c] := by
      simp [savedSlot, Symbol.ofChar]
    rw [htext]
    exact ⟨⟨by simp, by simpa using hspace⟩, by simp [hasArrow_cons_iff]⟩
  · intro heq
    have hlambda : Symbol.ofChar c = Symbol.ofChar 'λ' := Option.some.inj heq
    exact hne (Symbol.ofChar_injective hlambda)

/-- The names of the automaton are such as a file can hold. -/
theorem loadable : automaton.Loadable "λ" := by
  refine ⟨Automaton.forall_memberNames.2 (by decide), ?_, ?_⟩
  · exact ⟨by decide, by decide, by decide, by decide, by decide⟩
  · have hnone : IsPush "λ" [] := @isPush_pushed "λ" "λ" (by decide)
    have hZ : IsPush "λ" [Z] := @isPush_pushed "λ" "Z" (by decide)
    have hP : IsPush "λ" [P] := @isPush_pushed "λ" "P" (by decide)
    have hZP : IsPush "λ" [Z, P] := @isPush_pushed "λ" "ZP" (by decide)
    simp only [automaton, List.forall_mem_append]
    refine ⟨⟨⟨⟨⟨⟨?_, ?_⟩, ?_⟩, ?_⟩, ?_⟩, ?_⟩, ?_⟩
    all_goals
      refine writable_reading (by decide) (by decide) (by decide) (by decide) ?_
      assumption

set_option maxRecDepth 4000 in
theorem text_eq_save : text = save "λ" automaton := by
  have hlines : text =
      String.ofList ((savedLines "λ" automaton).flatMap (· ++ ['\n'])) := rfl
  rw [← String.toList_inj, toList_save, hlines, String.toList_ofList]

/-- The text loads as the automaton. -/
theorem load_text : ∃ notices, load defaultEpsilon text = .ok ⟨automaton, notices⟩ := by
  have hends : automaton.TrimmedEnds := Automaton.forall_memberNames.2 (by decide)
  obtain ⟨notices, hload⟩ := load_save loadable
  rw [← text_eq_save, hends.trimLast_eq_self] at hload
  exact ⟨notices, hload⟩

end PDA.Expression
