import PDA.Proofs.Expression.Automaton
import PDA.Proofs.Machine.Reach

/-!
# The language of the automaton for arithmetic expressions

The automaton accepts the expressions of a grammar, each followed by one end marker
(`accepts_iff_derives`). A derivable text takes the machine from `q0` to `q1` and leaves the stack as
it was, whatever is on it (`reach?_of_derives`). The other way round, what has been read tells the
configuration (`HasRead`): there is one `P` on the stack for each parenthesis that is still open.
-/

namespace PDA.Expression

open Format

/-! ## The grammar -/

/-- The nonterminals of the grammar of expressions. -/
inductive Nonterminal
  /-- Terms with operators between them. -/
  | expression
  /-- A digit, or an expression in parentheses. -/
  | term

/-- The texts that can be derived from a nonterminal. -/
inductive Derives : Nonterminal → List Char → Prop
  /-- A term is an expression. -/
  | ofTerm {t : List Char} (ht : Derives .term t) : Derives .expression t
  /-- A term may be put behind an expression, with an operator between them. -/
  | operation {e t : List Char} {o : Char} (he : Derives .expression e) (ho : o ∈ operators)
      (ht : Derives .term t) : Derives .expression (e ++ o :: t)
  /-- A digit is a term. -/
  | digit {d : Char} (hd : d ∈ digits) : Derives .term [d]
  /-- An expression in parentheses is a term. -/
  | parens {e : List Char} (he : Derives .expression e) : Derives .term ('(' :: e ++ [')'])

/-! ## Single steps -/

section Step

variable {st : List Symbol} {c : Char}

/-- Rules that differ in the character only act as one rule for all of their characters. -/
theorem find?_reading (cs : List Char) (source : State) (pop : Option Symbol) (target : State)
    (push : List Symbol) (q : State) (top : Option Symbol) :
    (reading cs source pop target push).find? (fun r => r.Applies q c top) =
      if source = q ∧ c ∈ cs ∧ ∀ s ∈ pop, top = some s then
        some ⟨source, some (.ofChar c), pop, target, push⟩ else none := by
  have happlies : ∀ d, (Rule.mk source (some (.ofChar d)) pop target push).Applies q c top ↔
      source = q ∧ d = c ∧ ∀ s ∈ pop, top = some s := by
    intro d
    simp [Rule.Applies, Rule.Reads, Rule.Pops, Symbol.IsChar]
  induction cs with
  | nil => simp [reading]
  | cons d cs ih =>
    rw [reading, List.map_cons, ← reading]
    by_cases hd : (Rule.mk source (some (.ofChar d)) pop target push).Applies q c top
    · obtain ⟨hsource, rfl, hpop⟩ := (happlies d).1 hd
      rw [List.find?_cons_of_pos (by simpa using hd), if_pos ⟨hsource, List.mem_cons_self, hpop⟩]
    · rw [List.find?_cons_of_neg (by simpa using hd), ih]
      refine if_congr (and_congr_right fun hsource => and_congr_left fun hpop => ?_) rfl rfl
      have hne : c ≠ d := fun h => hd ((happlies d).2 ⟨hsource, h.symm, hpop⟩)
      simp [hne]

theorem find?_reading_of_ne {source q : State} (h : source ≠ q) (cs : List Char)
    (pop : Option Symbol) (target : State) (push : List Symbol) (top : Option Symbol) :
    (reading cs source pop target push).find? (fun r => r.Applies q c top) = none := by
  rw [find?_reading, if_neg fun hand => h hand.1]

theorem next?_eq_map_find? (k : Configuration) :
    automaton.next? k c = (automaton.rules.find? fun r => r.Applies k.state c k.top).map k.take := rfl

/-- Before the first character, a digit or an opening parenthesis puts the bottom symbol on the stack. -/
theorem next?_qs : automaton.next? ⟨qs, st⟩ c =
    if c ∈ digits then some ⟨q1, st ++ [Z]⟩
    else if c = '(' then some ⟨q0, st ++ [Z, P]⟩ else none := by
  have h0 : q0 ≠ qs := by decide
  have h1 : q1 ≠ qs := by decide
  rw [next?_eq_map_find?, automaton]
  simp only [List.find?_append, find?_reading_of_ne h0, find?_reading_of_ne h1, Option.or_none]
  simp only [find?_reading, true_and, Option.not_mem_none, false_imp_iff, implies_true, and_true,
    List.mem_singleton]
  split_ifs <;> rfl

/-- Where a term is due, a digit ends it and an opening parenthesis is pushed. -/
theorem next?_q0 : automaton.next? ⟨q0, st⟩ c =
    if c ∈ digits then some ⟨q1, st⟩
    else if c = '(' then some ⟨q0, st ++ [P]⟩ else none := by
  have hs : qs ≠ q0 := by decide
  have h1 : q1 ≠ q0 := by decide
  rw [next?_eq_map_find?, automaton]
  simp only [List.find?_append, find?_reading_of_ne hs, find?_reading_of_ne h1, Option.or_none,
    Option.none_or]
  simp only [find?_reading, true_and, Option.not_mem_none, false_imp_iff, implies_true, and_true,
    List.mem_singleton]
  split_ifs <;> simp [Configuration.take]

/-- After a term, an operator asks for the next, a closing parenthesis pops its opening one, and the end
marker pops the bottom symbol. -/
theorem next?_q1 : automaton.next? ⟨q1, st⟩ c =
    if c ∈ operators then some ⟨q0, st⟩
    else if c = ')' ∧ st.getLast? = some P then some ⟨q1, st.dropLast⟩
    else if c = '$' ∧ st.getLast? = some Z then some ⟨q2, st.dropLast⟩ else none := by
  have hs : qs ≠ q1 := by decide
  have h0 : q0 ≠ q1 := by decide
  rw [next?_eq_map_find?, automaton]
  simp only [List.find?_append, find?_reading_of_ne hs, find?_reading_of_ne h0, Option.or_none,
    Option.none_or]
  simp only [find?_reading, true_and, Option.not_mem_none, false_imp_iff, implies_true, and_true,
    List.mem_singleton, Option.mem_some_iff, forall_eq']
  rw [Configuration.top]
  by_cases hop : c ∈ operators
  · simp only [if_pos hop, Option.some_or, Option.map_some, Configuration.take]
    simp
  by_cases hclose : c = ')' ∧ st.getLast? = some P
  · simp only [if_neg hop, if_pos hclose, Option.none_or, Option.some_or, Option.map_some,
      Configuration.take]
    simp
  by_cases hend : c = '$' ∧ st.getLast? = some Z
  · simp only [if_neg hop, if_neg hclose, if_pos hend, Option.none_or, Option.map_some,
      Configuration.take]
    simp
  · simp only [if_neg hop, if_neg hclose, if_neg hend, Option.none_or, Option.map_none]

/-- Nothing is read after the end marker. -/
theorem next?_q2 : automaton.next? ⟨q2, st⟩ c = none := by
  have hs : qs ≠ q2 := by decide
  have h0 : q0 ≠ q2 := by decide
  have h1 : q1 ≠ q2 := by decide
  rw [next?_eq_map_find?, automaton]
  simp only [List.find?_append, find?_reading_of_ne hs, find?_reading_of_ne h0,
    find?_reading_of_ne h1, Option.or_none, Option.map_none]

end Step

/-! ## Derivable texts are read -/

/-- A derivable text is read as one operand, and what was on the stack before is not looked at. -/
theorem reach?_of_derives {n : Nonterminal} {cs : List Char} (h : Derives n cs)
    (st : List Symbol) : automaton.reach? ⟨q0, st⟩ cs = some ⟨q1, st⟩ := by
  induction h generalizing st with
  | ofTerm _ ih => exact ih st
  | @operation e t o he ho ht ihe iht =>
    have hop : automaton.next? ⟨q1, st⟩ o = some ⟨q0, st⟩ := by rw [next?_q1, if_pos ho]
    rw [Automaton.reach?_append_of_some (ihe st), Automaton.reach?_cons, hop, Option.bind_some]
    exact iht st
  | digit hd => rw [Automaton.reach?_singleton, next?_q0, if_pos hd]
  | @parens e he ih =>
    have hopen : automaton.next? ⟨q0, st⟩ '(' = some ⟨q0, st ++ [P]⟩ := by
      rw [next?_q0, if_neg (by decide), if_pos rfl]
    have hclose : automaton.next? ⟨q1, st ++ [P]⟩ ')' = some ⟨q1, st⟩ := by
      rw [next?_q1, if_neg (by decide), if_pos ⟨rfl, by simp⟩, List.dropLast_concat]
    rw [List.cons_append, Automaton.reach?_cons, hopen, Option.bind_some,
      Automaton.reach?_append_of_some (ih (st ++ [P])), Automaton.reach?_singleton, hclose]

/-- The first step is made as if the bottom of the stack were there already. -/
theorem reach?_initial {cs : List Char} (h : cs ≠ []) :
    automaton.reach? automaton.initial cs = automaton.reach? ⟨q0, [Z]⟩ cs := by
  cases cs with
  | nil => exact absurd rfl h
  | cons c cs =>
    have hnext : automaton.next? automaton.initial c = automaton.next? ⟨q0, [Z]⟩ c :=
      next?_qs.trans next?_q0.symm
    rw [Automaton.reach?_cons, hnext, Automaton.reach?_cons]

/-- An expression and the end marker are read to the end, and leave the stack empty. -/
theorem reach?_expression {e : List Char} (he : Derives .expression e) :
    automaton.reach? automaton.initial (e ++ ['$']) = some ⟨q2, []⟩ := by
  have hend : automaton.next? ⟨q1, [Z]⟩ '$' = some ⟨q2, []⟩ := by
    rw [next?_q1, if_neg (by decide), if_neg (by simp), if_pos ⟨rfl, rfl⟩]
    rfl
  rw [reach?_initial (by simp), Automaton.reach?_append_of_some (reach?_of_derives he [Z]),
    Automaton.reach?_singleton, hend]

/-! ## What is read is derivable -/

/-- What may stand before a term in an expression. -/
def Lead (l : List Char) : Prop :=
  l = [] ∨ ∃ e o, Derives .expression e ∧ o ∈ operators ∧ l = e ++ [o]

theorem Lead.derives {l t : List Char} (hl : Lead l) (ht : Derives .term t) :
    Derives .expression (l ++ t) := by
  rcases hl with rfl | ⟨e, o, he, ho, rfl⟩
  · exact .ofTerm ht
  · rw [List.append_assoc, List.singleton_append]
    exact .operation he ho ht

/-- The text stops where an expression may begin, with `n` parentheses open. -/
inductive Opened : Nat → List Char → Prop
  | start : Opened 0 []
  | next {n : Nat} {p l : List Char} (hp : Opened n p) (hl : Lead l) :
      Opened (n + 1) (p ++ l ++ ['('])

/-- The stack on which `n` parentheses are open. -/
def nested (n : Nat) : List Symbol := Z :: List.replicate n P

theorem nested_succ (n : Nat) : nested (n + 1) = nested n ++ [P] := by
  rw [nested, List.replicate_succ', nested, List.cons_append]

/-- What can have been read when the machine is in a configuration. -/
inductive HasRead : Configuration → List Char → Prop
  | start : HasRead ⟨qs, []⟩ []
  | operand {n : Nat} {p l : List Char} (hp : Opened n p) (hl : Lead l) :
      HasRead ⟨q0, nested n⟩ (p ++ l)
  | operator {n : Nat} {p e : List Char} (hp : Opened n p) (he : Derives .expression e) :
      HasRead ⟨q1, nested n⟩ (p ++ e)
  | finished {e : List Char} (he : Derives .expression e) : HasRead ⟨q2, []⟩ (e ++ ['$'])

/-- A closing parenthesis makes a term of what was read since the last one was opened. -/
theorem HasRead.close {n : Nat} {p e : List Char} (hp : Opened n p) (he : Derives .expression e)
    (htop : (nested n).getLast? = some P) :
    HasRead ⟨q1, (nested n).dropLast⟩ (p ++ e ++ [')']) := by
  cases hp with
  | start => exact absurd htop (by decide)
  | @next n p l hp hl =>
    have hread := HasRead.operator hp (hl.derives (.parens he))
    rw [nested_succ, List.dropLast_concat]
    simpa using hread

/-- The end marker is read only if no parenthesis is open. -/
theorem HasRead.finish {n : Nat} {p e : List Char} (hp : Opened n p) (he : Derives .expression e)
    (htop : (nested n).getLast? = some Z) :
    HasRead ⟨q2, (nested n).dropLast⟩ (p ++ e ++ ['$']) := by
  cases hp with
  | start => exact .finished he
  | @next n p l hp hl =>
    rw [nested_succ, List.getLast?_concat] at htop
    exact absurd htop (by decide)

/-- A step keeps track of what has been read. -/
theorem HasRead.step {k k' : Configuration} {cs : List Char} {c : Char} (h : HasRead k cs)
    (hnext : automaton.next? k c = some k') : HasRead k' (cs ++ [c]) := by
  cases h with
  | start =>
    rw [next?_qs] at hnext
    split_ifs at hnext with hd hopen
    · obtain rfl := Option.some.inj hnext
      exact .operator .start (.ofTerm (.digit hd))
    · obtain rfl := Option.some.inj hnext
      subst hopen
      exact .operand (.next .start (.inl rfl)) (.inl rfl)
  | @operand n p l hp hl =>
    rw [next?_q0] at hnext
    split_ifs at hnext with hd hopen
    · obtain rfl := Option.some.inj hnext
      rw [List.append_assoc]
      exact .operator hp (hl.derives (.digit hd))
    · obtain rfl := Option.some.inj hnext
      subst hopen
      rw [← nested_succ, ← List.append_nil (p ++ l ++ ['('])]
      exact .operand (.next hp hl) (.inl rfl)
  | @operator n p e hp he =>
    rw [next?_q1] at hnext
    split_ifs at hnext with ho hclose hend
    · obtain rfl := Option.some.inj hnext
      rw [List.append_assoc]
      exact .operand hp (.inr ⟨e, c, he, ho, rfl⟩)
    · obtain rfl := Option.some.inj hnext
      obtain ⟨rfl, htop⟩ := hclose
      exact .close hp he htop
    · obtain rfl := Option.some.inj hnext
      obtain ⟨rfl, htop⟩ := hend
      exact .finish hp he htop
  | finished => simp [next?_q2] at hnext

/-- Wherever the machine is, it has read what `HasRead` says of that configuration. -/
theorem HasRead.of_reach? {k : Configuration} {cs : List Char}
    (h : automaton.reach? automaton.initial cs = some k) : HasRead k cs := by
  have hstep : ∀ k k' cs c, HasRead k cs → automaton.next? k c = some k' → HasRead k' (cs ++ [c]) :=
    fun _ _ _ _ hk hnext => hk.step hnext
  exact Automaton.reach?_induction hstep HasRead.start h

/-- Where the automaton accepts, it has read an expression and the end marker. -/
theorem HasRead.eq_finished {k : Configuration} {cs : List Char} (h : HasRead k cs)
    (hk : automaton.Accepting k.state) :
    k = ⟨q2, []⟩ ∧ ∃ e, Derives .expression e ∧ cs = e ++ ['$'] := by
  cases h with
  | start => exact absurd hk (by decide)
  | operand => exact absurd hk (show ¬ automaton.Accepting q0 by decide)
  | operator => exact absurd hk (show ¬ automaton.Accepting q1 by decide)
  | finished he => exact ⟨rfl, _, he, rfl⟩

/-! ## The language -/

theorem accepts_iff_reach?_q2 {w : String} :
    automaton.Accepts w ↔ automaton.reach? automaton.initial w.toList = some ⟨q2, []⟩ := by
  rw [Automaton.accepts_iff_reach?]
  constructor
  · rintro ⟨k, hreach, hk⟩
    obtain ⟨rfl, -⟩ := (HasRead.of_reach? hreach).eq_finished hk
    exact hreach
  · intro hreach
    exact ⟨_, hreach, show automaton.Accepting q2 by decide⟩

/-- **Language of the automaton.** The text of the definition is loaded as an automaton that accepts
the expressions of the grammar, each followed by one end marker, and nothing else. When it accepts,
nothing is left on its stack. -/
theorem accepts_iff_derives :
    ∃ loaded, load defaultEpsilon text = .ok loaded ∧ ∀ w : String,
      (loaded.automaton.Accepts w ↔ ∃ e, Derives .expression e ∧ w.toList = e ++ ['$']) ∧
      (loaded.automaton.Accepts w ↔
        (loaded.automaton.process w).trace.getLast? = some (.final ⟨q2, []⟩)) := by
  obtain ⟨notices, hload⟩ := load_text
  refine ⟨_, hload, fun w => ⟨?_, ?_⟩⟩
  · rw [accepts_iff_reach?_q2]
    constructor
    · intro hreach
      exact ((HasRead.of_reach? hreach).eq_finished (show automaton.Accepting q2 by decide)).2
    · rintro ⟨e, he, hw⟩
      rw [hw, reach?_expression he]
  · rw [accepts_iff_reach?_q2, Automaton.getLast?_trace_process_eq_final_iff]

end PDA.Expression
