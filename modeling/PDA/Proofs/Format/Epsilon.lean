import PDA.Proofs.Format.Loadable
import PDA.Proofs.Format.Meaning

/-!
# The token for epsilon

The token for epsilon is looked for in three slots of a rule and nowhere else. Two loads of one text under
different tokens report the same faults, and what they give differs at most in slots in which one of the
tokens stands (`load_epsilon`). A token that cannot be a word of a rule stands in no slot.
-/

namespace PDA.Format

open Text

/-- The rules `r` and `s` come from the line under the tokens `e₁` and `e₂`: they have source and target in
common, and they differ in no slot but one that holds a token. -/
def AgreeBut (e₁ e₂ : String) (row : List Char) (r s : Rule) : Prop :=
  r.source = s.source ∧ r.target = s.target ∧
  ∃ left right, row = left ++ arrow ++ right ∧ ¬ HasArrow left ∧ ¬ HasArrow right ∧
    (∃ source read pop ws, words left = source :: read :: pop :: ws ∧
      (r.read ≠ s.read → read = e₁.toList ∨ read = e₂.toList) ∧
      (r.pop ≠ s.pop → pop = e₁.toList ∨ pop = e₂.toList)) ∧
    ∃ target ws, words right = target :: ws ∧
      (r.push ≠ s.push → ws.head? = some e₁.toList ∨ ws.head? = some e₂.toList)

/-- What was loaded under the tokens `e₁` and `e₂` from a text with the given lines is the same but for
slots of rules that hold a token. -/
structure LoadedAlike (e₁ e₂ : String) (rs : List (List Char)) (l₁ l₂ : Loaded) : Prop where
  notices : l₁.notices = l₂.notices
  states : l₁.automaton.states = l₂.automaton.states
  inputAlphabet : l₁.automaton.inputAlphabet = l₂.automaton.inputAlphabet
  stackAlphabet : l₁.automaton.stackAlphabet = l₂.automaton.stackAlphabet
  start : l₁.automaton.start = l₂.automaton.start
  accept : l₁.automaton.accept = l₂.automaton.accept
  length_rules : l₁.automaton.rules.length = l₂.automaton.rules.length
  rules : List.Forall₂ (fun row p => AgreeBut e₁ e₂ row p.1 p.2) (rs.filter (IsRuleText ·))
    (l₁.automaton.rules.zip l₂.automaton.rules)

/-! ## Slots -/

section Slots

variable {e₁ e₂ word : String}

/-- Two tokens only disagree about a word that is one of them. -/
theorem eq_token_of_symbol?_ne (h : RuleLine.symbol? e₁ word ≠ RuleLine.symbol? e₂ word) :
    word = e₁ ∨ word = e₂ := by
  by_contra hword
  obtain ⟨h₁, h₂⟩ := not_or.1 hword
  exact h (by rw [RuleLine.symbol?, RuleLine.symbol?, if_neg h₁, if_neg h₂])

theorem eq_token_of_pushed_ne (h : RuleLine.pushed e₁ word ≠ RuleLine.pushed e₂ word) :
    word = e₁ ∨ word = e₂ := by
  by_contra hword
  obtain ⟨h₁, h₂⟩ := not_or.1 hword
  exact h (by rw [RuleLine.pushed, RuleLine.pushed, if_neg h₁, if_neg h₂])

/-- A rule line means the same under two tokens, but for the words that are one of them. -/
theorem agreeBut_toRule {row : List Char} {rl : RuleLine} (h : Entry.ofText row = .rule rl) :
    AgreeBut e₁ e₂ row (rl.toRule e₁) (rl.toRule e₂) := by
  obtain ⟨-, left, right, hrow, hleft, hright, ⟨ws, hws⟩, ws', hws', hpush⟩ :=
    Entry.ofText_eq_rule_iff_words.1 h
  refine ⟨rfl, rfl, left, right, hrow, hleft, hright, ⟨_, _, _, ws, hws, ?_, ?_⟩, _, ws', hws', ?_⟩
  · intro hne
    simpa only [String.toList_inj] using eq_token_of_symbol?_ne hne
  · intro hne
    simpa only [String.toList_inj] using eq_token_of_symbol?_ne hne
  · intro hne
    cases hp : rl.push with
    | none => simp [RuleLine.toRule, hp] at hne
    | some word =>
      have hword : word = e₁ ∨ word = e₂ := by
        refine eq_token_of_pushed_ne fun heq => hne ?_
        simpa [RuleLine.toRule, hp] using heq
      rw [hp, eq_comm, Option.map_eq_some_iff] at hpush
      obtain ⟨push, hhead, rfl⟩ := hpush
      rw [hhead]
      simpa [← String.toList_inj] using hword

end Slots

/-! ## Loading -/

/-- What loads under both tokens loads alike. -/
theorem loadedAlike_of_load {e₁ e₂ text : String} {l₁ l₂ : Loaded} (h₁ : load e₁ text = .ok l₁)
    (h₂ : load e₂ text = .ok l₂) : LoadedAlike e₁ e₂ (rows text.toList) l₁ l₂ := by
  obtain ⟨start, hstart, hfaults, rfl⟩ := load_eq_ok_iff.1 h₁
  obtain ⟨start', hstart', -, rfl⟩ := load_eq_ok_iff.1 h₂
  obtain rfl : start = start' := Option.some.inj (hstart.symm.trans hstart')
  have hrules := forall₂_ofText_rule (faults_ofText_eq_nil_iff_rows.1 hfaults)
  rw [← entries_eq_map_rows, ← Draft.rules_ofText] at hrules
  refine ⟨rfl, rfl, rfl, rfl, rfl, rfl, ?_, ?_⟩
  · simp [Draft.toAutomaton]
  · simp only [Draft.toAutomaton, List.zip_map', List.forall₂_map_right_iff]
    exact hrules.imp fun _ _ => agreeBut_toRule

/-- A token that cannot be a word of a rule is in no slot that is read or popped. -/
theorem read_pop_ne_none_of_load {epsilon text : String} {loaded : Loaded}
    (h : load epsilon text = .ok loaded) (hepsilon : ¬ IsSlot epsilon.toList) :
    ∀ r ∈ loaded.automaton.rules, r.read ≠ none ∧ r.pop ≠ none := by
  intro r hr
  have hwritable : r.Writable epsilon := (loadable_of_load h).rules r hr
  refine ⟨fun hread => hepsilon ?_, fun hpop => hepsilon ?_⟩
  · have hslot := hwritable.read
    rwa [hread] at hslot
  · have hslot := hwritable.pop
    rwa [hpop] at hslot

/-- **Only slots depend on the token for epsilon.** Whether a text is loaded, and what is wrong with it,
does not depend on the token; what is loaded differs only in slots that hold a token. A token that is
empty or has white space or an arrow in it makes no slot empty. -/
theorem load_epsilon (e₁ e₂ text : String) :
    (∀ faults, load e₁ text = .error faults ↔ load e₂ text = .error faults) ∧
    (∀ l₁ l₂, load e₁ text = .ok l₁ → load e₂ text = .ok l₂ →
      LoadedAlike e₁ e₂ (rows text.toList) l₁ l₂) ∧
    (e₁ = "" ∨ (∃ c ∈ e₁.toList, isSpace c = true) ∨ HasArrow e₁.toList →
      ∀ loaded, load e₁ text = .ok loaded →
        ∀ r ∈ loaded.automaton.rules, r.read ≠ none ∧ r.pop ≠ none) := by
  refine ⟨fun faults => ?_, fun l₁ l₂ h₁ h₂ => loadedAlike_of_load h₁ h₂, fun htoken loaded h => ?_⟩
  · rw [load_eq_error_iff, load_eq_error_iff]
  · refine read_pop_ne_none_of_load h fun hslot => ?_
    rcases htoken with rfl | ⟨c, hc, hspace⟩ | harrow
    · exact hslot.1.1 rfl
    · simp [hslot.1.2 c hc] at hspace
    · exact hslot.2 harrow

/-- The token `x` is a state and a member as well, and there it means nothing. -/
theorem load_epsilon_blank :
    ∃ l₁ l₂, load "" "start_state:x\nstates:x\nx x x -> x x\nx y λ -> x" = .ok l₁ ∧
      load "x" "start_state:x\nstates:x\nx x x -> x x\nx y λ -> x" = .ok l₂ ∧
      l₁.automaton.rules ≠ l₂.automaton.rules ∧
      LoadedAlike "" "x" (rows "start_state:x\nstates:x\nx x x -> x x\nx y λ -> x".toList) l₁ l₂ ∧
      ∀ r ∈ l₁.automaton.rules, r.read ≠ none ∧ r.pop ≠ none := by
  obtain ⟨-, halike, hslots⟩ := load_epsilon "" "x" "start_state:x\nstates:x\nx x x -> x x\nx y λ -> x"
  exact ⟨_, _, rfl, rfl, by decide, halike _ _ rfl rfl, hslots (.inl rfl) _ rfl⟩

end PDA.Format
