import Mathlib.Data.List.Forall2
import PDA.Proofs.OrderedSet
import PDA.Proofs.Format.Draft

/-!
# What a text means

The meaning of a text is told without reading it line by line. Of the declarations of a keyword the
last one counts (`lastValue?`), and each line that is meant as a rule says one (`Says`), wherever the
declarations stand. A text is loaded exactly if all lines that are meant as rules hold one and the last
start state is not blank, and then as the automaton that it describes (`load_describes`).
-/

namespace PDA.Format

open Text

/-- The lines of a text without their margins, blank ones left out. -/
def rows (cs : List Char) : List (List Char) := ((lines cs).map Text.trim).filter (!·.isEmpty)

/-- The value that the last declaration of the keyword gives. -/
def lastValue? (k : Keyword) (rs : List (List Char)) : Option (List Char) :=
  (rs.filter (k.head <+: ·)).getLast?.map (declaredValue k)

/-- The members that the last declaration of the keyword lists, blanks and all. -/
def lastMembers (k : Keyword) (rs : List (List Char)) : List String :=
  (lastValue? k rs).elim [] fun value => (value.splitOn ',').map String.ofList

/-- The line says the rule `r` when `epsilon` denotes epsilon. -/
def Says (epsilon : String) (row : List Char) (r : Rule) : Prop :=
  ∃ left right, row = left ++ arrow ++ right ∧ ¬ HasArrow left ∧ ¬ HasArrow right ∧
    (∃ read pop ws, words left = r.source.name.toList :: read :: pop :: ws ∧
      r.read = (if read = epsilon.toList then none else some ⟨String.ofList read⟩) ∧
      r.pop = (if pop = epsilon.toList then none else some ⟨String.ofList pop⟩)) ∧
    ∃ ws, words right = r.target.name.toList :: ws ∧
      r.push = ws.head?.elim [] fun push =>
        if push = epsilon.toList then [] else push.map Symbol.ofChar

/-- The lines describe the automaton when `epsilon` denotes epsilon. -/
structure Describes (epsilon : String) (rs : List (List Char)) (A : Automaton) : Prop where
  start : ∃ value, lastValue? .startState rs = some value ∧ A.start.name.toList = Text.trim value
  states : A.states.toList = ((lastMembers .states rs).map State.mk).eraseDups
  inputAlphabet : A.inputAlphabet.toList = ((lastMembers .inputSymbols rs).map Symbol.mk).eraseDups
  stackAlphabet : A.stackAlphabet.toList = ((lastMembers .stackSymbols rs).map Symbol.mk).eraseDups
  accept : A.accept.toList = ((lastMembers .acceptStates rs).map State.mk).eraseDups
  rules : List.Forall₂ (Says epsilon) (rs.filter (IsRuleText ·)) A.rules

/-! ## Declarations -/

/-- What is read of a text is read row by row. -/
theorem entries_eq_map_rows (cs : List Char) : entries cs = (rows cs).map Entry.ofText :=
  entries_eq_lineEntries cs

theorem declared_map_ofText (k : Keyword) (rs : List (List Char)) :
    declared k (rs.map Entry.ofText) = (rs.filter (k.head <+: ·)).map (declaredValue k) := by
  rw [declared, List.filterMap_map, ← List.filterMap_eq_map, List.filterMap_filter]
  refine List.filterMap_congr fun row _ => ?_
  have hvalue : ∀ value, (Entry.ofText row).value? k = some value ↔
      k.head <+: row ∧ declaredValue k row = value := by
    intro value
    rw [Entry.value?_eq_some_iff, Entry.ofText_eq_declaration_iff, declaration?_eq_some_iff_head]
  refine Option.ext fun value => ?_
  rw [Function.comp_apply, hvalue]
  by_cases hk : k.head <+: row <;> simp [hk]

/-- The last declaration of a keyword is the one that counts. -/
theorem getLast?_declared_entries (k : Keyword) (cs : List Char) :
    (declared k (entries cs)).getLast? = lastValue? k (rows cs) := by
  rw [entries_eq_map_rows, declared_map_ofText, List.getLast?_map, lastValue?]

/-- A set has the names of its last line, the first time each stands there, and is empty if there is no line.
-/
theorem Draft.toList_getD_field {α : Type} [DecidableEq α] (f : Draft.Field (OrderedSet α))
    (mk : String → α) (hf : ∀ value, f.ofValue value = .ofList ((members value).map mk))
    (cs : List Char) :
    ((f.get (Draft.ofText cs)).getD ∅).toList =
      ((lastMembers f.keyword (rows cs)).map mk).eraseDups := by
  rw [f.get_ofText, getLast?_declared_entries, lastMembers]
  cases lastValue? f.keyword (rows cs) with
  | none => rfl
  | some value =>
    rw [Option.map_some, Option.getD_some, hf, OrderedSet.toList_ofList]
    rfl

/-- The start state is what the last line for it holds, which is not blank. -/
theorem Draft.start?_ofText_eq_some_iff {cs : List Char} {q : State} :
    (Draft.ofText cs).start? = some q ↔ ∃ value, lastValue? .startState (rows cs) = some value ∧
      Text.trim value ≠ [] ∧ q.name.toList = Text.trim value := by
  have hstart : (Draft.ofText cs).start =
      (lastValue? .startState (rows cs)).map fun value => String.ofList (Text.trim value) := by
    rw [← getLast?_declared_entries]
    exact Draft.startField.get_ofText cs
  rw [Draft.start?, hstart]
  cases lastValue? .startState (rows cs) with
  | none => simp
  | some value =>
    obtain ⟨name⟩ := q
    rw [Option.map_some, Option.filter_some]
    by_cases hvalue : Text.trim value = []
    · simp [hvalue]
    · have hname : String.ofList (Text.trim value) = name ↔ name.toList = Text.trim value := by
        rw [← String.toList_inj, String.toList_ofList, eq_comm]
      simp [hvalue, hname]

/-! ## Rules -/

/-- The rule that is read from a row is the one that the row says. -/
theorem says_toRule {epsilon : String} {row : List Char} {words : RuleLine}
    (h : Entry.ofText row = .rule words) : Says epsilon row (words.toRule epsilon) := by
  obtain ⟨-, left, right, hrow, hleft, hright, ⟨ws, hws⟩, ws', hws', hpush⟩ :=
    Entry.ofText_eq_rule_iff_words.1 h
  have hslot : ∀ word : String, RuleLine.symbol? epsilon word =
      if word.toList = epsilon.toList then none else some ⟨String.ofList word.toList⟩ := by
    intro word
    simp only [RuleLine.symbol?, String.toList_inj, String.ofList_toList]
  refine ⟨left, right, hrow, hleft, hright, ⟨_, _, ws, hws, hslot _, hslot _⟩, ws', hws', ?_⟩
  rw [RuleLine.toRule, hpush]
  cases ws' with
  | nil => rfl
  | cons push ws' =>
    simp [RuleLine.pushed, ← String.toList_inj]

/-- If every line that is meant as a rule holds one, the words that are read are those of these lines. -/
theorem forall₂_ofText_rule {rs : List (List Char)}
    (h : ∀ row ∈ rs, IsRuleText row → HoldsRule row) :
    List.Forall₂ (fun row words => Entry.ofText row = .rule words) (rs.filter (IsRuleText ·))
      ((rs.map Entry.ofText).filterMap Entry.rule?) := by
  induction rs with
  | nil => exact List.Forall₂.nil
  | cons row rs ih =>
    obtain ⟨hrow, hrs⟩ := List.forall_mem_cons.1 h
    rw [List.map_cons, List.filterMap_cons]
    by_cases hrule : IsRuleText row
    · obtain ⟨words, hwords⟩ := Entry.exists_rule_iff.2 ⟨hrule.1, hrow hrule⟩
      rw [List.filter_cons_of_pos (by simpa using hrule), hwords]
      exact List.Forall₂.cons hwords (ih hrs)
    · have hnone : (Entry.ofText row).rule? = none := by
        rw [Option.eq_none_iff_forall_ne_some]
        intro words hwords
        obtain ⟨hd, left, right, hline, -⟩ :=
          Entry.ofText_eq_rule_iff_words.1 (Entry.rule?_eq_some_iff.1 hwords)
        exact hrule ⟨hd, hline ▸ hasArrow_append_arrow left right⟩
      rw [List.filter_cons_of_neg (by simpa using hrule), hnone]
      exact ih hrs

/-- The rules are those that the lines say. -/
theorem forall₂_says (epsilon : String) {rs : List (List Char)}
    (h : ∀ row ∈ rs, IsRuleText row → HoldsRule row) :
    List.Forall₂ (Says epsilon) (rs.filter (IsRuleText ·))
      (((rs.map Entry.ofText).filterMap Entry.rule?).map (RuleLine.toRule epsilon)) :=
  List.forall₂_map_right_iff.2 ((forall₂_ofText_rule h).imp fun _ _ => says_toRule)

/-! ## Loading -/

/-- No line is a fault exactly if each row that is meant as a rule holds one. -/
theorem faults_ofText_eq_nil_iff_rows {cs : List Char} :
    (Draft.ofText cs).faults.toList = [] ↔ ∀ row ∈ rows cs, IsRuleText row → HoldsRule row := by
  rw [Draft.faults_ofText_eq_nil_iff, entries_eq_map_rows]
  constructor
  · intro h row hrow hrule
    by_contra hholds
    obtain ⟨defect, span, hentry⟩ := Entry.exists_malformed_iff.2 ⟨hrule, hholds⟩
    exact h defect span (List.mem_map.2 ⟨row, hrow, hentry⟩)
  · intro h defect span hmem
    obtain ⟨row, hrow, hentry⟩ := List.mem_map.1 hmem
    obtain ⟨hrule, hholds⟩ := Entry.exists_malformed_iff.1 ⟨defect, span, hentry⟩
    exact hholds (h row hrow hrule)

/-- **Meaning of a text.** A text is loaded exactly if each line that is meant as a rule holds one and
the last start state that is declared is not blank. What is loaded is what the lines describe. -/
theorem load_describes (epsilon text : String) :
    ((∃ loaded, load epsilon text = .ok loaded) ↔
      (∀ row ∈ rows text.toList, IsRuleText row → HoldsRule row) ∧
        ∃ value, lastValue? .startState (rows text.toList) = some value ∧ Text.trim value ≠ []) ∧
    ∀ loaded, load epsilon text = .ok loaded →
      Describes epsilon (rows text.toList) loaded.automaton := by
  constructor
  · constructor
    · rintro ⟨loaded, hload⟩
      obtain ⟨start, hstart, hfaults, -⟩ := load_eq_ok_iff.1 hload
      obtain ⟨value, hvalue, hne, -⟩ := Draft.start?_ofText_eq_some_iff.1 hstart
      exact ⟨faults_ofText_eq_nil_iff_rows.1 hfaults, value, hvalue, hne⟩
    · rintro ⟨hrules, value, hvalue, hne⟩
      have hstart : (Draft.ofText text.toList).start? = some ⟨String.ofList (Text.trim value)⟩ :=
        Draft.start?_ofText_eq_some_iff.2 ⟨value, hvalue, hne, String.toList_ofList⟩
      exact ⟨_, load_eq_ok_iff.2 ⟨_, hstart, faults_ofText_eq_nil_iff_rows.2 hrules, rfl⟩⟩
  · intro loaded hload
    obtain ⟨start, hstart, hfaults, rfl⟩ := load_eq_ok_iff.1 hload
    obtain ⟨value, hvalue, -, hname⟩ := Draft.start?_ofText_eq_some_iff.1 hstart
    refine ⟨⟨value, hvalue, hname⟩, ?_, ?_, ?_, ?_, ?_⟩
    · exact Draft.toList_getD_field Draft.statesField State.mk (fun _ => rfl) text.toList
    · exact Draft.toList_getD_field Draft.inputField Symbol.mk (fun _ => rfl) text.toList
    · exact Draft.toList_getD_field Draft.stackField Symbol.mk (fun _ => rfl) text.toList
    · exact Draft.toList_getD_field Draft.acceptField State.mk (fun _ => rfl) text.toList
    · have hrules := forall₂_says epsilon (faults_ofText_eq_nil_iff_rows.1 hfaults)
      rw [← entries_eq_map_rows, ← Draft.rules_ofText] at hrules
      exact hrules

/-- The last declarations count, one of them with an arrow and both with a second colon, a rule may
have a colon, and a line that says nothing does no harm. -/
theorem load_describes_redeclared :
    ∃ loaded, load "x" ("start_state:\nstates:a,b,a\r\nq x Z -> r a:b\n\n hello\n" ++
        "states:q,r,q,q -> r:s\nstart_state: q :s") = .ok loaded ∧
      loaded.automaton = {
        states := .ofList [⟨"q"⟩, ⟨"r"⟩, ⟨"q -> r"⟩]
        start := ⟨"q"⟩
        rules := [⟨⟨"q"⟩, none, some ⟨"Z"⟩, ⟨"r"⟩, [⟨"a"⟩, ⟨":"⟩, ⟨"b"⟩]⟩] } ∧
      Describes "x" (rows ("start_state:\nstates:a,b,a\r\nq x Z -> r a:b\n\n hello\n" ++
        "states:q,r,q,q -> r:s\nstart_state: q :s").toList) loaded.automaton :=
  ⟨_, rfl, rfl, (load_describes _ _).2 _ rfl⟩

end PDA.Format
