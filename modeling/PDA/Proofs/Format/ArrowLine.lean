import PDA.Proofs.Format.Concatenation
import PDA.Proofs.Format.Faults
import PDA.Proofs.Format.RuleLayout

/-!
# Lines with an arrow

A line that shows words of a rule adds the rule that they say to what the rest of the text says. Each other
line that has an arrow and is no declaration is reported once (`load_arrow_line_exact`).
-/

namespace PDA.Format

open Text

/-- The rules that a text holds. -/
def rulesOf (epsilon : String) (cs : List Char) : List Rule :=
  (Draft.ofText cs).rules.toList.map (RuleLine.toRule epsilon)

/-- Line number `n`, between `before` and `after`, adds the rule to what is loaded without the line, and
there is nothing to say about the line. -/
structure AddsRule (epsilon text : String) (n : Nat) (before after : List Char) (rule : Rule) :
    Prop where
  loads_iff : (∃ loaded, load epsilon text = .ok loaded) ↔
    ∃ rest, load epsilon (String.ofList (before ++ after)) = .ok rest
  automaton : ∀ loaded rest, load epsilon text = .ok loaded →
    load epsilon (String.ofList (before ++ after)) = .ok rest →
    rest.automaton.rules = rulesOf epsilon before ++ rulesOf epsilon after ∧
    loaded.automaton = { rest.automaton with
      rules := rulesOf epsilon before ++ rule :: rulesOf epsilon after }
  unnoticed : ∀ loaded, load epsilon text = .ok loaded → ∀ notice ∈ loaded.notices, notice.line ≠ n
  unreported : ∀ faults, load epsilon text = .error faults → n ∉ faults.filterMap Fault.line?

/-! ## What the line adds to the text -/

/-- The lines of two texts are read apart if the second is empty or goes on with a new line. -/
theorem entries_append_of_head? {ds : List Char} (h : ds = [] ∨ ds.head? = some '\n')
    (cs : List Char) : entries (cs ++ ds) = entries cs ++ entries ds := by
  rcases h with rfl | hhead
  · rw [List.append_nil, entries_eq_lineEntries [], List.self_eq_append_right]
    rfl
  · obtain ⟨ds, rfl⟩ := List.head?_eq_some_iff.1 hhead
    have hcut : ∀ cs, entries (cs ++ '\n' :: ds) = entries cs ++ entries ds := by
      intro cs
      simp only [entries_eq_lineEntries, lines, List.splitOn_append_cons_self, lineEntries_append]
    rw [hcut cs, ← List.nil_append ('\n' :: ds), hcut []]
    rfl

theorem entries_singleton {line : List Char} (hnewline : '\n' ∉ line) (h : Text.trim line ≠ []) :
    entries line = [Entry.ofText (Text.trim line)] := by
  rw [entries_eq_lineEntries, lines, List.splitOn_eq_singleton hnewline, lineEntries_cons h]
  rfl

/-- A line that is not blank has one entry of its own, between those of what stands before and after it. -/
theorem entries_of_isLine {cs before line after : List Char} {n : Nat}
    (hline : IsLine cs n before line after) (h : Text.trim line ≠ []) :
    entries cs = entries before ++ Entry.ofText (Text.trim line) :: entries after := by
  rw [hline.eq_append, List.append_assoc, entries_append hline.begins,
    entries_append_of_head? hline.ends, entries_singleton hline.newline_not_mem h,
    List.singleton_append]

section Insert

variable {cs ds : List Char} {es es' : List Entry} {words : RuleLine}

/-- A rule that is put between other lines has no say in what is declared. -/
theorem Draft.Field.get_ofText_insert {α : Type} (f : Field α)
    (hcs : entries cs = es ++ .rule words :: es') (hds : entries ds = es ++ es') :
    f.get (ofText cs) = f.get (ofText ds) := by
  have hrule : declared f.keyword (.rule words :: es') = declared f.keyword es' := rfl
  rw [f.get_ofText, f.get_ofText, hcs, hds, declared_append, declared_append, hrule]

/-- A rule line has no say in which state is the start state. -/
theorem Draft.start?_ofText_insert (hcs : entries cs = es ++ .rule words :: es')
    (hds : entries ds = es ++ es') : (ofText cs).start? = (ofText ds).start? := by
  have hstart : (ofText cs).start = (ofText ds).start := startField.get_ofText_insert hcs hds
  rw [start?, start?, hstart]

/-- One rule line more adds its rule, at its place, and changes nothing else of the automaton. -/
theorem Draft.toAutomaton_ofText_insert (hcs : entries cs = es ++ .rule words :: es')
    (hds : entries ds = es ++ es') (start : State) (epsilon : String) :
    (ofText cs).toAutomaton start epsilon = { (ofText ds).toAutomaton start epsilon with
      rules := (ofText cs).rules.toList.map (RuleLine.toRule epsilon) } := by
  have hstates : (ofText cs).states = (ofText ds).states := statesField.get_ofText_insert hcs hds
  have hinput : (ofText cs).inputAlphabet = (ofText ds).inputAlphabet :=
    inputField.get_ofText_insert hcs hds
  have hstack : (ofText cs).stackAlphabet = (ofText ds).stackAlphabet :=
    stackField.get_ofText_insert hcs hds
  have haccept : (ofText cs).accept = (ofText ds).accept := acceptField.get_ofText_insert hcs hds
  simp only [toAutomaton, hstates, hinput, hstack, haccept]

/-- One rule line more neither makes a fault nor mends one. -/
theorem Draft.faults_ofText_insert (hcs : entries cs = es ++ .rule words :: es')
    (hds : entries ds = es ++ es') :
    (ofText cs).faults.toList = [] ↔ (ofText ds).faults.toList = [] := by
  rw [faults_ofText_eq_nil_iff, faults_ofText_eq_nil_iff, hcs, hds]
  simp

end Insert

/-- A missing start state is a fault of the whole text, and of no line. -/
theorem Draft.filterMap_line?_allFaults (draft : Draft) :
    draft.allFaults.filterMap Fault.line? = draft.faults.toList.filterMap Fault.line? := by
  rw [allFaults, List.filterMap_append]
  split <;> simp [Fault.line?]

section Load

variable {epsilon text : String} {before line after : List Char} {n : Nat}

/-- A line that is read as a rule adds the rule. -/
theorem addsRule_of_entry {words : RuleLine} (hline : IsLine text.toList n before line after)
    (hentry : Entry.ofText (Text.trim line) = .rule words) :
    AddsRule epsilon text n before after (words.toRule epsilon) := by
  have hne : Text.trim line ≠ [] := by
    intro hnil
    rw [hnil] at hentry
    contradiction
  have hcs : entries text.toList = entries before ++ .rule words :: entries after := by
    rw [entries_of_isLine hline hne, hentry]
  have hds : entries (String.ofList (before ++ after)).toList = entries before ++ entries after := by
    rw [String.toList_ofList, entries_append hline.begins]
  have hstart := Draft.start?_ofText_insert hcs hds
  have hfaults := Draft.faults_ofText_insert hcs hds
  refine ⟨?_, ?_, ?_, ?_⟩
  · simp only [load_eq_ok_iff, hstart, hfaults]
    constructor
    · rintro ⟨-, start, h, hnone, -⟩
      exact ⟨_, start, h, hnone, rfl⟩
    · rintro ⟨-, start, h, hnone, -⟩
      exact ⟨_, start, h, hnone, rfl⟩
  · intro loaded rest hloaded hrest
    obtain ⟨start, hs, -, rfl⟩ := load_eq_ok_iff.1 hloaded
    obtain ⟨start', hs', -, rfl⟩ := load_eq_ok_iff.1 hrest
    obtain rfl : start = start' := by
      rw [hstart, hs'] at hs
      exact (Option.some.inj hs).symm
    constructor
    · rw [Draft.toAutomaton, Draft.rules_ofText, hds, List.filterMap_append, List.map_append,
        ← Draft.rules_ofText, ← Draft.rules_ofText]
      rfl
    · rw [Draft.toAutomaton_ofText_insert hcs hds, Draft.rules_ofText, hcs, List.filterMap_append,
        List.filterMap_cons_some (Entry.rule?_eq_some_iff.2 rfl), List.map_append, List.map_cons,
        ← Draft.rules_ofText, ← Draft.rules_ofText]
      rfl
  · intro loaded hloaded
    obtain ⟨start, -, -, rfl⟩ := load_eq_ok_iff.1 hloaded
    have hrule : IsRuleText (Text.trim line) := by
      obtain ⟨hd, left, right, hsplit, -⟩ := Entry.ofText_eq_rule_iff_words.1 hentry
      exact ⟨hd, hsplit ▸ hasArrow_append_arrow left right⟩
    exact (Draft.areNoticesOf_ofText text.toList).silent n before line after hline (.inl hrule)
  · intro faults hfaults hn
    obtain ⟨rfl, -⟩ := load_eq_error_iff.1 hfaults
    rw [Draft.filterMap_line?_allFaults, Draft.mem_line_faults] at hn
    obtain ⟨before', line', after', hline', -, hholds⟩ := hn
    rw [hline'.unique hline] at hholds
    exact hholds (Entry.exists_rule_iff.1 ⟨words, hentry⟩).2

/-- Of faults in the order of their lines a line has no more than one. -/
theorem filter_line?_eq_singleton {faults : List Fault} {f : Fault}
    (h : (faults.filterMap Fault.line?).Pairwise (· < ·)) (hf : f ∈ faults) (hn : f.line? = some n) :
    faults.filter (·.line? = some n) = [f] := by
  obtain ⟨pre, post, rfl⟩ := List.append_of_mem hf
  rw [List.filterMap_append, List.filterMap_cons_some hn, List.pairwise_append,
    List.pairwise_cons] at h
  obtain ⟨-, ⟨hpost, -⟩, hpre⟩ := h
  have hnone : ∀ others : List Fault, n ∉ others.filterMap Fault.line? →
      others.filter (·.line? = some n) = [] := by
    intro others hothers
    refine List.filter_eq_nil_iff.2 fun other hother hline => ?_
    exact hothers (List.mem_filterMap.2 ⟨other, hother, by simpa using hline⟩)
  have hbefore : n ∉ pre.filterMap Fault.line? := fun hmem =>
    lt_irrefl n (hpre n hmem n List.mem_cons_self)
  have hafter : n ∉ post.filterMap Fault.line? := fun hmem => lt_irrefl n (hpost n hmem)
  rw [List.filter_append, List.filter_cons_of_pos (by simpa using hn), hnone pre hbefore,
    hnone post hafter, List.nil_append]

/-- A line that is read as malformed is reported once. -/
theorem load_of_malformed (epsilon : String) {defect : Defect} {span : Span}
    (hline : IsLine text.toList n before line after)
    (hentry : Entry.ofText (Text.trim line) = .malformed defect span) :
    ∃ faults span', load epsilon text = .error faults ∧ faults.filter (·.line? = some n) =
      [.malformedRule n (String.ofList (Text.trim line)) defect span'] := by
  have hne : Text.trim line ≠ [] := by
    intro hnil
    rw [hnil] at hentry
    contradiction
  obtain ⟨read, hread, rfl, htext⟩ := exists_mem_contentLines hline hne
  have hfault : Fault.malformedRule read.number (String.ofList (Text.trim line)) defect
      (span.shift read.offset) ∈ (Draft.ofText text.toList).allFaults := by
    rw [← htext] at hentry ⊢
    exact Draft.mem_allFaults.2 (.inl (Draft.mem_faults_ofText.2
      ⟨read, hread, Entry.fault?_eq_some_iff.2 ⟨defect, span, hentry, rfl⟩⟩))
  have hincreasing : ((Draft.ofText text.toList).allFaults.filterMap Fault.line?).Pairwise
      (· < ·) := by
    rw [Draft.filterMap_line?_allFaults]
    exact Draft.pairwise_line_faults text.toList
  exact ⟨_, _, load_eq_error_iff.2 ⟨rfl, List.ne_nil_of_mem hfault⟩,
    filter_line?_eq_singleton hincreasing hfault rfl⟩

/-- **Lines with an arrow.** Words of a rule add the rule that they say, in whatever layout they stand in
their line. For each other line that has an arrow and is no declaration the text is not loaded, and of the
faults one is about that line, with the one defect that it has. -/
theorem load_arrow_line_exact (epsilon : String) (hline : IsLine text.toList n before line after) :
    (∀ l r, ShowsRule l r line →
      ∃ rule, WordsSay epsilon l r rule ∧ AddsRule epsilon text n before after rule) ∧
    ((∀ l r, ¬ ShowsRule l r line) → HasArrow line → ¬ StartsDeclaration (Text.trim line) →
      ∃ faults defect span, load epsilon text = .error faults ∧
        faults.filter (·.line? = some n) =
          [.malformedRule n (String.ofList (Text.trim line)) defect span] ∧
        ∀ d : Defect, d.IsOf line ↔ d = defect) := by
  constructor
  · intro l r hshows
    obtain ⟨words, hentry, hsay⟩ := hshows.exists_entry
    exact ⟨words.toRule epsilon, hsay epsilon, addsRule_of_entry hline hentry⟩
  · intro hshows harrow hd
    obtain ⟨defect, span, hentry, hof⟩ := exists_isOf hline.newline_not_mem hd harrow hshows
    obtain ⟨faults, span', hload, hfilter⟩ := load_of_malformed epsilon hline hentry
    refine ⟨faults, defect, span', hload, hfilter, fun d => ⟨fun h => h.unique hof, ?_⟩⟩
    rintro rfl
    exact hof

/-- Words that are glued to the arrow and begin or end like it, with wide white space at the margins. -/
def crampedRule : List Char := "\u3000q\u00a0>a  b-->>r xy- z\u2028".toList

/-- A line with two arrows, too few words before them and none behind them. -/
def crampedArrows : List Char := " q\u00a0-->->".toList

theorem showsRule_crampedRule : ShowsRule ["q", ">a", "b-"] [">r", "xy-", "z"] crampedRule := by
  have hleft : Spaced ["q", ">a", "b-"]
      ("q".toList ++ (['\u00a0'] ++ (">a".toList ++ ([' ', ' '] ++ ("b-".toList ++ ([] ++ [])))))) :=
    .cons (by decide) (by simp) (.cons (by decide) (by simp) (.cons (by decide) (by simp) .nil))
  have hright : Spaced [">r", "xy-", "z"]
      (">r".toList ++ ([' '] ++ ("xy-".toList ++ ([' '] ++ ("z".toList ++ (['\u2028'] ++ [])))))) :=
    .cons (by decide) (by simp) (.cons (by decide) (by simp) (.cons (by decide) (by simp) .nil))
  refine ⟨by decide, by decide, by decide, ?_, _, _, ?_, ⟨['\u3000'], _, rfl, by decide, hleft⟩,
    ⟨[], _, rfl, by decide, hright⟩⟩
  · rintro w ⟨⟩
    decide
  · rfl

theorem load_arrow_line_exact_cramped :
    (∃ rule loaded, WordsSay "λ" ["q", ">a", "b-"] [">r", "xy-", "z"] rule ∧
      load "λ" (String.ofList ("start_state:q\n".toList ++ crampedRule)) = .ok loaded ∧
      loaded.automaton.rules = [rule]) ∧
    ∃ faults span, load "λ" (String.ofList ("start_state:q\n".toList ++ crampedArrows)) =
        .error faults ∧ faults.filter (·.line? = some 2) =
          [.malformedRule 2 "q\u00a0-->->" .extraArrow span] := by
  have hline : ∀ line : List Char, '\n' ∉ line → IsLine (String.ofList
      ("start_state:q\n".toList ++ line)).toList 2 "start_state:q\n".toList line [] := fun line h =>
    ⟨by simp, h, .inr rfl, .inl rfl, rfl⟩
  have hrule := (load_arrow_line_exact "λ" (hline crampedRule (by decide))).1
  have harrows := (load_arrow_line_exact "λ" (hline crampedArrows (by decide))).2
  constructor
  · obtain ⟨rule, hsay, hadds⟩ := hrule _ _ showsRule_crampedRule
    obtain ⟨loaded, hloaded⟩ := hadds.loads_iff.2 ⟨_, rfl⟩
    obtain ⟨-, hautomaton⟩ := hadds.automaton loaded _ hloaded rfl
    exact ⟨rule, loaded, hsay, hloaded, by rw [hautomaton]; rfl⟩
  · have hshows : ∀ l r, ¬ ShowsRule l r crampedArrows := by
      intro l r h
      obtain ⟨words, hwords, -⟩ := h.exists_entry
      have hentry : ∃ defect span, Entry.ofText (Text.trim crampedArrows) = .malformed defect span :=
        ⟨_, _, rfl⟩
      obtain ⟨defect, span, hentry⟩ := hentry
      rw [hentry] at hwords
      contradiction
    obtain ⟨faults, defect, span, hload, hfilter, hdefect⟩ :=
      harrows hshows (by decide) (by decide)
    have htwo : Defect.IsOf crampedArrows .extraArrow := ⟨" q\u00a0-".toList, [], [], rfl⟩
    obtain rfl := (hdefect .extraArrow).1 htwo
    exact ⟨faults, span, hload, hfilter⟩

end Load

end PDA.Format
