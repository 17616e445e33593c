import PDA.Format.Load
import PDA.Proofs.Format.Entry
import PDA.Proofs.Text.Line

/-!
# What a text declares, whatever the order of its lines

A draft is filled line by line, but each of its fields can be told from all lines at once: a declared
field holds the last value that is declared for its keyword (`Draft.Field.get_ofText`), the rules and
the faults are those of the single lines, in order. A text is loaded exactly if there are no faults
and its last start state is not blank (`load_eq_ok_iff`).
-/

namespace PDA.Format

open Text

/-- The value that an entry declares for a keyword. -/
def Entry.value? (keyword : Keyword) : Entry → Option (List Char)
  | .declaration k value => if k = keyword then some value else none
  | _ => none

/-- The rule that an entry holds. -/
def Entry.rule? : Entry → Option RuleLine
  | .rule words => some words
  | _ => none

/-- The fault of the entry of a line. -/
def Entry.fault? (line : Line) : Entry → Option Fault
  | .malformed defect span =>
    some (.malformedRule line.number (String.ofList line.text) defect (span.shift line.offset))
  | _ => none

/-- What the lines of a text are, blank ones left out. -/
def entries (cs : List Char) : List Entry := (contentLines cs).map fun line => Entry.ofText line.text

/-- The values that entries declare for a keyword, in order. -/
def declared (keyword : Keyword) (es : List Entry) : List (List Char) :=
  es.filterMap (Entry.value? keyword)

theorem Entry.value?_eq_some_iff {keyword : Keyword} {e : Entry} {value : List Char} :
    e.value? keyword = some value ↔ e = .declaration keyword value := by
  cases e <;> simp [Entry.value?]

theorem declared_append (k : Keyword) (es es' : List Entry) :
    declared k (es ++ es') = declared k es ++ declared k es' := List.filterMap_append

theorem Entry.rule?_eq_some_iff {e : Entry} {words : RuleLine} :
    e.rule? = some words ↔ e = .rule words := by
  cases e <;> simp [Entry.rule?]

/-- A line is a fault exactly if it is a malformed rule; the fault tells its number, its text and the part
that is shown. -/
theorem Entry.fault?_eq_some_iff {line : Line} {e : Entry} {f : Fault} : e.fault? line = some f ↔
    ∃ defect span, e = .malformed defect span ∧
      f = .malformedRule line.number (String.ofList line.text) defect (span.shift line.offset) := by
  cases e <;> simp [Entry.fault?, eq_comm]

/-- A line has a value for a keyword exactly if it begins with the keyword and a colon. -/
theorem Entry.isSome_value?_ofText_iff {k : Keyword} {cs : List Char} :
    ((Entry.ofText cs).value? k).isSome = true ↔ k.head <+: cs := by
  rw [Option.isSome_iff_exists]
  simp only [Entry.value?_eq_some_iff, Entry.ofText_eq_declaration_iff,
    declaration?_eq_some_iff_head, exists_and_left, exists_eq', and_true]

/-! ## Lines that are read -/

/-- A line that is read is one of the text, without its margins. -/
theorem exists_isLine_of_mem_contentLines {cs : List Char} {line : Line}
    (h : line ∈ contentLines cs) :
    ∃ before raw after, IsLine cs line.number before raw after ∧ line.text = Text.trim raw ∧
      line.text ≠ [] ∧ line.offset = byteLength before + byteLength (raw.takeWhile isSpace) := by
  obtain ⟨hline, hne⟩ := List.mem_filter.1 h
  obtain ⟨raw, hraw, rfl⟩ := List.mem_map.1 hline
  obtain ⟨before, after, hisLine, hoffset⟩ := isLine_of_mem_ofText hraw
  refine ⟨before, raw.text, after, hisLine, rfl, ?_, ?_⟩
  · simpa [Line.isEmpty] using hne
  · rw [Line.trim, hoffset]

/-- A line that is not blank is read, under its number and without the white space around it. -/
theorem exists_mem_contentLines {cs before raw after : List Char} {n : Nat}
    (h : IsLine cs n before raw after) (hne : Text.trim raw ≠ []) :
    ∃ line ∈ contentLines cs, line.number = n ∧ line.text = Text.trim raw := by
  obtain ⟨line, hline, rfl, rfl⟩ := h.mem_ofText
  refine ⟨line.trim, List.mem_filter.2 ⟨List.mem_map_of_mem hline, ?_⟩, rfl, rfl⟩
  simpa [Line.isEmpty, Line.trim] using hne

/-- A line that is read has no line break, and no white space around it. -/
theorem mem_contentLines {cs : List Char} {line : Line} (h : line ∈ contentLines cs) :
    '\n' ∉ line.text ∧ NoLeadingSpace line.text ∧ NoTrailingSpace line.text := by
  obtain ⟨before, raw, after, hisLine, htext, -, -⟩ := exists_isLine_of_mem_contentLines h
  rw [htext]
  exact ⟨fun hmem => hisLine.newline_not_mem ((trim_isInfix raw).subset hmem),
    noLeadingSpace_trim raw, noTrailingSpace_trim raw⟩

/-- The lines are read from top to bottom. -/
theorem pairwise_number_contentLines (cs : List Char) :
    (contentLines cs).Pairwise fun a b => a.number < b.number := by
  have hlines : ((Line.ofText cs).map Line.trim).Pairwise fun a b => a.number < b.number :=
    List.pairwise_map.2 (pairwise_number_locate (lines cs) 1 0)
  exact hlines.filter _

/-- Of the lines that are read, those before a line are those of smaller numbers. -/
theorem mem_before_iff {cs : List Char} {pre post : List Line} {line earlier : Line}
    (h : contentLines cs = pre ++ line :: post) :
    earlier ∈ pre ↔ earlier ∈ contentLines cs ∧ earlier.number < line.number := by
  have hsorted := pairwise_number_contentLines cs
  rw [h, List.pairwise_append, List.pairwise_cons] at hsorted
  obtain ⟨-, ⟨hafter, -⟩, hbefore⟩ := hsorted
  rw [h, List.mem_append, List.mem_cons]
  constructor
  · intro hpre
    exact ⟨.inl hpre, hbefore earlier hpre line List.mem_cons_self⟩
  · rintro ⟨hpre | rfl | hpost, hlt⟩
    · exact hpre
    · exact absurd hlt (lt_irrefl _)
    · exact absurd hlt (lt_asymm (hafter earlier hpost))

/-- What lines are, given their texts. -/
def lineEntries (ls : List (List Char)) : List Entry :=
  ((ls.map Text.trim).filter (!·.isEmpty)).map Entry.ofText

@[simp] theorem lineEntries_append (ls ls' : List (List Char)) :
    lineEntries (ls ++ ls') = lineEntries ls ++ lineEntries ls' := by
  simp [lineEntries]

theorem lineEntries_cons {l : List Char} (h : Text.trim l ≠ []) (ls : List (List Char)) :
    lineEntries (l :: ls) = Entry.ofText (Text.trim l) :: lineEntries ls := by
  simp [lineEntries, h]

/-- What the lines of a text are does not depend on where they stand. -/
theorem entries_eq_lineEntries (cs : List Char) : entries cs = lineEntries (lines cs) := by
  rw [entries, contentLines, lineEntries, ← map_text_locate (lines cs) 1 0, List.map_map,
    List.filter_map, List.filter_map, List.map_map, List.map_map]
  rfl

/-! ## Fields of a draft -/

namespace Draft

/-- A field of a draft that the declarations of one keyword fill, and nothing else. -/
structure Field (α : Type) where
  /-- The keyword of the declarations. -/
  keyword : Keyword
  /-- What the field holds. -/
  get : Draft → Option α
  /-- What a value puts into the field. -/
  ofValue : List Char → α
  get_empty : get {} = none
  get_assign : ∀ draft k value,
    get (draft.assign k value) = if k = keyword then some (ofValue value) else get draft
  get_note : ∀ draft notice, get (draft.note notice) = get draft
  get_rules : ∀ draft rules, get { draft with rules := rules } = get draft
  get_faults : ∀ draft faults, get { draft with faults := faults } = get draft

/-- The states. -/
def statesField : Field (OrderedSet State) where
  keyword := .states
  get := Draft.states
  ofValue value := .ofList ((members value).map State.mk)
  get_empty := rfl
  get_assign := by intro draft k value; cases k <;> rfl
  get_note _ _ := rfl
  get_rules _ _ := rfl
  get_faults _ _ := rfl

/-- The input alphabet. -/
def inputField : Field (OrderedSet Symbol) where
  keyword := .inputSymbols
  get := Draft.inputAlphabet
  ofValue value := .ofList ((members value).map Symbol.mk)
  get_empty := rfl
  get_assign := by intro draft k value; cases k <;> rfl
  get_note _ _ := rfl
  get_rules _ _ := rfl
  get_faults _ _ := rfl

/-- The stack alphabet. -/
def stackField : Field (OrderedSet Symbol) where
  keyword := .stackSymbols
  get := Draft.stackAlphabet
  ofValue value := .ofList ((members value).map Symbol.mk)
  get_empty := rfl
  get_assign := by intro draft k value; cases k <;> rfl
  get_note _ _ := rfl
  get_rules _ _ := rfl
  get_faults _ _ := rfl

/-- The text of the start state, without the white space around it. -/
def startField : Field String where
  keyword := .startState
  get := Draft.start
  ofValue value := String.ofList (trim value)
  get_empty := rfl
  get_assign := by intro draft k value; cases k <;> rfl
  get_note _ _ := rfl
  get_rules _ _ := rfl
  get_faults _ _ := rfl

/-- The accept states. -/
def acceptField : Field (OrderedSet State) where
  keyword := .acceptStates
  get := Draft.accept
  ofValue value := .ofList ((members value).map State.mk)
  get_empty := rfl
  get_assign := by intro draft k value; cases k <;> rfl
  get_note _ _ := rfl
  get_rules _ _ := rfl
  get_faults _ _ := rfl

/-- A line replaces what a field holds by the value that it declares, if it declares one. -/
theorem Field.get_add {α : Type} (f : Field α) (draft : Draft) (line : Line) :
    f.get (draft.add line) =
      (((Entry.ofText line.text).value? f.keyword).map f.ofValue).or (f.get draft) := by
  unfold add
  split
  · rename_i k value hentry
    -- the notice of a repeated declaration is in no field
    have hnoted : f.get (if draft.isDeclared k then
        draft.note (.redeclared line.number line.span k) else draft) = f.get draft := by
      split
      · exact f.get_note _ _
      · rfl
    simp only [f.get_assign, hnoted, hentry, Entry.value?]
    split <;> simp
  · rename_i hentry
    simp [f.get_rules, hentry, Entry.value?]
  · rename_i hentry
    simp [f.get_faults, hentry, Entry.value?]
  · rename_i hentry
    simp [f.get_note, hentry, Entry.value?]

/-- A field holds the last value that the lines declare for its keyword, or what it held before. -/
theorem Field.get_foldl_add {α : Type} (f : Field α) (ls : List Line) (draft : Draft) :
    f.get (ls.foldl add draft) =
      ((declared f.keyword (ls.map fun line => Entry.ofText line.text)).getLast?.map
        f.ofValue).or (f.get draft) := by
  induction ls generalizing draft with
  | nil => simp [declared]
  | cons line ls ih =>
    rw [List.foldl_cons, ih, f.get_add, List.map_cons, declared, declared, List.filterMap_cons]
    cases (Entry.ofText line.text).value? f.keyword with
    | none => simp
    | some value =>
      rw [List.getLast?_cons]
      cases ((ls.map fun line => Entry.ofText line.text).filterMap
        (Entry.value? f.keyword)).getLast? <;> simp

/-- A field holds what the last declaration of its keyword says. -/
theorem Field.get_ofText {α : Type} (f : Field α) (cs : List Char) :
    f.get (ofText cs) = (declared f.keyword (entries cs)).getLast?.map f.ofValue := by
  rw [ofText, f.get_foldl_add, f.get_empty, Option.or_none, entries]

/-! ## Rules and faults of a draft -/

theorem rules_assign (draft : Draft) (k : Keyword) (value : List Char) :
    (draft.assign k value).rules = draft.rules := by cases k <;> rfl

theorem faults_assign (draft : Draft) (k : Keyword) (value : List Char) :
    (draft.assign k value).faults = draft.faults := by cases k <;> rfl

/-- A line adds its rule at the end, if it is one. -/
theorem rules_add (draft : Draft) (line : Line) :
    (draft.add line).rules.toList =
      draft.rules.toList ++ (Entry.ofText line.text).rule?.toList := by
  unfold add
  split
  · rename_i hentry
    simp only [rules_assign, hentry, Entry.rule?, Option.toList_none, List.append_nil]
    split <;> rfl
  · rename_i hentry
    simp [hentry, Entry.rule?]
  · rename_i hentry
    simp [hentry, Entry.rule?]
  · rename_i hentry
    simp [hentry, Entry.rule?, note]

/-- A line adds its fault at the end, if it is one. -/
theorem faults_add (draft : Draft) (line : Line) :
    (draft.add line).faults.toList =
      draft.faults.toList ++ ((Entry.ofText line.text).fault? line).toList := by
  unfold add
  split
  · rename_i hentry
    simp only [faults_assign, hentry, Entry.fault?, Option.toList_none, List.append_nil]
    split <;> rfl
  · rename_i hentry
    simp [hentry, Entry.fault?]
  · rename_i hentry
    simp [hentry, Entry.fault?]
  · rename_i hentry
    simp [hentry, Entry.fault?, note]

/-- What every line adds at the end of a list is there in the end, in order. -/
theorem foldl_add_eq_append {β : Type} (get : Draft → List β) (item? : Line → Option β)
    (h : ∀ draft line, get (draft.add line) = get draft ++ (item? line).toList)
    (ls : List Line) (draft : Draft) : get (ls.foldl add draft) = get draft ++ ls.filterMap item? := by
  induction ls generalizing draft with
  | nil => simp
  | cons line ls ih =>
    rw [List.foldl_cons, ih, h, List.filterMap_cons, List.append_assoc]
    cases item? line <;> simp

/-- The rules are those of the lines, in order. -/
theorem rules_ofText (cs : List Char) :
    (ofText cs).rules.toList = (entries cs).filterMap Entry.rule? := by
  rw [ofText, foldl_add_eq_append (fun draft => draft.rules.toList) _ rules_add, entries,
    List.filterMap_map]
  rfl

/-- The faults are those of the lines, in order. -/
theorem faults_ofText (cs : List Char) :
    (ofText cs).faults.toList =
      (contentLines cs).filterMap fun line => (Entry.ofText line.text).fault? line := by
  rw [ofText, foldl_add_eq_append (fun draft => draft.faults.toList) _ faults_add]
  rfl

/-- A fault of a draft is about a line that was read. -/
theorem mem_faults_ofText {cs : List Char} {f : Fault} : f ∈ (ofText cs).faults.toList ↔
    ∃ line ∈ contentLines cs, (Entry.ofText line.text).fault? line = some f := by
  rw [faults_ofText, List.mem_filterMap]

/-- There are no faults exactly if no line is a malformed rule. -/
theorem faults_ofText_eq_nil_iff {cs : List Char} :
    (ofText cs).faults.toList = [] ↔ ∀ defect span, .malformed defect span ∉ entries cs := by
  rw [faults_ofText, List.filterMap_eq_nil_iff]
  constructor
  · intro h defect span hmem
    obtain ⟨line, hline, hentry⟩ := List.mem_map.1 hmem
    simpa [hentry, Entry.fault?] using h line hline
  · intro h line hline
    cases hentry : Entry.ofText line.text with
    | malformed defect span =>
      exact absurd (List.mem_map.2 ⟨line, hline, hentry⟩) (h defect span)
    | _ => rfl

/-! ## Keywords that were declared -/

theorem isDeclared_empty (k : Keyword) : isDeclared {} k = false := by cases k <;> rfl

theorem Field.isSome_get_add {α : Type} (f : Field α) (draft : Draft) (line : Line) :
    (f.get (draft.add line)).isSome =
      (((Entry.ofText line.text).value? f.keyword).isSome || (f.get draft).isSome) := by
  rw [f.get_add, Option.isSome_or, Option.isSome_map]

/-- A keyword is declared by each line that declares a value for it. -/
theorem isDeclared_add {k : Keyword} (hk : k ≠ .transitions) (draft : Draft) (line : Line) :
    (draft.add line).isDeclared k =
      (((Entry.ofText line.text).value? k).isSome || draft.isDeclared k) := by
  cases k with
  | states => exact statesField.isSome_get_add draft line
  | inputSymbols => exact inputField.isSome_get_add draft line
  | stackSymbols => exact stackField.isSome_get_add draft line
  | startState => exact startField.isSome_get_add draft line
  | acceptStates => exact acceptField.isSome_get_add draft line
  | transitions => exact absurd rfl hk

/-- A keyword is declared after some lines exactly if one of them declares it or it was declared before, the
one of the rules aside. -/
theorem isDeclared_foldl_add {k : Keyword} (hk : k ≠ .transitions) {ls : List Line}
    {draft : Draft} : (ls.foldl add draft).isDeclared k = true ↔
      (∃ line ∈ ls, k.head <+: line.text) ∨ draft.isDeclared k = true := by
  induction ls generalizing draft with
  | nil => simp
  | cons line ls ih =>
    rw [List.foldl_cons, ih, isDeclared_add hk, Bool.or_eq_true, Entry.isSome_value?_ofText_iff,
      List.exists_mem_cons_iff, ← or_assoc, or_comm (b := k.head <+: line.text)]

end Draft

/-! ## Loading -/

/-- Apart from the faults of the lines there is at most one, a missing start state. -/
theorem Draft.mem_allFaults {draft : Draft} {f : Fault} : f ∈ draft.allFaults ↔
    f ∈ draft.faults.toList ∨ draft.start? = none ∧ f = .missingStart := by
  rw [allFaults, List.mem_append]
  cases draft.start? <;> simp

/-- A text loads exactly if a start state is left at its end and no line is a fault; then the automaton is
that of the draft. -/
theorem load_eq_ok_iff {epsilon text : String} {loaded : Loaded} :
    load epsilon text = .ok loaded ↔
      ∃ start, (Draft.ofText text.toList).start? = some start ∧
        (Draft.ofText text.toList).faults.toList = [] ∧
          loaded = ⟨(Draft.ofText text.toList).toAutomaton start epsilon,
            (Draft.ofText text.toList).notices.toList⟩ := by
  unfold load
  simp only [Draft.allFaults]
  cases hstart : (Draft.ofText text.toList).start? with
  | none => simp
  | some start =>
    cases hfaults : (Draft.ofText text.toList).faults.toList with
    | nil => simp [eq_comm]
    | cons fault faults => simp

/-- A text does not load exactly if there are faults, and then all of them are reported. -/
theorem load_eq_error_iff {epsilon text : String} {faults : List Fault} :
    load epsilon text = .error faults ↔
      faults = (Draft.ofText text.toList).allFaults ∧ faults ≠ [] := by
  unfold load
  dsimp only
  constructor
  · intro h
    split at h
    · contradiction
    · rename_i hother
      obtain rfl := Except.error.inj h
      refine ⟨rfl, fun hnil => ?_⟩
      cases hstart : (Draft.ofText text.toList).start? with
      | none => simp [Draft.allFaults, hstart] at hnil
      | some start => exact hother start hstart hnil
  · rintro ⟨rfl, hne⟩
    split
    · rename_i hnil
      exact absurd hnil hne
    · rfl

end PDA.Format
