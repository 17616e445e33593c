import PDA.Proofs.Format.RoundTrip

/-!
# All automata that come out of a text

Every automaton without separators in its names is loaded from some text (`load_closedText`), also one
with a set that ends in white space, which is lost when that automaton is saved. The text declares each
set in a line that is closed by a second colon: the value ends there, and the line, which does not end
in white space, is not trimmed.
-/

namespace PDA

open Format Text

/-- The automaton without its sets. -/
def Automaton.withoutSets (A : Automaton) : Automaton := { start := A.start, rules := A.rules }

namespace Format

/-- The lines that declare a set with a colon at the end; there is none for an empty set. -/
def closedSetLines (k : Keyword) (names : List String) : List (List Char) :=
  (setLines k names).map (· ++ [':'])

/-- The lines that declare the sets of an automaton, each with a colon at the end. -/
def closedLines (A : Automaton) : List (List Char) :=
  closedSetLines .states (A.states.toList.map State.name) ++
    closedSetLines .inputSymbols (A.inputAlphabet.toList.map Symbol.text) ++
    closedSetLines .stackSymbols (A.stackAlphabet.toList.map Symbol.text) ++
    closedSetLines .acceptStates (A.accept.toList.map State.name)

/-- A text of the automaton that keeps the white space in its sets. -/
def closedText (epsilon : String) (A : Automaton) : String :=
  save epsilon A.withoutSets ++ String.ofList ((closedLines A).flatMap (· ++ ['\n']))

/-- What the closed declarations are read as. -/
def closedEntries (A : Automaton) : List Entry :=
  (listedValues ((A.states.toList.map State.name).map String.toList)).map (.declaration .states) ++
    (listedValues ((A.inputAlphabet.toList.map Symbol.text).map String.toList)).map
      (.declaration .inputSymbols) ++
    (listedValues ((A.stackAlphabet.toList.map Symbol.text).map String.toList)).map
      (.declaration .stackSymbols) ++
    (listedValues ((A.accept.toList.map State.name).map String.toList)).map
      (.declaration .acceptStates)

/-! ## What the lines are read as -/

theorem newline_not_mem_closedSetLines {k : Keyword} {names : List String}
    (h : ∀ m ∈ names, IsMember m) : ∀ l ∈ closedSetLines k names, '\n' ∉ l := by
  intro l hl
  obtain ⟨l', hl', rfl⟩ := List.mem_map.1 hl
  have hnewline : '\n' ∉ l' := newline_not_mem_setLines h l' hl'
  simp [hnewline]

/-- A set line that a colon closes declares the names as they are, white space at the end included. -/
theorem lineEntries_closedSetLines {k : Keyword} {names : List String}
    (h : ∀ m ∈ names, IsMember m) : lineEntries (closedSetLines k names) =
      (listedValues (names.map String.toList)).map (.declaration k) := by
  rw [closedSetLines, setLines, listedValues]
  by_cases hnil : names = []
  · rw [hnil]
    rfl
  · rw [if_neg hnil, if_neg (by simpa using hnil), List.map_singleton, List.map_singleton,
      List.append_assoc]
    have hcolon : ':' ∉ [','].intercalate (names.map String.toList) :=
      not_mem_intercalate (by decide) (List.forall_mem_map.2 fun m hm => (h m hm).colon)
    have htrim : Text.trim (k.head ++ ([','].intercalate (names.map String.toList) ++ [':'])) =
        k.head ++ ([','].intercalate (names.map String.toList) ++ [':']) := by
      rw [trim_head_append, trimEnd_append_cons (by decide)]
      rfl
    rw [lineEntries_cons (by rw [htrim]; simp), htrim,
      Entry.ofText_eq_declaration_iff.2 (declaration?_head_append_colon hcolon [])]
    rfl

section ClosedText

variable {epsilon : String} {A : Automaton}

/-- An automaton stays loadable without its sets. -/
theorem loadable_withoutSets (h : A.Loadable epsilon) : A.withoutSets.Loadable epsilon where
  members := by
    refine Automaton.forall_memberNames.2 ⟨?_, ?_, ?_, ?_⟩ <;> simp [Automaton.withoutSets]
  start := h.start
  rules := h.rules

/-- The closed text is read as the rules and the start state, and then as the four sets. -/
theorem entries_closedText (h : A.Loadable epsilon) : entries (closedText epsilon A).toList =
    savedEntries epsilon A.withoutSets ++ closedEntries A := by
  obtain ⟨hstates, hinput, hstack, haccept⟩ := Automaton.forall_memberNames.1 h.members
  have hsaved := loadable_withoutSets h
  have hnewline : ∀ l ∈ savedLines epsilon A.withoutSets ++ closedLines A, '\n' ∉ l := by
    simp only [closedLines, List.forall_mem_append]
    exact ⟨newline_not_mem_savedLines hsaved, ⟨⟨newline_not_mem_closedSetLines hstates,
      newline_not_mem_closedSetLines hinput⟩, newline_not_mem_closedSetLines hstack⟩,
      newline_not_mem_closedSetLines haccept⟩
  rw [closedText, String.toList_append, toList_save, String.toList_ofList, ← List.flatMap_append,
    entries_flatMap hnewline, lineEntries_append, lineEntries_savedLines hsaved, closedLines,
    closedEntries]
  simp only [lineEntries_append, lineEntries_closedSetLines hstates,
    lineEntries_closedSetLines hinput, lineEntries_closedSetLines hstack,
    lineEntries_closedSetLines haccept]

theorem declared_entries_closedText (h : A.Loadable epsilon) (k : Keyword) :
    declared k (entries (closedText epsilon A).toList) = match k with
      | .states => listedValues ((A.states.toList.map State.name).map String.toList)
      | .inputSymbols => listedValues ((A.inputAlphabet.toList.map Symbol.text).map String.toList)
      | .stackSymbols => listedValues ((A.stackAlphabet.toList.map Symbol.text).map String.toList)
      | .startState => [A.start.name.toList]
      | .acceptStates => listedValues ((A.accept.toList.map State.name).map String.toList)
      | .transitions => [[]] := by
  rw [entries_closedText h, declared_append, declared_savedEntries]
  simp only [closedEntries, declared_append, declared_map_declaration]
  cases k <;> simp [Automaton.withoutSets, setValues]

/-- A set is read back from one line that lists its names. -/
theorem getD_eq_of_listedValues {α : Type} [DecidableEq α] {s : OrderedSet α} {cs : List Char}
    (f : Draft.Field (OrderedSet α)) (name : α ≃ String)
    (hf : ∀ value, f.ofValue value = OrderedSet.ofList ((members value).map name.symm))
    (hdeclared : declared f.keyword (entries cs) =
      listedValues ((s.toList.map name).map String.toList))
    (hs : ∀ m ∈ s.toList.map name, IsMember m) : (f.get (Draft.ofText cs)).getD ∅ = s := by
  have hget := getD_of_declared f name hf hdeclared
    (List.forall_mem_map.2 fun m hm => (hs m hm).comma)
  have hnames : ((((s.toList.map name).map String.toList).map String.ofList).map name.symm) =
      s.toList := by
    simp [Function.comp_def]
  rw [hget, hnames, OrderedSet.ofList_toList]

/-- The closed text describes the automaton it was written for. -/
theorem toAutomaton_closedText (h : A.Loadable epsilon) :
    (Draft.ofText (closedText epsilon A).toList).toAutomaton A.start epsilon = A := by
  obtain ⟨hstates, hinput, hstack, haccept⟩ := Automaton.forall_memberNames.1 h.members
  have hdeclared := declared_entries_closedText h
  have hwords : (entries (closedText epsilon A).toList).filterMap Entry.rule? =
      A.rules.map (RuleLine.ofRule epsilon) := by
    have hclosed : (closedEntries A).filterMap Entry.rule? = [] := by
      simp [closedEntries, Entry.rule?]
    rw [entries_closedText h, List.filterMap_append, hclosed, List.append_nil, rules_savedEntries]
    rfl
  generalize closedText epsilon A = text at hdeclared hwords ⊢
  have h₁ : (Draft.ofText text.toList).states.getD ∅ = A.states :=
    getD_eq_of_listedValues Draft.statesField State.equiv (fun _ => rfl) (hdeclared _) hstates
  have h₂ : (Draft.ofText text.toList).inputAlphabet.getD ∅ = A.inputAlphabet :=
    getD_eq_of_listedValues Draft.inputField Symbol.equiv (fun _ => rfl) (hdeclared _) hinput
  have h₃ : (Draft.ofText text.toList).stackAlphabet.getD ∅ = A.stackAlphabet :=
    getD_eq_of_listedValues Draft.stackField Symbol.equiv (fun _ => rfl) (hdeclared _) hstack
  have h₄ : (Draft.ofText text.toList).accept.getD ∅ = A.accept :=
    getD_eq_of_listedValues Draft.acceptField State.equiv (fun _ => rfl) (hdeclared _) haccept
  rw [Draft.toAutomaton, h₁, h₂, h₃, h₄, rules_of_words h.rules hwords]

/-- What the closed text is written for is what it loads as, without a notice. -/
theorem load_closedText (h : A.Loadable epsilon) :
    load epsilon (closedText epsilon A) = .ok ⟨A, []⟩ := by
  have hentries := entries_closedText h
  have hdeclared := declared_entries_closedText h
  have hstart : (Draft.ofText (closedText epsilon A).toList).start? = some A.start :=
    start?_of_declared h.start (hdeclared .startState)
  have hfaults : (Draft.ofText (closedText epsilon A).toList).faults.toList = [] := by
    rw [Draft.faults_ofText_eq_nil_iff, hentries]
    simp [savedEntries, closedEntries]
  have hnotices : (Draft.ofText (closedText epsilon A).toList).notices.toList = [] := by
    refine Draft.notices_ofText_eq_nil ?_ fun k _ => ?_
    · rw [hentries]
      simp [savedEntries, closedEntries]
    · rw [hdeclared]
      cases k <;> simp [length_listedValues_le_one]
  refine load_eq_ok_iff.2 ⟨A.start, hstart, hfaults, ?_⟩
  rw [toAutomaton_closedText h, hnotices]

end ClosedText

/-- **What can be loaded.** An automaton is loaded from some text exactly if its names hold no separator
of the format. A set may end in white space, although the automaton is then not loaded from the text by
which it is saved. -/
theorem exists_load_iff (epsilon : String) (A : Automaton) :
    ((∃ text notices, load epsilon text = .ok ⟨A, notices⟩) ↔ A.Loadable epsilon) ∧
    (A.Loadable epsilon → ¬ A.TrimmedEnds →
      ¬ ∃ loaded, load epsilon (save epsilon A) = .ok loaded ∧ loaded.automaton.Same A) := by
  constructor
  · constructor
    · rintro ⟨text, notices, hload⟩
      exact loadable_of_load hload
    · intro h
      exact ⟨closedText epsilon A, [], load_closedText h⟩
  · rintro h hends ⟨loaded, hload, hsame⟩
    obtain rfl := Except.ok.inj ((load_save_eq h).symm.trans hload)
    exact hends (Automaton.same_trimLast_iff.1 hsame)

/-- An automaton with an input symbol that ends in a blank. -/
def blankEnd : Automaton where
  inputAlphabet := .ofList [⟨"a"⟩, ⟨"b "⟩]
  start := ⟨"s"⟩
  rules := [⟨⟨"s"⟩, some ⟨"a"⟩, none, ⟨"s"⟩, [⟨"X"⟩]⟩]

theorem exists_load_iff_blankEnd :
    load "-" "input_symbols:a,b :\nstart_state:s\ns a - -> s X\n" = .ok ⟨blankEnd, []⟩ ∧
      blankEnd.Loadable "-" ∧ ¬ blankEnd.TrimmedEnds ∧
      ¬ ∃ loaded, load "-" (save "-" blankEnd) = .ok loaded ∧ loaded.automaton.Same blankEnd := by
  have hload : load "-" "input_symbols:a,b :\nstart_state:s\ns a - -> s X\n" =
      .ok ⟨blankEnd, []⟩ := rfl
  have hA : blankEnd.Loadable "-" := (exists_load_iff "-" blankEnd).1.1 ⟨_, _, hload⟩
  have hends : ¬ blankEnd.TrimmedEnds := by
    rw [Automaton.trimmedEnds_iff]
    decide
  exact ⟨hload, hA, hends, (exists_load_iff "-" blankEnd).2 hA hends⟩

end Format

end PDA
