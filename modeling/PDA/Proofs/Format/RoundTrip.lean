import PDA.Proofs.Format.Notices
import PDA.Proofs.Format.TrimLast

/-!
# Saving and loading again

A text is written line by line (`toList_save`), and each line is read as what it was written for
(`entries_save`). The only thing that is lost is white space at the end of the last member of a set,
for that is where a line is trimmed (`load_save`). So an automaton comes back exactly if its names hold
no separator of the format and no set ends in white space, and of what was loaded before only the
latter can fail.
-/

namespace PDA

open Format Text

/-! ## The lines of a saved text -/

namespace Format

/-- The lines that declare a set; there is none for an empty set. -/
def setLines (k : Keyword) (names : List String) : List (List Char) :=
  if names = [] then [] else [k.head ++ [','].intercalate (names.map String.toList)]

theorem flatMap_savedSet (k : Keyword) (names : List String) :
    (savedSet k names).flatMap String.toList = (setLines k names).flatMap (· ++ ['\n']) := by
  cases names with
  | nil => rfl
  | cons first rest =>
    have hrest : ∀ (ms : List String) (m : String),
        m.toList ++ (ms.flatMap fun m => [",", m]).flatMap String.toList =
          [','].intercalate (m.toList :: ms.map String.toList) := by
      intro ms
      induction ms with
      | nil => intro m; simp
      | cons n ms ih => intro m; simp [← ih n]
    rw [setLines, if_neg (by simp), List.map_cons, ← hrest rest first]
    simp [savedSet, Keyword.head]

theorem flatMap_savedRule (epsilon : String) (r : Rule) :
    (savedRule epsilon r).flatMap String.toList =
      (RuleLine.ofRule epsilon r).text ++ ['\n'] := by
  by_cases hpush : r.push = []
  · simp [savedRule, RuleLine.ofRule, RuleLine.text, RuleLine.left, RuleLine.right, arrow, hpush]
  · simp [savedRule, RuleLine.ofRule, RuleLine.text, RuleLine.left, RuleLine.right, arrow, hpush,
      toList_pushText, List.flatMap_map]

/-- The lines of the text of an automaton. -/
def savedLines (epsilon : String) (A : Automaton) : List (List Char) :=
  setLines .states (A.states.toList.map State.name) ++
    setLines .inputSymbols (A.inputAlphabet.toList.map Symbol.text) ++
    setLines .stackSymbols (A.stackAlphabet.toList.map Symbol.text) ++
    [Keyword.startState.head ++ A.start.name.toList] ++
    setLines .acceptStates (A.accept.toList.map State.name) ++
    [Keyword.transitions.head] ++ A.rules.map fun r => (RuleLine.ofRule epsilon r).text

/-- What is saved is one line after the other, each closed by a line break. -/
theorem toList_save (epsilon : String) (A : Automaton) :
    (save epsilon A).toList = (savedLines epsilon A).flatMap (· ++ ['\n']) := by
  have hrules : (A.rules.flatMap (savedRule epsilon)).flatMap String.toList =
      (A.rules.map fun r => (RuleLine.ofRule epsilon r).text).flatMap (· ++ ['\n']) := by
    rw [List.flatMap_assoc, List.flatMap_map]
    exact List.flatMap_congr fun r _ => flatMap_savedRule epsilon r
  simp only [save, savedPieces, savedLines, String.toList_join, List.flatMap_append,
    flatMap_savedSet, hrules]
  simp [Keyword.head]

theorem newline_not_mem_setLines {k : Keyword} {names : List String}
    (h : ∀ m ∈ names, IsMember m) : ∀ l ∈ setLines k names, '\n' ∉ l := by
  intro l hl
  rw [setLines] at hl
  split at hl
  · simp at hl
  · rw [List.mem_singleton] at hl
    rw [hl, List.mem_append, not_or]
    refine ⟨k.newline_not_mem_head, not_mem_intercalate (by decide) ?_⟩
    exact List.forall_mem_map.2 fun m hm => (h m hm).newline

/-- No name of a loadable automaton breaks a line that is saved. -/
theorem newline_not_mem_savedLines {epsilon : String} {A : Automaton} (h : A.Loadable epsilon) :
    ∀ l ∈ savedLines epsilon A, '\n' ∉ l := by
  obtain ⟨hstates, hinput, hstack, haccept⟩ := Automaton.forall_memberNames.1 h.members
  have hstart : '\n' ∉ Keyword.startState.head ++ A.start.name.toList := by
    rw [List.mem_append, not_or]
    exact ⟨Keyword.newline_not_mem_head _, h.start.newline⟩
  simp only [savedLines, List.forall_mem_append, List.forall_mem_singleton]
  refine ⟨⟨⟨⟨⟨⟨newline_not_mem_setLines hstates, newline_not_mem_setLines hinput⟩,
    newline_not_mem_setLines hstack⟩, hstart⟩, newline_not_mem_setLines haccept⟩,
    Keyword.newline_not_mem_head _⟩, ?_⟩
  exact List.forall_mem_map.2 fun r hr => (h.rules r hr).wellFormed.newline_not_mem_text

/-! ## What the lines are read as -/

/-- The values that are read for a set. -/
def setValues (names : List String) : List (List Char) :=
  if names = [] then [] else [[','].intercalate (trimLast (names.map String.toList))]

/-- What is declared for a set of these members: one value, or none if there are no members. -/
def listedValues (pieces : List (List Char)) : List (List Char) :=
  if pieces = [] then [] else [[','].intercalate pieces]

/-- The last name loses the white space at its end, since it stands at the end of the line. -/
theorem setValues_eq (names : List String) :
    setValues names = listedValues (trimLast (names.map String.toList)) := by
  rw [setValues, listedValues]
  by_cases h : names = []
  · rw [h]
    rfl
  · rw [if_neg h, if_neg (trimLast_ne_nil (by simpa using h))]

theorem length_listedValues_le_one (pieces : List (List Char)) : (listedValues pieces).length ≤ 1 := by
  rw [listedValues]
  split <;> simp

/-- What the lines of the text of an automaton are read as. -/
def savedEntries (epsilon : String) (A : Automaton) : List Entry :=
  (setValues (A.states.toList.map State.name)).map (.declaration .states) ++
    (setValues (A.inputAlphabet.toList.map Symbol.text)).map (.declaration .inputSymbols) ++
    (setValues (A.stackAlphabet.toList.map Symbol.text)).map (.declaration .stackSymbols) ++
    [.declaration .startState A.start.name.toList] ++
    (setValues (A.accept.toList.map State.name)).map (.declaration .acceptStates) ++
    [.declaration .transitions []] ++ A.rules.map fun r => .rule (RuleLine.ofRule epsilon r)

theorem trim_head_append (k : Keyword) (value : List Char) :
    Text.trim (k.head ++ value) = k.head ++ trimEnd value := by
  have hhead : NoLeadingSpace (k.head ++ value) :=
    k.noLeadingSpace_head.append (by simp [Keyword.head]) value
  rw [Text.trim, trimStart_eq_self hhead, Keyword.head, List.append_assoc, List.singleton_append,
    trimEnd_append_cons (by decide), List.append_assoc, List.singleton_append]

theorem lineEntries_head {k : Keyword} {value : List Char} (h : ':' ∉ trimEnd value) :
    lineEntries [k.head ++ value] = [.declaration k (trimEnd value)] := by
  have hne : Text.trim (k.head ++ value) ≠ [] := by
    rw [trim_head_append]
    simp [Keyword.head]
  rw [lineEntries_cons hne, trim_head_append,
    Entry.ofText_eq_declaration_iff.2 (declaration?_head_append h)]
  rfl

/-- A set is read back as one declaration, and an empty one as none. -/
theorem lineEntries_setLines {k : Keyword} {names : List String} (h : ∀ m ∈ names, IsMember m) :
    lineEntries (setLines k names) = (setValues names).map (.declaration k) := by
  rw [setLines, setValues]
  split
  · rfl
  · have hcolon : ':' ∉ [','].intercalate (names.map String.toList) :=
      not_mem_intercalate (by decide) (List.forall_mem_map.2 fun m hm => (h m hm).colon)
    rw [lineEntries_head fun hmem => hcolon ((trimEnd_isPrefix _).subset hmem), intercalate_trimLast,
      List.map_singleton]

/-- The rules are read back word for word. -/
theorem lineEntries_rules {epsilon : String} {rules : List Rule}
    (h : ∀ r ∈ rules, r.Writable epsilon) :
    lineEntries (rules.map fun r => (RuleLine.ofRule epsilon r).text) =
      rules.map fun r => .rule (RuleLine.ofRule epsilon r) := by
  induction rules with
  | nil => rfl
  | cons r rules ih =>
    obtain ⟨hr, hrules⟩ := List.forall_mem_cons.1 h
    have htrim := hr.wellFormed.trim_text
    have hne : Text.trim (RuleLine.ofRule epsilon r).text ≠ [] := by
      rw [htrim]
      simp [RuleLine.text, RuleLine.right]
    rw [List.map_cons, lineEntries_cons hne, htrim,
      hr.wellFormed.ofText_text hr.source_not_declaration, ih hrules, List.map_cons]

/-- Each line is read as what it was written for. -/
theorem lineEntries_savedLines {epsilon : String} {A : Automaton} (h : A.Loadable epsilon) :
    lineEntries (savedLines epsilon A) = savedEntries epsilon A := by
  obtain ⟨hstates, hinput, hstack, haccept⟩ := Automaton.forall_memberNames.1 h.members
  have hstart : trimEnd A.start.name.toList = A.start.name.toList :=
    trimEnd_eq_self h.start.trailing
  have hcolon : ':' ∉ trimEnd A.start.name.toList := by
    rw [hstart]
    exact h.start.colon
  have htransitions : lineEntries [Keyword.transitions.head] = [.declaration .transitions []] := by
    have h := @lineEntries_head .transitions [] (by decide)
    rwa [List.append_nil] at h
  rw [savedLines, savedEntries]
  simp only [lineEntries_append, lineEntries_setLines hstates, lineEntries_setLines hinput,
    lineEntries_setLines hstack, lineEntries_setLines haccept, lineEntries_head hcolon, hstart,
    htransitions, lineEntries_rules h.rules]

theorem entries_flatMap {ls : List (List Char)} (h : ∀ l ∈ ls, '\n' ∉ l) :
    entries (ls.flatMap (· ++ ['\n'])) = lineEntries ls := by
  rw [entries_eq_lineEntries, lines_flatMap h, lineEntries_append]
  simp [lineEntries, Text.trim, Text.trimStart, Text.trimEnd]

/-- What is saved is read back entry by entry. -/
theorem entries_save {epsilon : String} {A : Automaton} (h : A.Loadable epsilon) :
    entries (save epsilon A).toList = savedEntries epsilon A := by
  rw [toList_save, entries_flatMap (newline_not_mem_savedLines h), lineEntries_savedLines h]

/-! ## What is loaded again -/

theorem declared_map_declaration (k k' : Keyword) (values : List (List Char)) :
    declared k (values.map (.declaration k')) = if k' = k then values else [] := by
  rw [declared, List.filterMap_map]
  split
  · rename_i h
    simp [Entry.value?, h]
  · rename_i h
    simp [Function.comp_def, Entry.value?, h]

/-- Each keyword is declared by its own line only. -/
theorem declared_savedEntries (k : Keyword) (epsilon : String) (A : Automaton) :
    declared k (savedEntries epsilon A) = match k with
      | .states => setValues (A.states.toList.map State.name)
      | .inputSymbols => setValues (A.inputAlphabet.toList.map Symbol.text)
      | .stackSymbols => setValues (A.stackAlphabet.toList.map Symbol.text)
      | .startState => [A.start.name.toList]
      | .acceptStates => setValues (A.accept.toList.map State.name)
      | .transitions => [[]] := by
  have hrules : declared k (A.rules.map fun r => .rule (RuleLine.ofRule epsilon r)) = [] := by
    simp [declared, List.filterMap_map, Function.comp_def, Entry.value?]
  have hone : ∀ k' value, declared k [.declaration k' value] = if k' = k then [value] else [] :=
    fun k' value => declared_map_declaration k k' [value]
  simp only [savedEntries, declared_append, declared_map_declaration, hone, hrules]
  cases k <;> simp

theorem rules_savedEntries (epsilon : String) (A : Automaton) :
    (savedEntries epsilon A).filterMap Entry.rule? = A.rules.map (RuleLine.ofRule epsilon) := by
  simp [savedEntries, List.filterMap_append, List.filterMap_cons, List.filterMap_map,
    Function.comp_def, Entry.rule?]

section Declared

variable {epsilon : String} {cs : List Char}

/-- Names without commas are read back from between the commas. -/
theorem members_intercalate {pieces : List (List Char)} (hne : pieces ≠ [])
    (h : ∀ piece ∈ pieces, ',' ∉ piece) :
    members ([','].intercalate pieces) = pieces.map String.ofList := by
  rw [members, List.splitOn_intercalate _ h hne]

/-- The set that is read from a single declaration, or from none if it is empty. -/
theorem getD_of_declared {α : Type} [DecidableEq α] {pieces : List (List Char)}
    (f : Draft.Field (OrderedSet α)) (name : α ≃ String)
    (hf : ∀ value, f.ofValue value = OrderedSet.ofList ((members value).map name.symm))
    (hdeclared : declared f.keyword (entries cs) = listedValues pieces)
    (hcomma : ∀ piece ∈ pieces, ',' ∉ piece) :
    (f.get (Draft.ofText cs)).getD ∅ =
      OrderedSet.ofList ((pieces.map String.ofList).map name.symm) := by
  rw [f.get_ofText, hdeclared, listedValues]
  split
  · rename_i hnil
    rw [hnil]
    rfl
  · rename_i hne
    rw [List.getLast?_singleton, Option.map_some, Option.getD_some, hf,
      members_intercalate hne hcomma]

theorem start?_of_declared {q : State} (h : IsStart q.name)
    (hdeclared : declared .startState (entries cs) = [q.name.toList]) :
    (Draft.ofText cs).start? = some q := by
  have hname : (Draft.ofText cs).start = some q.name := by
    have htrim : trim q.name.toList = q.name.toList := trim_eq_self_iff.2 ⟨h.leading, h.trailing⟩
    have hget := Draft.startField.get_ofText cs
    rw [show Draft.startField.keyword = .startState from rfl, hdeclared] at hget
    simpa [Draft.startField, htrim] using hget
  have hne : q.name.isEmpty = false := by simpa using h.ne_empty
  simp [Draft.start?, hname, Option.filter, hne]

/-- The words of writable rules are read as these rules. -/
theorem rules_of_words {rules : List Rule} (h : ∀ r ∈ rules, r.Writable epsilon)
    (hwords : (entries cs).filterMap Entry.rule? = rules.map (RuleLine.ofRule epsilon)) :
    (Draft.ofText cs).rules.toList.map (RuleLine.toRule epsilon) = rules := by
  rw [Draft.rules_ofText, hwords, List.map_map]
  exact (List.map_congr_left fun r hr => (h r hr).toRule_ofRule).trans (List.map_id' _)

end Declared

section LoadSaved

variable {epsilon : String} {A : Automaton} {cs : List Char}

/-- A set is read as it was, but for white space at the end of its last member. -/
theorem getD_eq_trimLast {α : Type} [DecidableEq α] {s : OrderedSet α}
    (f : Draft.Field (OrderedSet α)) (name : α ≃ String)
    (hf : ∀ value, f.ofValue value = OrderedSet.ofList ((members value).map name.symm))
    (hdeclared : declared f.keyword (entries cs) = setValues (s.toList.map name))
    (hs : ∀ m ∈ s.toList.map name, IsMember m) :
    (f.get (Draft.ofText cs)).getD ∅ = s.trimLast name := by
  have hcomma : ∀ piece ∈ trimLast ((s.toList.map name).map String.toList), ',' ∉ piece := by
    intro piece hpiece
    obtain ⟨n, hn, hbegin⟩ := mem_trimLast hpiece
    obtain ⟨m, hm, rfl⟩ := List.mem_map.1 hn
    exact fun hmem => (hs m hm).comma (hbegin.subset hmem)
  have hget := getD_of_declared f name hf (hdeclared.trans (setValues_eq _)) hcomma
  rw [List.map_map (l := s.toList)] at hget
  exact hget

/-- What is read back is the automaton with the last names cut. -/
theorem toAutomaton_of_savedEntries (h : A.Loadable epsilon)
    (hentries : entries cs = savedEntries epsilon A) :
    (Draft.ofText cs).toAutomaton A.start epsilon = A.trimLast := by
  obtain ⟨hstates, hinput, hstack, haccept⟩ := Automaton.forall_memberNames.1 h.members
  have hdeclared : ∀ k, declared k (entries cs) = declared k (savedEntries epsilon A) :=
    fun k => by rw [hentries]
  have h₁ : (Draft.ofText cs).states.getD ∅ = A.states.trimLast State.equiv :=
    getD_eq_trimLast Draft.statesField State.equiv (fun _ => rfl)
      ((hdeclared _).trans (declared_savedEntries ..)) hstates
  have h₂ : (Draft.ofText cs).inputAlphabet.getD ∅ = A.inputAlphabet.trimLast Symbol.equiv :=
    getD_eq_trimLast Draft.inputField Symbol.equiv (fun _ => rfl)
      ((hdeclared _).trans (declared_savedEntries ..)) hinput
  have h₃ : (Draft.ofText cs).stackAlphabet.getD ∅ = A.stackAlphabet.trimLast Symbol.equiv :=
    getD_eq_trimLast Draft.stackField Symbol.equiv (fun _ => rfl)
      ((hdeclared _).trans (declared_savedEntries ..)) hstack
  have h₄ : (Draft.ofText cs).accept.getD ∅ = A.accept.trimLast State.equiv :=
    getD_eq_trimLast Draft.acceptField State.equiv (fun _ => rfl)
      ((hdeclared _).trans (declared_savedEntries ..)) haccept
  have hwords : (entries cs).filterMap Entry.rule? = A.rules.map (RuleLine.ofRule epsilon) := by
    rw [hentries, rules_savedEntries]
  rw [Draft.toAutomaton, Automaton.trimLast, h₁, h₂, h₃, h₄, rules_of_words h.rules hwords]

end LoadSaved

/-- Of an automaton without separators in its names, only white space at the end of a set is lost, and
there is nothing to notice about its text. -/
theorem load_save_eq {epsilon : String} {A : Automaton} (h : A.Loadable epsilon) :
    load epsilon (save epsilon A) = .ok ⟨A.trimLast, []⟩ := by
  have hentries := entries_save h
  -- of the text only its entries matter
  generalize save epsilon A = text at hentries ⊢
  have hstart : (Draft.ofText text.toList).start? = some A.start :=
    start?_of_declared h.start (by rw [hentries, declared_savedEntries])
  have hfaults : (Draft.ofText text.toList).faults.toList = [] := by
    rw [Draft.faults_ofText_eq_nil_iff, hentries]
    simp [savedEntries]
  have hnotices : (Draft.ofText text.toList).notices.toList = [] := by
    refine Draft.notices_ofText_eq_nil ?_ fun k _ => ?_
    · rw [hentries]
      simp [savedEntries]
    · rw [hentries, declared_savedEntries]
      cases k <;> simp [setValues_eq, length_listedValues_le_one]
  refine load_eq_ok_iff.2 ⟨A.start, hstart, hfaults, ?_⟩
  rw [toAutomaton_of_savedEntries h hentries, hnotices]

/-- A loadable automaton that is saved loads again, with the last names cut. -/
theorem load_save {epsilon : String} {A : Automaton} (h : A.Loadable epsilon) :
    ∃ notices, load epsilon (save epsilon A) = .ok ⟨A.trimLast, notices⟩ :=
  ⟨[], load_save_eq h⟩

/-- **Round trip.** An automaton comes back from its text exactly if its names hold no separator of
the format and no set ends in white space. -/
theorem loads_back_iff (epsilon : String) (A : Automaton) :
    (∃ loaded, load epsilon (save epsilon A) = .ok loaded ∧ loaded.automaton.Same A) ↔
      A.Loadable epsilon ∧ A.TrimmedEnds := by
  constructor
  · rintro ⟨loaded, hload, hsame⟩
    have hA : A.Loadable epsilon := (loadable_of_load hload).of_same hsame
    obtain ⟨notices, hsaved⟩ := load_save hA
    obtain rfl : ⟨A.trimLast, notices⟩ = loaded := Except.ok.inj (hsaved.symm.trans hload)
    exact ⟨hA, Automaton.same_trimLast_iff.1 hsame⟩
  · rintro ⟨hA, hends⟩
    obtain ⟨notices, hsaved⟩ := load_save hA
    exact ⟨_, hsaved, Automaton.same_trimLast_iff.2 hends⟩

/-- What was loaded can always be saved and loaded again. It comes back exactly if no set ends in
white space. -/
theorem loads_again {epsilon text : String} {loaded : Loaded} (h : load epsilon text = .ok loaded) :
    ∃ again, load epsilon (save epsilon loaded.automaton) = .ok again ∧
      (again.automaton.Same loaded.automaton ↔ loaded.automaton.TrimmedEnds) := by
  obtain ⟨notices, hsaved⟩ := load_save (loadable_of_load h)
  exact ⟨_, hsaved, Automaton.same_trimLast_iff⟩

/-- White space inside a set does no harm, here after the first of two members. -/
theorem loads_again_inner_space :
    ∃ loaded, load "λ" "start_state:s\nstates:a ,b\n" = .ok loaded ∧
      loaded.automaton.TrimmedEnds ∧
        ∃ again, load "λ" (save "λ" loaded.automaton) = .ok again ∧
          (again.automaton.Same loaded.automaton ↔ loaded.automaton.TrimmedEnds) := by
  have h : load "λ" "start_state:s\nstates:a ,b\n" =
      .ok ⟨{ states := .ofList [⟨"a "⟩, ⟨"b"⟩], start := ⟨"s"⟩ }, []⟩ := rfl
  exact ⟨_, h, Automaton.forall_memberNames.2 (by decide), loads_again h⟩

/-- A second colon keeps the white space at the end of a set from being trimmed, but nothing does when
the set is saved. -/
theorem trailing_space_lost :
    load "λ" "start_state:s\nstates:a :\n" =
        .ok ⟨{ states := .ofList [⟨"a "⟩], start := ⟨"s"⟩ }, []⟩ ∧
      ¬ ∃ again, load "λ" (save "λ" { states := .ofList [⟨"a "⟩], start := ⟨"s"⟩ }) = .ok again ∧
        again.automaton.Same { states := .ofList [⟨"a "⟩], start := ⟨"s"⟩ } := by
  refine ⟨rfl, ?_⟩
  rintro ⟨again, hload, hsame⟩
  have hloses : load "λ" (save "λ" { states := .ofList [⟨"a "⟩], start := ⟨"s"⟩ }) =
      .ok ⟨{ states := .ofList [⟨"a"⟩], start := ⟨"s"⟩ }, []⟩ := rfl
  obtain rfl := Except.ok.inj (hloses.symm.trans hload)
  exact absurd hsame (by decide)

end Format

end PDA
