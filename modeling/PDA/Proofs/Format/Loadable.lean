import PDA.Format.Save
import PDA.Proofs.Format.Draft
import Mathlib.Logic.Equiv.Defs

/-!
# Which automata can come out of a text

The names in an automaton that was loaded cannot be just any texts: a separator of the format can
stand in none of them (`loadable_of_load`). The words of a rule that meets the conditions are those of
a line that can be read (`Rule.Writable.wellFormed`), and the other way round.
-/

namespace PDA

open Format Text

/-! ## Names that the format can carry -/

/-- A text that can be a member of a declared set. -/
structure IsMember (m : String) : Prop where
  comma : ',' ∉ m.toList
  colon : ':' ∉ m.toList
  newline : '\n' ∉ m.toList

instance (m : String) : Decidable (IsMember m) :=
  decidable_of_iff (',' ∉ m.toList ∧ ':' ∉ m.toList ∧ '\n' ∉ m.toList)
    ⟨fun h => ⟨h.1, h.2.1, h.2.2⟩, fun h => ⟨h.comma, h.colon, h.newline⟩⟩

/-- A text that can be declared as the start state. -/
structure IsStart (name : String) : Prop where
  ne_empty : name ≠ ""
  colon : ':' ∉ name.toList
  newline : '\n' ∉ name.toList
  leading : NoLeadingSpace name.toList
  trailing : NoTrailingSpace name.toList

/-- States are their names. -/
def State.equiv : State ≃ String := ⟨State.name, State.mk, fun _ => rfl, fun _ => rfl⟩

/-- Symbols are their texts. -/
def Symbol.equiv : Symbol ≃ String := ⟨Symbol.text, Symbol.mk, fun _ => rfl, fun _ => rfl⟩

/-- What is pushed, as one text. -/
def pushText (push : List Symbol) : String := String.join (push.map Symbol.text)

/-- Symbols that can be pushed by one word when `epsilon` denotes epsilon. -/
structure IsPush (epsilon : String) (push : List Symbol) : Prop where
  char : ∀ s ∈ push, ∃ c, s.text.toList = [c] ∧ isSpace c = false
  ne_epsilon : push ≠ [] → pushText push ≠ epsilon
  arrow : push ≠ [] → ¬ HasArrow (pushText push).toList

/-- A rule that can be written in a line in which `epsilon` denotes epsilon. -/
structure Rule.Writable (epsilon : String) (r : Rule) : Prop where
  source : IsSlot r.source.name.toList
  source_not_declaration : ¬ StartsDeclaration r.source.name.toList
  read : IsSlot (savedSlot epsilon r.read).toList
  read_ne : r.read ≠ some ⟨epsilon⟩
  pop : IsSlot (savedSlot epsilon r.pop).toList
  pop_ne : r.pop ≠ some ⟨epsilon⟩
  target : IsSlot r.target.name.toList
  push : IsPush epsilon r.push

namespace Automaton

/-- The names in the four sets. -/
def memberNames (A : Automaton) : List (List String) :=
  [A.states.toList.map State.name, A.inputAlphabet.toList.map Symbol.text,
    A.stackAlphabet.toList.map Symbol.text, A.accept.toList.map State.name]

/-- An automaton in whose names no separator of the format leaks. -/
structure Loadable (epsilon : String) (A : Automaton) : Prop where
  members : ∀ names ∈ A.memberNames, ∀ m ∈ names, IsMember m
  start : IsStart A.start.name
  rules : ∀ r ∈ A.rules, r.Writable epsilon

/-- No set ends in a member that ends in white space. -/
def TrimmedEnds (A : Automaton) : Prop :=
  ∀ names ∈ A.memberNames, ∀ m ∈ names.getLast?, NoTrailingSpace m.toList

theorem forall_memberNames {A : Automaton} {P : List String → Prop} :
    (∀ names ∈ A.memberNames, P names) ↔
      P (A.states.toList.map State.name) ∧ P (A.inputAlphabet.toList.map Symbol.text) ∧
        P (A.stackAlphabet.toList.map Symbol.text) ∧ P (A.accept.toList.map State.name) := by
  simp [memberNames]

end Automaton

/-! ## Rules and their words -/

section Words

variable {epsilon : String} {r : Rule} {words : RuleLine}

theorem savedSlot_symbol? (epsilon word : String) :
    savedSlot epsilon (RuleLine.symbol? epsilon word) = word := by
  unfold RuleLine.symbol?
  split
  · rename_i h
    rw [h]
    rfl
  · rfl

/-- A slot is read back as it was, unless it holds the token itself. -/
theorem symbol?_savedSlot {s : Option Symbol} (h : s ≠ some ⟨epsilon⟩) :
    RuleLine.symbol? epsilon (savedSlot epsilon s) = s := by
  cases s with
  | none => exact if_pos rfl
  | some s =>
    refine if_neg fun htext => h ?_
    rw [← htext]
    rfl

/-- No slot that is read holds the token: the token stands for none. -/
theorem symbol?_ne (epsilon word : String) : RuleLine.symbol? epsilon word ≠ some ⟨epsilon⟩ := by
  unfold RuleLine.symbol?
  split
  · simp
  · rename_i hne
    simpa using hne

theorem toList_pushText (push : List Symbol) :
    (pushText push).toList = push.flatMap fun s => s.text.toList := by
  rw [pushText, String.toList_join, List.flatMap_map]

/-- Symbols of one character each are those of the text that they make up. -/
theorem eq_map_ofChar_pushText {symbols : List Symbol} (h : ∀ s ∈ symbols, ∃ c, s.IsChar c) :
    symbols = (pushText symbols).toList.map Symbol.ofChar := by
  have hchar : ∀ s ∈ symbols, s.text.toList.map Symbol.ofChar = [s] := by
    intro s hs
    obtain ⟨c, hc⟩ := h s hs
    rw [Symbol.char?_eq_some_iff.1 hc, List.map_singleton, ← Symbol.isChar_iff_eq_ofChar.1 hc]
  rw [toList_pushText, List.map_flatMap, List.flatMap_congr hchar]
  simp

/-- What a rule can push is told by its text, character by character. -/
theorem IsPush.eq_map_ofChar {push : List Symbol} (h : IsPush epsilon push) :
    push = (pushText push).toList.map Symbol.ofChar := by
  refine eq_map_ofChar_pushText fun s hs => ?_
  obtain ⟨c, hc, -⟩ := h.char s hs
  exact ⟨c, Symbol.char?_eq_some_iff.2 hc⟩

/-- What a rule pushes is written as one word, if it pushes anything. -/
theorem IsPush.isSlot {push : List Symbol} (h : IsPush epsilon push) (hne : push ≠ []) :
    IsSlot (pushText push).toList := by
  refine ⟨⟨?_, ?_⟩, h.arrow hne⟩
  · intro hnil
    have hpush : push = [] := by rw [h.eq_map_ofChar, hnil, List.map_nil]
    exact hne hpush
  · intro c hc
    rw [toList_pushText] at hc
    obtain ⟨s, hs, hcs⟩ := List.mem_flatMap.1 hc
    obtain ⟨d, hd, hspace⟩ := h.char s hs
    rw [hd, List.mem_singleton] at hcs
    rw [hcs, hspace]

/-- What is read from a word can be pushed. -/
theorem isPush_pushed {word : String} (h : IsSlot word.toList) :
    IsPush epsilon (RuleLine.pushed epsilon word) := by
  unfold RuleLine.pushed
  split
  · exact ⟨by simp, by simp, by simp⟩
  · rename_i hne
    have htext : pushText (word.toList.map Symbol.ofChar) = word := by
      rw [← String.toList_inj, toList_pushText, List.flatMap_map]
      simp [Symbol.ofChar]
    refine ⟨?_, fun _ => by rw [htext]; exact hne, fun _ => by rw [htext]; exact h.2⟩
    intro s hs
    obtain ⟨c, hc, rfl⟩ := List.mem_map.1 hs
    exact ⟨c, by simp [Symbol.ofChar], h.1.2 c hc⟩

/-- A rule made of words that can stand in a line can be written. -/
theorem writable_toRule (h : words.WellFormed) (hd : ¬ StartsDeclaration words.source.toList) :
    (words.toRule epsilon).Writable epsilon where
  source := h.source
  source_not_declaration := hd
  read := by
    rw [RuleLine.toRule, savedSlot_symbol?]
    exact h.read
  read_ne := symbol?_ne epsilon words.read
  pop := by
    rw [RuleLine.toRule, savedSlot_symbol?]
    exact h.pop
  pop_ne := symbol?_ne epsilon words.pop
  target := h.target
  push := by
    rw [RuleLine.toRule]
    cases hpush : words.push with
    | none => exact ⟨by simp, by simp, by simp⟩
    | some word => exact isPush_pushed (h.push word hpush)

/-- The words by which a rule is written. -/
def Format.RuleLine.ofRule (epsilon : String) (r : Rule) : RuleLine where
  source := r.source.name
  read := savedSlot epsilon r.read
  pop := savedSlot epsilon r.pop
  target := r.target.name
  push := if r.push = [] then none else some (pushText r.push)

/-- The words of a writable rule can stand in a rule line. -/
theorem Rule.Writable.wellFormed (h : r.Writable epsilon) :
    (RuleLine.ofRule epsilon r).WellFormed where
  source := h.source
  read := h.read
  pop := h.pop
  target := h.target
  push := by
    intro word hword
    rw [RuleLine.ofRule] at hword
    split at hword
    · simp at hword
    · rename_i hne
      obtain rfl : pushText r.push = word := by simpa using hword
      exact h.push.isSlot hne

/-- The words by which a rule is written mean that rule. -/
theorem Rule.Writable.toRule_ofRule (h : r.Writable epsilon) :
    (RuleLine.ofRule epsilon r).toRule epsilon = r := by
  have hpush : (RuleLine.ofRule epsilon r).push.elim [] (RuleLine.pushed epsilon) = r.push := by
    rw [RuleLine.ofRule]
    split
    · rename_i hnil
      rw [hnil]
      rfl
    · rename_i hne
      rw [Option.elim_some, RuleLine.pushed, if_neg (h.push.ne_epsilon hne),
        ← h.push.eq_map_ofChar]
  rw [RuleLine.toRule, hpush]
  simp only [RuleLine.ofRule, symbol?_savedSlot h.read_ne, symbol?_savedSlot h.pop_ne]

end Words

/-! ## What is loaded -/

section Load

variable {cs : List Char}

/-- What stands in a line that is read holds no line feed. -/
theorem mem_entries {e : Entry} (h : e ∈ entries cs) :
    ∃ line : List Char, '\n' ∉ line ∧ NoLeadingSpace line ∧ e = Entry.ofText line := by
  obtain ⟨line, hline, rfl⟩ := List.mem_map.1 h
  obtain ⟨hnewline, hleading, -⟩ := mem_contentLines hline
  exact ⟨line.text, hnewline, hleading, rfl⟩

/-- A declared value has no colon, and is part of one line. -/
theorem mem_declared {keyword : Keyword} {value : List Char}
    (h : value ∈ declared keyword (entries cs)) : ':' ∉ value ∧ '\n' ∉ value := by
  obtain ⟨e, he, hvalue⟩ := List.mem_filterMap.1 h
  obtain ⟨line, hnewline, -, rfl⟩ := mem_entries he
  have hd : declaration? line = some (keyword, value) :=
    Entry.ofText_eq_declaration_iff.1 (Entry.value?_eq_some_iff.1 hvalue)
  exact ⟨colon_not_mem_of_declaration? hd,
    fun hmem => hnewline ((infix_of_declaration? hd).subset hmem)⟩

/-- What stands between the commas of a value can be the name of a member. -/
theorem isMember_of_mem_members {value : List Char} {m : String} (hcolon : ':' ∉ value)
    (hnewline : '\n' ∉ value) (h : m ∈ members value) : IsMember m := by
  obtain ⟨piece, hpiece, rfl⟩ := List.mem_map.1 h
  have hpart : piece <:+: value := infix_of_mem_splitOn hpiece
  rw [← String.toList_ofList (l := piece)] at hpiece hpart
  exact ⟨not_mem_of_mem_splitOn hpiece, fun hmem => hcolon (hpart.subset hmem),
    fun hmem => hnewline (hpart.subset hmem)⟩

/-- The members of a declared set. -/
theorem isMember_of_field {α : Type} [DecidableEq α] (f : Draft.Field (OrderedSet α))
    (name : α ≃ String)
    (hf : ∀ value, f.ofValue value = OrderedSet.ofList ((members value).map name.symm)) :
    ∀ m ∈ ((f.get (Draft.ofText cs)).getD ∅).toList.map name, IsMember m := by
  intro m hm
  rw [f.get_ofText] at hm
  cases hlast : (declared f.keyword (entries cs)).getLast? with
  | none => simp [hlast] at hm
  | some value =>
    obtain ⟨hcolon, hnewline⟩ := mem_declared (List.mem_of_getLast? hlast)
    rw [hlast, Option.map_some, Option.getD_some, hf, List.mem_map] at hm
    obtain ⟨a, ha, rfl⟩ := hm
    rw [OrderedSet.mem_toList, OrderedSet.mem_ofList, List.mem_map] at ha
    obtain ⟨m, hm, rfl⟩ := ha
    rw [Equiv.apply_symm_apply]
    exact isMember_of_mem_members hcolon hnewline hm

/-- The name of a start state that is read has no colon, no line break and no white space around it. -/
theorem isStart_of_start? {start : State} (h : (Draft.ofText cs).start? = some start) :
    IsStart start.name := by
  rw [Draft.start?, Option.map_eq_some_iff] at h
  obtain ⟨name, hname, rfl⟩ := h
  obtain ⟨hstart, hne⟩ := Option.filter_eq_some_iff.1 hname
  have hget := Draft.startField.get_ofText cs
  rw [show Draft.startField.get (Draft.ofText cs) = some name from hstart, eq_comm,
    Option.map_eq_some_iff] at hget
  obtain ⟨value, hvalue, hname⟩ := hget
  obtain ⟨hcolon, hnewline⟩ := mem_declared (List.mem_of_getLast? hvalue)
  have htrim : name.toList = trim value := by
    rw [← hname]
    exact String.toList_ofList
  refine ⟨by simpa using hne, ?_, ?_, ?_, ?_⟩
  · rw [htrim]
    exact fun hmem => hcolon ((trim_isInfix value).subset hmem)
  · rw [htrim]
    exact fun hmem => hnewline ((trim_isInfix value).subset hmem)
  · rw [htrim]
    exact noLeadingSpace_trim value
  · rw [htrim]
    exact noTrailingSpace_trim value

/-- No name in an automaton that was loaded holds a separator of the format. -/
theorem loadable_of_load {epsilon text : String} {loaded : Loaded}
    (h : load epsilon text = .ok loaded) : loaded.automaton.Loadable epsilon := by
  obtain ⟨start, hstart, -, rfl⟩ := load_eq_ok_iff.1 h
  refine ⟨Automaton.forall_memberNames.2 ⟨?_, ?_, ?_, ?_⟩, isStart_of_start? hstart, ?_⟩
  · exact isMember_of_field Draft.statesField State.equiv fun _ => rfl
  · exact isMember_of_field Draft.inputField Symbol.equiv fun _ => rfl
  · exact isMember_of_field Draft.stackField Symbol.equiv fun _ => rfl
  · exact isMember_of_field Draft.acceptField State.equiv fun _ => rfl
  · intro r hr
    obtain ⟨words, hwords, rfl⟩ := List.mem_map.1 hr
    rw [Draft.rules_ofText] at hwords
    obtain ⟨e, he, hrule⟩ := List.mem_filterMap.1 hwords
    obtain ⟨line, -, hleading, rfl⟩ := mem_entries he
    obtain ⟨hwf, hd⟩ := Entry.wellFormed_of_ofText (Entry.rule?_eq_some_iff.1 hrule) hleading
    exact writable_toRule hwf hd

end Load

end PDA
