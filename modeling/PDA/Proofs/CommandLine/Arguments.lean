import Mathlib.Data.List.Basic
import PDA.CommandLine.Arguments

/-!
# What a command line asks for

The arguments of a command line are told by the values that it gives to each option and by the words that
are no options, wherever these stand (`describes_of_parse`). So two command lines that say the same but for
one option ask for the same but for what this option stands for (`SameBut.eq_random`,
`SameBut.eq_verbose`).
-/

namespace PDA.CommandLine

/-! ## Settings -/

/-- The values that settings give to an option, in order. -/
def valuesOf (opt : Opt) (ss : List Setting) : List String :=
  ss.filterMap fun
    | .option o value => if o = opt then some value else none
    | .positional _ => none

/-- The words that are no options, in order. -/
def positionals (ss : List Setting) : List String :=
  ss.filterMap fun
    | .option _ _ => none
    | .positional arg => some arg

/-- Whether a setting is about an option. -/
def Setting.isOf (opt : Opt) : Setting → Bool
  | .option o _ => o = opt
  | .positional _ => false

section Settings

variable {opt o : Opt} {ss : List Setting} {value : Option String}

theorem valueOf_eq_ok_iff : valueOf opt ss = .ok value ↔ valuesOf opt ss = value.toList := by
  unfold valueOf
  dsimp only
  split
  · rename_i hnil
    have hvalues : valuesOf opt ss = [] := hnil
    cases value <;> simp [hvalues]
  · rename_i v hone
    have hvalues : valuesOf opt ss = [v] := hone
    cases value <;> simp [hvalues]
  · rename_i hnil hone
    have hvalues : valuesOf opt ss ≠ value.toList := by
      cases value with
      | none => exact hnil
      | some v => exact hone v
    simp only [reduceCtorEq, hvalues]

/-- Settings that are about another option have no say. -/
theorem valuesOf_filter (h : o ≠ opt) (ss : List Setting) :
    valuesOf o (ss.filter (!·.isOf opt)) = valuesOf o ss := by
  rw [valuesOf, valuesOf, List.filterMap_filter]
  refine List.filterMap_congr fun s _ => ?_
  cases s with
  | positional arg => rfl
  | option o' value =>
    by_cases ho : o' = opt
    · simp [Setting.isOf, ho, Ne.symm h]
    · simp [Setting.isOf, ho]

theorem positionals_filter (opt : Opt) (ss : List Setting) :
    positionals (ss.filter (!·.isOf opt)) = positionals ss := by
  rw [positionals, positionals, List.filterMap_filter]
  refine List.filterMap_congr fun s _ => ?_
  cases s with
  | positional arg => rfl
  | option o value => simp

end Settings

/-! ## Arguments -/

/-- The number that a value stands for, if there is a value. -/
def readWord? (value : Option String) : Except UsageError (Option UInt64) := value.mapM readWord

/-- The arguments are those that the settings stand for. -/
structure Describes (ss : List Setting) (args : Arguments) : Prop where
  once : ∀ opt, (valuesOf opt ss).length ≤ 1
  verbose : args.verbose = (valuesOf .verbose ss).head?.isSome
  epsilon : args.epsilon = (valuesOf .epsilon ss).head?.getD Format.defaultEpsilon
  random : ∃ n, readWord? (valuesOf .random ss).head? = .ok n ∧ args.random = n.elim 0 UInt64.toNat
  seed : ∃ n, readWord? (valuesOf .seed ss).head? = .ok n ∧ args.seed = n.getD 1
  endMarker : args.endMarker = (valuesOf .endMarker ss).head?.getD "$"
  config : args.config = (positionals ss).head?.getD "inputs/expressions.pda"
  inputs : args.inputs = (positionals ss).tail

section Arguments

variable {cmd : List String} {args args' : Arguments} {ss ss' : List Setting} {opt : Opt}

theorem exists_of_bind_eq_ok {ε α β : Type} {x : Except ε α} {f : α → Except ε β} {b : β}
    (h : x >>= f = .ok b) : ∃ a, x = .ok a ∧ f a = .ok b := by
  cases x with
  | error e => contradiction
  | ok a => exact ⟨a, rfl, h⟩

/-- The arguments are those that the settings of the command describe. -/
theorem describes_of_parse (h : Arguments.parse cmd = .ok args) :
    ∃ ss, settings cmd = .ok ss ∧ Describes ss args := by
  obtain ⟨ss, hss, h⟩ := exists_of_bind_eq_ok h
  obtain ⟨verbose, hverbose, h⟩ := exists_of_bind_eq_ok h
  obtain ⟨epsilon, hepsilon, h⟩ := exists_of_bind_eq_ok h
  obtain ⟨random, hrandom, h⟩ := exists_of_bind_eq_ok h
  obtain ⟨count, hcount, h⟩ := exists_of_bind_eq_ok h
  obtain ⟨seed, hseed, h⟩ := exists_of_bind_eq_ok h
  obtain ⟨word, hword, h⟩ := exists_of_bind_eq_ok h
  obtain ⟨endMarker, hendMarker, h⟩ := exists_of_bind_eq_ok h
  obtain rfl := Except.ok.inj h
  rw [valueOf_eq_ok_iff] at hverbose hepsilon hrandom hseed hendMarker
  refine ⟨ss, hss, ?_, ?_, ?_, ⟨count, ?_, rfl⟩, ⟨word, ?_, rfl⟩, ?_, rfl, rfl⟩
  · intro opt
    cases opt <;> simp only [hverbose, hepsilon, hrandom, hseed, hendMarker, Option.length_toList_le]
  · rw [hverbose, Option.head?_toList]
  · rw [hepsilon, Option.head?_toList]
  · rwa [hrandom, Option.head?_toList]
  · rwa [hseed, Option.head?_toList]
  · rw [hendMarker, Option.head?_toList]

namespace Describes

variable (h : Describes ss args) (h' : Describes ss' args')
include h h'

theorem random_congr (heq : valuesOf .random ss' = valuesOf .random ss) :
    args'.random = args.random := by
  obtain ⟨n, hn, hrandom⟩ := h.random
  obtain ⟨n', hn', hrandom'⟩ := h'.random
  rw [heq, hn] at hn'
  rw [hrandom, hrandom', Except.ok.inj hn']

theorem seed_congr (heq : valuesOf .seed ss' = valuesOf .seed ss) : args'.seed = args.seed := by
  obtain ⟨n, hn, hseed⟩ := h.seed
  obtain ⟨n', hn', hseed'⟩ := h'.seed
  rw [heq, hn] at hn'
  rw [hseed, hseed', Except.ok.inj hn']

end Describes

end Arguments

/-! ## Command lines that are almost the same -/

/-- The two command lines say the same but for one option. -/
def SameBut (opt : Opt) (cmd cmd' : List String) : Prop :=
  ∃ ss ss', settings cmd = .ok ss ∧ settings cmd' = .ok ss' ∧
    ss.filter (!·.isOf opt) = ss'.filter (!·.isOf opt)

/-- The option is on the command line. -/
def Gives (opt : Opt) (cmd : List String) : Prop :=
  ∃ ss, settings cmd = .ok ss ∧ valuesOf opt ss ≠ []

/-- The command line asks for so many random strings: for as many as it says, or for none if it does not
say. -/
def AsksFor (cmd : List String) (count : Nat) : Prop :=
  ∃ ss, settings cmd = .ok ss ∧
    ((valuesOf .random ss = [] ∧ count = 0) ∨
      ∃ value n, valuesOf .random ss = [value] ∧ readWord value = .ok n ∧ count = n.toNat)

section Same

variable {cmd cmd' : List String} {args args' : Arguments} {opt : Opt} {count : Nat}

/-- Two commands that differ in one option describe the same values for every other. -/
theorem SameBut.exists_describes (h : SameBut opt cmd cmd') (hargs : Arguments.parse cmd = .ok args)
    (hargs' : Arguments.parse cmd' = .ok args') : ∃ ss ss', Describes ss args ∧ Describes ss' args' ∧
      (∀ o, o ≠ opt → valuesOf o ss' = valuesOf o ss) ∧ positionals ss' = positionals ss := by
  obtain ⟨ss, ss', hss, hss', hsame⟩ := h
  obtain ⟨rs, hrs, hdescribes⟩ := describes_of_parse hargs
  obtain ⟨rs', hrs', hdescribes'⟩ := describes_of_parse hargs'
  obtain rfl := Except.ok.inj (hss.symm.trans hrs)
  obtain rfl := Except.ok.inj (hss'.symm.trans hrs')
  refine ⟨ss, ss', hdescribes, hdescribes', fun o ho => ?_, ?_⟩
  · rw [← valuesOf_filter ho ss', ← hsame, valuesOf_filter ho]
  · rw [← positionals_filter opt ss', ← hsame, positionals_filter]

/-- The fields for which no option is changed here. -/
theorem SameBut.agree (h : SameBut opt cmd cmd') (hargs : Arguments.parse cmd = .ok args)
    (hargs' : Arguments.parse cmd' = .ok args') (hopt : opt = .random ∨ opt = .verbose) :
    args'.epsilon = args.epsilon ∧ args'.seed = args.seed ∧ args'.endMarker = args.endMarker ∧
      args'.config = args.config ∧ args'.inputs = args.inputs := by
  obtain ⟨ss, ss', hss, hss', hvalues, hpos⟩ := h.exists_describes hargs hargs'
  have hne : Opt.epsilon ≠ opt ∧ Opt.seed ≠ opt ∧ Opt.endMarker ≠ opt := by
    rcases hopt with rfl | rfl <;> decide
  refine ⟨?_, hss.seed_congr hss' (hvalues _ hne.2.1), ?_, ?_, ?_⟩
  · rw [hss'.epsilon, hvalues _ hne.1, hss.epsilon]
  · rw [hss'.endMarker, hvalues _ hne.2.2, hss.endMarker]
  · rw [hss'.config, hpos, hss.config]
  · rw [hss'.inputs, hpos, hss.inputs]

/-- Commands that differ in `--random` have equal arguments, but for the number. -/
theorem SameBut.eq_random (h : SameBut .random cmd cmd') (hargs : Arguments.parse cmd = .ok args)
    (hargs' : Arguments.parse cmd' = .ok args') : args' = { args with random := args'.random } := by
  obtain ⟨hepsilon, hseed, hmarker, hconfig, hinputs⟩ := h.agree hargs hargs' (.inl rfl)
  obtain ⟨ss, ss', hss, hss', hvalues, -⟩ := h.exists_describes hargs hargs'
  have hverbose : args'.verbose = args.verbose := by
    rw [hss'.verbose, hvalues _ (by decide), hss.verbose]
  rw [← hverbose, ← hepsilon, ← hseed, ← hmarker, ← hconfig, ← hinputs]

/-- Commands that differ in `--verbose` have equal arguments, but for the flag. -/
theorem SameBut.eq_verbose (h : SameBut .verbose cmd cmd') (hargs : Arguments.parse cmd = .ok args)
    (hargs' : Arguments.parse cmd' = .ok args') : args' = { args with verbose := args'.verbose } := by
  obtain ⟨hepsilon, hseed, hmarker, hconfig, hinputs⟩ := h.agree hargs hargs' (.inr rfl)
  obtain ⟨ss, ss', hss, hss', hvalues, -⟩ := h.exists_describes hargs hargs'
  have hrandom : args'.random = args.random := hss.random_congr hss' (hvalues _ (by decide))
  rw [← hepsilon, ← hrandom, ← hseed, ← hmarker, ← hconfig, ← hinputs]

theorem verbose_iff_gives (h : Arguments.parse cmd = .ok args) :
    args.verbose = true ↔ Gives .verbose cmd := by
  obtain ⟨ss, hss, hdescribes⟩ := describes_of_parse h
  rw [hdescribes.verbose, List.isSome_head?]
  constructor
  · exact fun hne => ⟨ss, hss, by simpa using hne⟩
  · rintro ⟨rs, hrs, hne⟩
    obtain rfl := Except.ok.inj (hss.symm.trans hrs)
    simpa using hne

/-- A command line asks for just as many random strings as its arguments say. -/
theorem AsksFor.eq_random (h : AsksFor cmd count) (hargs : Arguments.parse cmd = .ok args) :
    args.random = count := by
  obtain ⟨ss, hss, hdescribes⟩ := describes_of_parse hargs
  obtain ⟨n, hn, hrandom⟩ := hdescribes.random
  obtain ⟨rs, hrs, ⟨hvalues, rfl⟩ | ⟨value, m, hvalues, hm, rfl⟩⟩ := h
  · obtain rfl := Except.ok.inj (hss.symm.trans hrs)
    rw [hvalues] at hn
    obtain rfl := Except.ok.inj hn
    exact hrandom
  · obtain rfl := Except.ok.inj (hss.symm.trans hrs)
    have hread : readWord? (some value) = .ok (some m) := by
      simp only [readWord?, Option.mapM_some, hm]
      rfl
    rw [hvalues, List.head?_cons, hread] at hn
    obtain rfl := Except.ok.inj hn
    exact hrandom

end Same

end PDA.CommandLine
