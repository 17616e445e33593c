import Mathlib.Data.List.Nodup
import PDA.Proofs.Machine.RuleOrder
import PDA.Sampling.Input

/-!
# What random inputs look like

A random input is made of numbers that are drawn one after the other and looked up in the table of
letters (`drawLetters_eq`). The table holds every symbol of one character once (`Automaton.nodup_letters`),
so different numbers give different letters. Since the numbers are drawn one by one, many letters may be
drawn in two goes (`drawLetters_add`).
-/

namespace PDA

open Sampling

variable {γ : Type} [Source γ]

/-! ## Drawing one by one -/

/-- The numbers below `n` that are drawn one after the other. -/
def drawNumbers (n : Nat) (h : 0 < n) : (count : Nat) → γ → List (Fin n) × γ
  | 0, g => ([], g)
  | count + 1, g =>
    let (i, g) := Source.draw n h g
    let (is, g) := drawNumbers n h count g
    (i :: is, g)

theorem length_drawNumbers {n : Nat} (h : 0 < n) (count : Nat) (g : γ) :
    (drawNumbers n h count g).1.length = count := by
  induction count generalizing g with
  | zero => rfl
  | succ count ih => exact congrArg Nat.succ (ih _)

section Letters

variable {letters : List Char} (h : 0 < letters.length)

/-- The letters are those that stand at the numbers drawn. -/
theorem drawLetters_eq (count : Nat) (g : γ) :
    drawLetters letters h count g = ((drawNumbers letters.length h count g).1.map letters.get,
      (drawNumbers letters.length h count g).2) := by
  induction count generalizing g with
  | zero => rfl
  | succ count ih =>
    simp only [drawLetters, drawNumbers, ih]
    rfl

/-- As many letters are drawn as asked for. -/
theorem length_drawLetters (count : Nat) (g : γ) :
    (drawLetters letters h count g).1.length = count := by
  rw [drawLetters_eq, List.length_map, length_drawNumbers]

/-- Only letters are drawn. -/
theorem mem_of_mem_drawLetters {count : Nat} {g : γ} {c : Char}
    (hc : c ∈ (drawLetters letters h count g).1) : c ∈ letters := by
  rw [drawLetters_eq, List.mem_map] at hc
  obtain ⟨i, -, rfl⟩ := hc
  exact List.get_mem letters i

/-- Letters may be drawn in two goes, the second one with the generator that the first one leaves. -/
theorem drawLetters_add (m n : Nat) (g : γ) : drawLetters letters h (m + n) g =
    ((drawLetters letters h m g).1 ++ (drawLetters letters h n (drawLetters letters h m g).2).1,
      (drawLetters letters h n (drawLetters letters h m g).2).2) := by
  induction m generalizing g with
  | zero =>
    rw [Nat.zero_add]
    rfl
  | succ m ih =>
    rw [Nat.succ_add]
    simp only [drawLetters, ih]
    rfl

end Letters

/-! ## The table of letters -/

namespace Automaton

variable {A : Automaton}

theorem mem_letters {c : Char} : c ∈ A.letters ↔ Symbol.ofChar c ∈ A.inputAlphabet := by
  rw [letters, List.mem_filterMap]
  constructor
  · rintro ⟨s, hs, hc⟩
    rwa [← Symbol.isChar_iff_eq_ofChar.1 hc]
  · intro hc
    exact ⟨Symbol.ofChar c, hc, Symbol.char?_ofChar c⟩

theorem nodup_letters (A : Automaton) : A.letters.Nodup := by
  refine A.inputAlphabet.nodup.filterMap fun s t c hs ht => ?_
  exact (Symbol.isChar_iff_eq_ofChar.1 hs).trans (Symbol.isChar_iff_eq_ofChar.1 ht).symm

/-- There are no letters exactly if no input symbol is a single character. -/
theorem letters_eq_nil_iff : A.letters = [] ↔ ∀ s ∈ A.inputAlphabet, ¬ s.IsSingle := by
  rw [List.eq_nil_iff_forall_not_mem]
  simp only [mem_letters, Symbol.isSingle_iff]
  constructor
  · rintro h s hs ⟨c, hc⟩
    exact h c (Symbol.isChar_iff_eq_ofChar.1 hc ▸ hs)
  · intro h c hc
    exact h _ hc ⟨c, Symbol.char?_ofChar c⟩

theorem letters_pos_iff : 0 < A.letters.length ↔ ∃ s ∈ A.inputAlphabet, s.IsSingle := by
  have hnil : A.letters = [] ↔ ¬ ∃ s ∈ A.inputAlphabet, s.IsSingle := by
    rw [letters_eq_nil_iff]
    simp only [not_exists, not_and]
  rw [List.length_pos_iff, ne_eq, hnil, not_not]

/-! ## Random inputs -/

theorem randomInput_of_pos (h : 0 < A.letters.length) (count : Nat) (extra : String) (g : γ) :
    A.randomInput count extra g =
      (some (String.ofList (drawLetters A.letters h count g).1 ++ extra),
        (drawLetters A.letters h count g).2) := dif_pos h

theorem randomInput_of_nil (h : A.letters = []) (count : Nat) (extra : String) (g : γ) :
    A.randomInput count extra g = (none, g) := dif_neg (by simp [h])

/-- What there is to say about the random inputs of an automaton, for any kind of generator. -/
structure DrawsLetters (γ : Type) [Source γ] (A : Automaton) : Prop where
  none_iff : ∀ count extra (g : γ),
    (A.randomInput count extra g).1 = none ↔ ∀ s ∈ A.inputAlphabet, ¬ s.IsSingle
  untouched : ∀ count extra (g : γ),
    (A.randomInput count extra g).1 = none → (A.randomInput count extra g).2 = g
  shape : ∀ count extra (g : γ) input, (A.randomInput count extra g).1 = some input →
    ∃ cs : List Char, cs.length = count ∧ (∀ c ∈ cs, Symbol.ofChar c ∈ A.inputAlphabet) ∧
      input.toList = cs ++ extra.toList
  looked_up : ∀ (h : 0 < A.letters.length) count extra (g : γ), A.randomInput count extra g =
    (some (String.ofList ((drawNumbers A.letters.length h count g).1.map A.letters.get) ++ extra),
      (drawNumbers A.letters.length h count g).2)
  listed_once : ∀ s ∈ A.inputAlphabet, s.IsSingle → ∃! i, s.IsChar (A.letters.get i)
  distinct : ∀ i j, A.letters.get i = A.letters.get j → i = j
  two_goes : (∃ s ∈ A.inputAlphabet, s.IsSingle) → ∀ m n extra (g : γ), ∃ front back g₁ g₂,
    A.randomInput m "" g = (some front, g₁) ∧ A.randomInput n extra g₁ = (some back, g₂) ∧
      A.randomInput (m + n) extra g = (some (front ++ back), g₂)

/-- There is no random input exactly if there are no letters. -/
theorem randomInput_eq_none_iff {count : Nat} {extra : String} {g : γ} :
    (A.randomInput count extra g).1 = none ↔ A.letters = [] := by
  constructor
  · intro hnone
    by_contra hne
    rw [randomInput_of_pos (List.length_pos_iff.2 hne)] at hnone
    contradiction
  · intro hnil
    rw [randomInput_of_nil hnil]

/-- A random input, if there is one, is made of as many letters as it should, and the text after them. -/
theorem exists_letters_of_randomInput {count : Nat} {extra input : String} {g : γ}
    (h : (A.randomInput count extra g).1 = some input) : ∃ cs : List Char, cs.length = count ∧
      (∀ c ∈ cs, Symbol.ofChar c ∈ A.inputAlphabet) ∧ input.toList = cs ++ extra.toList := by
  have hne : A.letters ≠ [] := by
    intro hnil
    rw [randomInput_of_nil hnil] at h
    contradiction
  have hpos := List.length_pos_iff.2 hne
  rw [randomInput_of_pos hpos] at h
  obtain rfl := Option.some.inj h
  refine ⟨_, length_drawLetters hpos count g, fun c hc => ?_, ?_⟩
  · exact mem_letters.1 (mem_of_mem_drawLetters hpos hc)
  · rw [String.toList_append, String.toList_ofList]

/-- Drawing `m + n` letters is drawing `m` and then `n` more. -/
theorem randomInput_add (h : 0 < A.letters.length) (m n : Nat) (extra : String) (g : γ) :
    ∃ front back g₁ g₂, A.randomInput m "" g = (some front, g₁) ∧
      A.randomInput n extra g₁ = (some back, g₂) ∧
      A.randomInput (m + n) extra g = (some (front ++ back), g₂) := by
  refine ⟨_, _, _, _, randomInput_of_pos h m "" g, randomInput_of_pos h n extra _, ?_⟩
  rw [randomInput_of_pos h, drawLetters_add, String.ofList_append, String.append_empty,
    String.append_assoc]

/-- **Random inputs.** There are none, and nothing is drawn for them, exactly if no input symbol consists of
one character. Otherwise as many numbers are drawn as letters are asked for, each of them is looked up in a
table that lists every input symbol of one character once, and the text after the letters follows as it is;
the letters may be drawn in two goes. -/
theorem randomInput_exact (γ : Type) [Source γ] (A : Automaton) : A.DrawsLetters γ where
  none_iff count extra g := randomInput_eq_none_iff.trans letters_eq_nil_iff
  untouched count extra g h := by rw [randomInput_of_nil (randomInput_eq_none_iff.1 h)]
  shape count extra g input h := exists_letters_of_randomInput h
  looked_up h count extra g := by rw [randomInput_of_pos h, drawLetters_eq]
  listed_once s hs hsingle := by
    obtain ⟨c, hc⟩ := Symbol.isSingle_iff.1 hsingle
    have hmem : c ∈ A.letters := mem_letters.2 (Symbol.isChar_iff_eq_ofChar.1 hc ▸ hs)
    obtain ⟨i, hi⟩ := List.mem_iff_get.1 hmem
    have hchar : s.IsChar (A.letters.get i) := by rwa [hi]
    refine ⟨i, hchar, fun j hj => ?_⟩
    have hij : A.letters.get j = A.letters.get i := Option.some.inj (hj.symm.trans hchar)
    exact List.nodup_iff_injective_get.1 A.nodup_letters hij
  distinct i j hij := List.nodup_iff_injective_get.1 A.nodup_letters hij
  two_goes h m n extra g := randomInput_add (letters_pos_iff.2 h) m n extra g

end Automaton

end PDA
