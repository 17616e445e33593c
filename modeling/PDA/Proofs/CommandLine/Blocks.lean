import Mathlib.Data.List.Forall2
import PDA.CommandLine.Report

/-!
# The blocks of a report

What is printed about an input is told by three things: the input, the verdict on it, and the steps of the
run, if they are listed (`Block`). One block only says what is true of an input (`Block.IsFor.eq_of`), and
asking for more adds the steps at its end (`Block.text_prefix`).
-/

namespace PDA.CommandLine

/-- What is said about an input. -/
structure Block where
  /-- The input that was tested. -/
  input : String
  /-- The verdict. -/
  accepted : Bool
  /-- The steps of the run, if they are listed. -/
  trace : Option (List Step)

namespace Block

/-- The block as it is printed. -/
def text (b : Block) : String :=
  "\nTesting: " ++ b.input ++ "\nResult: " ++ (if b.accepted then "Accepted" else "Rejected") ++ "\n" ++
    b.trace.elim "" fun steps => "Trace:\n" ++ String.join (steps.map fun s => s.render ++ "\n")

/-- The block says of an input what is true of it: whether the automaton accepts it, and, if it does or if
more is asked for, which steps it takes. -/
structure IsFor (A : Automaton) (verbose : Bool) (input : String) (b : Block) : Prop where
  input_eq : b.input = input
  accepted_iff : b.accepted = true ↔ A.Accepts input
  listed_iff : b.trace.isSome ↔ A.Accepts input ∨ verbose = true
  trace_eq : ∀ steps ∈ b.trace, steps = (A.process input).trace

/-- The block of an input. -/
def of (A : Automaton) (verbose : Bool) (input : String) : Block where
  input := input
  accepted := (A.process input).accepted
  trace := if (A.process input).accepted || verbose then some (A.process input).trace else none

variable {A : Automaton} {verbose : Bool} {input : String} {b : Block}

theorem text_of (A : Automaton) (verbose : Bool) (input : String) :
    (of A verbose input).text = block A verbose input := by
  rw [text, of, block]
  cases (A.process input).accepted || verbose <;> rfl

theorem isFor_of (A : Automaton) (verbose : Bool) (input : String) :
    (of A verbose input).IsFor A verbose input where
  input_eq := rfl
  accepted_iff := Iff.rfl
  listed_iff := by
    rw [of, Automaton.Accepts, ← Bool.or_eq_true]
    split <;> simp_all
  trace_eq steps hsteps := by
    rw [of] at hsteps
    split at hsteps
    · exact (Option.mem_some.1 hsteps).symm
    · contradiction

/-- Only one block says what is true of an input. -/
theorem IsFor.eq_of (h : b.IsFor A verbose input) : b = of A verbose input := by
  obtain ⟨input', accepted, trace⟩ := b
  obtain rfl : input' = input := h.input_eq
  obtain rfl : accepted = (A.process input').accepted := Bool.eq_iff_iff.2 h.accepted_iff
  have hlisted : trace.isSome = ((A.process input').accepted || verbose) := by
    rw [Bool.eq_iff_iff, Bool.or_eq_true]
    exact h.listed_iff
  rw [of, ← hlisted]
  cases trace with
  | none => rfl
  | some steps =>
    obtain rfl := h.trace_eq steps rfl
    rfl

/-- Asking for more only adds to the end of a block. -/
theorem text_prefix (A : Automaton) (input : String) :
    (of A false input).text.toList <+: (of A true input).text.toList := by
  rw [text_of, text_of, block, block, Bool.or_true, if_pos rfl, Bool.or_false]
  -- The blocks differ only if the steps are listed in the second one alone.
  split
  · exact List.prefix_rfl
  · rw [String.append_empty, String.toList_append (t := "Trace:\n" ++ _)]
    exact List.prefix_append _ _

/-- A block says the same as another one, and perhaps more after it. -/
def Begins (b b' : Block) : Prop :=
  b'.input = b.input ∧ b'.accepted = b.accepted ∧ b.text.toList <+: b'.text.toList

end Block

/-! ## Blocks one after the other -/

/-- What is printed for a list of inputs is one block after the other, each of which says what is true of its
input. -/
theorem exists_blocks (A : Automaton) (verbose : Bool) (inputs : List String) : ∃ blocks : List Block,
    List.Forall₂ (Block.IsFor A verbose) inputs blocks ∧
      String.join (inputs.map (block A verbose)) = String.join (blocks.map Block.text) := by
  induction inputs with
  | nil => exact ⟨[], .nil, rfl⟩
  | cons input inputs ih =>
    obtain ⟨blocks, hblocks, htext⟩ := ih
    refine ⟨Block.of A verbose input :: blocks, .cons (Block.isFor_of A verbose input) hblocks, ?_⟩
    rw [List.map_cons, List.map_cons, String.join_cons, String.join_cons, Block.text_of, htext]

/-- The blocks with and without asking for more belong together one by one. -/
theorem forall_begins {A : Automaton} {inputs : List String} {bs bs' : List Block}
    (h : List.Forall₂ (Block.IsFor A false) inputs bs) (h' : List.Forall₂ (Block.IsFor A true) inputs bs') :
    List.Forall₂ Block.Begins bs bs' := by
  induction h generalizing bs' with
  | nil =>
    cases h'
    exact .nil
  | cons hb _ ih =>
    obtain _ | ⟨hb', hrest⟩ := h'
    obtain rfl := hb.eq_of
    obtain rfl := hb'.eq_of
    exact .cons ⟨rfl, rfl, Block.text_prefix A _⟩ (ih hrest)

/-- If every block begins as another one does, the first blocks are what is left of the others when some of
their text is deleted. -/
theorem sublist_of_forall_begins {bs bs' : List Block} (h : List.Forall₂ Block.Begins bs bs') :
    (String.join (bs.map Block.text)).toList.Sublist (String.join (bs'.map Block.text)).toList := by
  induction h with
  | nil => exact List.Sublist.refl _
  | cons hb _ ih =>
    rw [List.map_cons, List.map_cons, String.join_cons, String.join_cons, String.toList_append,
      String.toList_append]
    exact hb.2.2.sublist.append ih

end PDA.CommandLine
