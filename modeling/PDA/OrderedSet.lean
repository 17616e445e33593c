/-!
# Sets that remember the order of insertion

A finite set whose members keep the place at which they were first inserted. The order is seen when
the members are listed, and plays no part in `OrderedSet.Same`, equality as sets.
-/

namespace PDA

/-- A finite set with its members in the order in which they were first inserted. -/
@[ext]
structure OrderedSet (α : Type) where
  /-- The members, first inserted first. -/
  toList : List α
  /-- No member is listed twice. -/
  nodup : toList.Nodup
  deriving DecidableEq

namespace OrderedSet

variable {α : Type}

instance : Membership α (OrderedSet α) := ⟨fun s a => a ∈ s.toList⟩

instance : EmptyCollection (OrderedSet α) := ⟨⟨[], List.nodup_nil⟩⟩

instance : Inhabited (OrderedSet α) := ⟨∅⟩

@[simp] theorem mem_toList {a : α} {s : OrderedSet α} : a ∈ s.toList ↔ a ∈ s := Iff.rfl

@[simp] theorem not_mem_empty (a : α) : a ∉ (∅ : OrderedSet α) := List.not_mem_nil

@[simp] theorem toList_empty : (∅ : OrderedSet α).toList = [] := rfl

/-- The two sets have the same members, in whatever order. -/
def Same (s t : OrderedSet α) : Prop := (∀ a ∈ s.toList, a ∈ t) ∧ ∀ a ∈ t.toList, a ∈ s

/-- `Same` is equality of membership. -/
theorem same_iff {s t : OrderedSet α} : Same s t ↔ ∀ a, a ∈ s ↔ a ∈ t :=
  ⟨fun h a => ⟨h.1 a, h.2 a⟩, fun h => ⟨fun a => (h a).1, fun a => (h a).2⟩⟩

variable [DecidableEq α]

instance (a : α) (s : OrderedSet α) : Decidable (a ∈ s) :=
  inferInstanceAs (Decidable (a ∈ s.toList))

/-- Insert a member at the end; a member that is there already keeps its place. -/
def insert (s : OrderedSet α) (a : α) : OrderedSet α :=
  if h : a ∈ s then s
  else ⟨s.toList ++ [a], by
    rw [List.nodup_append]
    refine ⟨s.nodup, by simp, ?_⟩
    intro x hx y hy
    rw [List.mem_singleton] at hy
    exact fun heq => h (hy ▸ heq ▸ hx)⟩

/-- The members of a list, with repetitions dropped except for the first. -/
def ofList (as : List α) : OrderedSet α := as.foldl insert ∅

instance (s t : OrderedSet α) : Decidable (Same s t) :=
  inferInstanceAs (Decidable (_ ∧ _))

/-- The position of a member. -/
def indexOf? (s : OrderedSet α) (a : α) : Option Nat := s.toList.idxOf? a

/-! ## Basic facts -/

/-- A new member comes last, and one that is there already keeps its place. -/
theorem toList_insert (s : OrderedSet α) (a : α) :
    (s.insert a).toList = if a ∈ s then s.toList else s.toList ++ [a] := by
  unfold insert
  split <;> rfl

@[simp] theorem mem_insert {s : OrderedSet α} {a b : α} : b ∈ s.insert a ↔ b ∈ s ∨ b = a := by
  rw [← mem_toList, toList_insert]
  split
  · rename_i h
    constructor
    · exact Or.inl
    · rintro (hb | rfl)
      · exact hb
      · exact h
  · rw [List.mem_append, List.mem_singleton, mem_toList]

/-- Inserting one after the other adds just these members. -/
theorem mem_foldl_insert {as : List α} {s : OrderedSet α} {b : α} :
    b ∈ as.foldl insert s ↔ b ∈ s ∨ b ∈ as := by
  induction as generalizing s with
  | nil => simp
  | cons a as ih => simp [ih, or_assoc]

@[simp] theorem mem_ofList {as : List α} {b : α} : b ∈ ofList as ↔ b ∈ as := by
  rw [ofList, mem_foldl_insert]
  simp

end OrderedSet

end PDA
