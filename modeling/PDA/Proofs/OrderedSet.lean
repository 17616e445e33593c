import PDA.OrderedSet
import Mathlib.Data.List.Induction

/-!
# Sets made from lists

The members of a set that is made from a list are those of the list, each at the first place at which
it stands there. A list without repetitions comes back as it was.
-/

namespace PDA.OrderedSet

/-- Equal sets list the same members, each of them once. -/
theorem Same.toList_perm {α : Type} {s t : OrderedSet α} (h : s.Same t) :
    s.toList.Perm t.toList :=
  (List.perm_ext_iff_of_nodup s.nodup t.nodup).2 (same_iff.1 h)

variable {α : Type} [DecidableEq α]

/-- New members that are all different come last, in their order. -/
theorem foldl_insert_of_nodup {as : List α} {s : OrderedSet α} (h : (s.toList ++ as).Nodup) :
    (as.foldl insert s).toList = s.toList ++ as := by
  induction as generalizing s with
  | nil => simp
  | cons a as ih =>
    have ha : a ∉ s := by
      intro hmem
      exact (List.nodup_append.1 h).2.2 a hmem a List.mem_cons_self rfl
    have hinsert : (s.insert a).toList = s.toList ++ [a] := by
      rw [toList_insert, if_neg ha]
    rw [List.foldl_cons, ih (by rw [hinsert]; simpa using h), hinsert]
    simp

@[simp] theorem ofList_toList (s : OrderedSet α) : ofList s.toList = s := by
  ext1
  rw [ofList, foldl_insert_of_nodup (by simpa using s.nodup)]
  rfl

/-- The last element of a list is inserted last. -/
theorem ofList_concat (as : List α) (a : α) : ofList (as ++ [a]) = (ofList as).insert a := by
  rw [ofList, List.foldl_append, List.foldl_cons, List.foldl_nil, ofList]

/-- Of a member that is repeated the first place counts. -/
theorem toList_ofList (as : List α) : (ofList as).toList = as.eraseDups := by
  induction as using List.reverseRecOn with
  | nil => rfl
  | append_singleton as a ih =>
    rw [ofList_concat, toList_insert, List.eraseDups_append, ih]
    by_cases ha : a ∈ as
    · rw [if_pos (mem_ofList.2 ha)]
      simp [List.removeAll, ha]
    · rw [if_neg fun hmem => ha (mem_ofList.1 hmem)]
      simp [List.removeAll, ha, List.eraseDups_cons]

end PDA.OrderedSet
