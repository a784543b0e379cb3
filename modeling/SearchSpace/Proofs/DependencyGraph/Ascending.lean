import Mathlib.Data.List.Nodup
import Mathlib.Data.List.Perm.Subperm
import Mathlib.Data.List.Sort
import SearchSpace.DependencyGraph

/-!
# Indices in ascending order

`DependencyGraph.ascending` has the members of a list (`mem_ascending`), each less than the ones
after it (`pairwise_ascending`). It is shorter than the list unless no member stands there twice
(`nodup_of_length_ascending`), which is how repeated indices are found.
-/

namespace SearchSpace.DependencyGraph

/-- Erasing repetitions leaves a part of the list, in which no member stands twice. -/
theorem eraseDups_spec : ∀ l : List Nat, l.eraseDups.Sublist l ∧ l.eraseDups.Nodup
  | [] => ⟨List.Sublist.refl _, List.nodup_nil⟩
  | i :: l => by
    obtain ⟨hsublist, hnodup⟩ := eraseDups_spec (l.filter fun j => !j == i)
    rw [List.eraseDups_cons]
    refine ⟨(hsublist.trans List.filter_sublist).cons_cons i, List.nodup_cons.2 ⟨?_, hnodup⟩⟩
    rw [List.mem_eraseDups, List.mem_filter]
    simp
termination_by l => l.length
decreasing_by exact Nat.lt_succ_of_le (List.length_filter_le _ _)

/-- The members of a list are those in ascending order. -/
@[simp] theorem mem_ascending {i : Nat} {l : List Nat} : i ∈ ascending l ↔ i ∈ l := by
  rw [ascending, List.mem_eraseDups, List.mem_mergeSort]

/-- In ascending order every member is less than the ones after it. -/
theorem pairwise_ascending (l : List Nat) : (ascending l).Pairwise (· < ·) := by
  have hsorted : (l.mergeSort (· ≤ ·)).Pairwise fun i j => decide (i ≤ j) = true :=
    List.pairwise_mergeSort (fun i j k hij hjk => by grind) (fun i j => by grind) l
  have hle := hsorted.sublist (eraseDups_spec _).1
  refine (hle.and (eraseDups_spec (l.mergeSort (· ≤ ·))).2).imp fun h => ?_
  exact Nat.lt_of_le_of_ne (of_decide_eq_true h.1) h.2

/-- In ascending order no member stands twice. -/
theorem nodup_ascending (l : List Nat) : (ascending l).Nodup :=
  (eraseDups_spec _).2

/-- There is only one ascending list of the members. -/
theorem ascending_eq_iff {l l' : List Nat} :
    ascending l = l' ↔ l'.Pairwise (· < ·) ∧ ∀ i, i ∈ l' ↔ i ∈ l := by
  constructor
  · rintro rfl
    exact ⟨pairwise_ascending l, fun i => mem_ascending⟩
  · rintro ⟨hascends, hmem⟩
    exact (pairwise_ascending l).eq_of_mem_iff hascends fun i => mem_ascending.trans (hmem i).symm

/-- An ascending list is in ascending order already. -/
theorem ascending_eq_self {l : List Nat} (h : l.Pairwise (· < ·)) : ascending l = l :=
  ascending_eq_iff.2 ⟨h, fun _ => Iff.rfl⟩

/-- A list in which no member stands twice has the same members in ascending order. -/
theorem perm_ascending {l : List Nat} (h : l.Nodup) : (ascending l).Perm l :=
  (List.perm_ext_iff_of_nodup (nodup_ascending l) h).2 fun _ => mem_ascending

/-- A list that is no longer than its members in ascending order has each of them once. -/
theorem nodup_of_length_ascending {l : List Nat} (h : (ascending l).length = l.length) :
    l.Nodup := by
  have hsubset : ascending l ⊆ l := fun _ => mem_ascending.1
  have hsubperm := List.subperm_of_subset (nodup_ascending l) hsubset
  have hperm := hsubperm.perm_of_length_le (Nat.le_of_eq h.symm)
  exact hperm.nodup_iff.1 (nodup_ascending l)

end SearchSpace.DependencyGraph
