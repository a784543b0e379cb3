import SearchSpace.Weights

/-!
# Choosing by weight

The search for a bucket never leaves the table (`bucket_lt`), so an index that is chosen by weight is
always that of a weight (`WeightTable.index_lt`), whatever number chooses it. The search compares a
number with edges of the table, and the bucket it ends at lies between edges of which it found the
lower one not above the number and the upper one above it, unless it is the first or the last bucket
(`bucketFrom_edges`).
-/

namespace SearchSpace

section Search

variable {α : Type} [LE α] [DecidableLE α] (table : Array α) (r : α)

/-- Halving a range leaves a bucket of it. -/
theorem bucketFrom_spec (fuel : Nat) {lo hi : Nat} (h : lo < hi) :
    lo ≤ bucketFrom table r fuel lo hi ∧ bucketFrom table r fuel lo hi < hi := by
  induction fuel generalizing lo hi with
  | zero => exact ⟨Nat.le_refl lo, h⟩
  | succ fuel ih =>
    rw [bucketFrom]
    split
    · exact ⟨Nat.le_refl lo, h⟩
    · next hwide =>
      have hmid : lo < lo + (hi - lo) / 2 ∧ lo + (hi - lo) / 2 < hi := by omega
      simp only
      split
      · obtain ⟨hlower, hupper⟩ := ih hmid.2
        exact ⟨by omega, hupper⟩
      · obtain ⟨hlower, hupper⟩ := ih hmid.1
        exact ⟨hlower, by omega⟩

/-- The edge at a place of the table is at most a number. -/
def Reaches (i : Nat) : Prop :=
  ∃ edge ∈ table[i]?, edge ≤ r

/-- Whether the edge at a place is at most a number can be found out. -/
theorem any_eq_true_iff_reaches (i : Nat) : table[i]?.any (· ≤ r) = true ↔ Reaches table r i := by
  rw [Option.any_eq_true, Reaches]
  simp only [decide_eq_true_eq, Option.mem_def]

/-- Halving a range for as long as it has two buckets or more leaves a bucket with an upper edge
above the number and a lower edge not above it, where these edges are not those of the range. -/
theorem bucketFrom_edges {fuel lo hi : Nat} (hlt : lo < hi) (hfuel : hi - lo ≤ fuel + 1) :
    (bucketFrom table r fuel lo hi = lo ∨ Reaches table r (bucketFrom table r fuel lo hi)) ∧
      (bucketFrom table r fuel lo hi + 1 = hi ∨
        ¬Reaches table r (bucketFrom table r fuel lo hi + 1)) := by
  induction fuel generalizing lo hi with
  | zero => exact ⟨.inl rfl, .inl (by rw [bucketFrom]; omega)⟩
  | succ fuel ih =>
    rw [bucketFrom]
    split
    · exact ⟨.inl rfl, .inl (by omega)⟩
    · next hwide =>
      simp only
      split
      · next hreaches =>
        rw [any_eq_true_iff_reaches] at hreaches
        obtain ⟨hlower, hupper⟩ := @ih (lo + (hi - lo) / 2) hi (by omega) (by omega)
        refine ⟨.inr (hlower.elim (fun heq => ?_) id), hupper⟩
        rwa [heq]
      · next hreaches =>
        rw [any_eq_true_iff_reaches] at hreaches
        obtain ⟨hlower, hupper⟩ := @ih lo (lo + (hi - lo) / 2) (by omega) (by omega)
        refine ⟨hlower, .inr (hupper.elim (fun heq => ?_) id)⟩
        rwa [heq]

/-- The bucket of a number is one of the table, which has one bucket less than it has edges. -/
theorem bucket_lt (h : 1 < table.size) : bucket table r < table.size - 1 :=
  (bucketFrom_spec table r (table.size - 1) (by omega)).2

end Search

namespace WeightTable

/-- There are as many running sums as weights. -/
@[simp] theorem length_runningSums (total sum : Float) (weights : List Float) :
    (runningSums total sum weights).length = weights.length := by
  induction weights generalizing sum with
  | nil => rfl
  | cons w weights ih => rw [runningSums, List.length_cons, List.length_cons, ih]

/-- A table has a weight. -/
theorem weights_ne_nil (t : WeightTable) : t.weights ≠ [] := by
  intro hnil
  have hvalid := t.valid
  rw [hnil] at hvalid
  cases hvalid

/-- There is one edge more than there are weights. -/
@[simp] theorem size_cumulative (t : WeightTable) : t.cumulative.size = t.weights.length + 1 := by
  have hpos := List.length_pos_iff.2 t.weights_ne_nil
  simp only [cumulative, edges, List.cons_append, List.size_toArray, List.length_cons,
    List.length_append, List.length_dropLast, length_runningSums, List.length_nil]
  omega

/-- A number chooses the index of a weight. -/
theorem index_lt (t : WeightTable) (r : Float) : t.index r < t.weights.length := by
  have hpos := List.length_pos_iff.2 t.weights_ne_nil
  have hlt := bucket_lt t.cumulative r (by rw [size_cumulative]; omega)
  rwa [size_cumulative, Nat.add_sub_cancel] at hlt

end WeightTable

end SearchSpace
