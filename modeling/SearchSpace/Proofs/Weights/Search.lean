import Mathlib.Order.Lattice
import SearchSpace.Proofs.Weights

/-!
# The search for a bucket

The search halves a range of the table round after round. `Search` is its run: which range each
round has, which edge it compares, and the bucket at which it ends. There is exactly one run, it
compares edges of the table only, and `bucket` is where it ends (`search_iff`).

In a table whose edges ascend, and for a number from its first edge on and below its last one, the
run ends at the only bucket around the number, which is the one that a scan from the left finds
(`bucket_eq_scan`). Edges may be equal: no number lies in a bucket between equal edges.
-/

namespace SearchSpace

/-! ## Runs -/

section Runs

variable {α : Type} [LE α]

/-- The search in the range from one edge to another ends at a bucket. A range of two buckets or
more is halved, and the edge in the middle tells in which half the search goes on. -/
inductive Search (table : Array α) (r : α) : Nat → Nat → Nat → Prop
  | found {lo hi : Nat} : hi - lo ≤ 1 → Search table r lo hi lo
  | right {lo hi i : Nat} (hmid : lo + (hi - lo) / 2 < table.size) : 1 < hi - lo →
      table[lo + (hi - lo) / 2] ≤ r → Search table r (lo + (hi - lo) / 2) hi i →
      Search table r lo hi i
  | left {lo hi i : Nat} (hmid : lo + (hi - lo) / 2 < table.size) : 1 < hi - lo →
      ¬table[lo + (hi - lo) / 2] ≤ r → Search table r lo (lo + (hi - lo) / 2) i →
      Search table r lo hi i

variable {table : Array α} {r : α} {lo hi i j : Nat}

/-- An edge of the table is reached if it is at most the number. -/
theorem reaches_iff_le (h : i < table.size) : Reaches table r i ↔ table[i] ≤ r := by
  rw [Reaches, Array.getElem?_eq_getElem h]
  constructor
  · rintro ⟨edge, hmem, hle⟩
    exact Option.mem_some.1 hmem ▸ hle
  · intro hle
    exact ⟨_, rfl, hle⟩

/-- A range within the table is searched to the end. -/
theorem search_bucketFrom [DecidableLE α] {fuel : Nat} (hfuel : hi - lo ≤ fuel + 1)
    (hsize : hi ≤ table.size) : Search table r lo hi (bucketFrom table r fuel lo hi) := by
  induction fuel generalizing lo hi with
  | zero => exact .found hfuel
  | succ fuel ih =>
    rw [bucketFrom]
    split
    · next hnarrow => exact .found hnarrow
    · next hwide =>
      have hmid : lo + (hi - lo) / 2 < table.size := by omega
      simp only [any_eq_true_iff_reaches, reaches_iff_le hmid]
      split
      · next hle => exact .right hmid (by omega) hle (ih (by omega) hsize)
      · next hnot => exact .left hmid (by omega) hnot (ih (by omega) (by omega))

/-- A search ends at one bucket only. -/
theorem Search.unique (h : Search table r lo hi i) (h' : Search table r lo hi j) : i = j := by
  induction h with
  | found hnarrow =>
    cases h' with
    | found => rfl
    | right _ hwide | left _ hwide => omega
  | right _ hwide hle _ ih =>
    cases h' with
    | found hnarrow => omega
    | right _ _ _ h' => exact ih h'
    | left _ _ hnot => exact absurd hle hnot
  | left _ hwide hnot _ ih =>
    cases h' with
    | found hnarrow => omega
    | right _ _ hle => exact absurd hle hnot
    | left _ _ _ h' => exact ih h'

/-- The whole table is searched to the end, which is at the bucket of the number. -/
theorem search_iff [DecidableLE α] :
    Search table r 0 (table.size - 1) i ↔ i = bucket table r := by
  have hsearch : Search table r 0 (table.size - 1) (bucket table r) :=
    search_bucketFrom (by omega) (by omega)
  exact ⟨fun h => h.unique hsearch, fun h => h ▸ hsearch⟩

/-- The bucket of a number is one of the table, or the first one if the table has none. -/
theorem bucket_lt_max [DecidableLE α] (table : Array α) (r : α) :
    bucket table r < max 1 (table.size - 1) := by
  by_cases h : 1 < table.size
  · have hlt := bucket_lt table r h
    omega
  · have hsize : table.size - 1 = 0 := by omega
    rw [bucket, hsize, bucketFrom]
    omega

end Runs

/-! ## Scanning -/

section Scanning

variable {α : Type} [LinearOrder α] {table : Array α} {r : α} {i j : Nat}

/-- A number lies in a bucket: at its lower edge or above, and below its upper one. -/
def LiesIn (table : Array α) (r : α) (i : Nat) : Prop :=
  ∃ h : i + 1 < table.size, table[i] ≤ r ∧ r < table[i + 1]

instance : DecidablePred (LiesIn table r) := fun i =>
  inferInstanceAs (Decidable (∃ h : i + 1 < table.size, table[i] ≤ r ∧ r < table[i + 1]))

/-- The first bucket from the left in which a number lies. -/
def scan? (table : Array α) (r : α) : Option Nat :=
  (List.range (table.size - 1)).find? fun i => decide (LiesIn table r i)

/-- A number that lies between the ends of a table lies in its bucket. -/
theorem liesIn_bucket (hsize : 2 ≤ table.size) (hfirst : table[0] ≤ r)
    (hlast : r < table[table.size - 1]) : LiesIn table r (bucket table r) := by
  have hlt := bucket_lt table r hsize
  have hedges := bucketFrom_edges table r (show 0 < table.size - 1 by omega)
    (show table.size - 1 - 0 ≤ table.size - 1 + 1 by omega)
  rw [← bucket] at hedges
  obtain ⟨hlower, hupper⟩ := hedges
  refine ⟨by omega, ?_, ?_⟩
  · rcases hlower with hzero | hreaches
    · simpa only [hzero] using hfirst
    · exact (reaches_iff_le (by omega)).1 hreaches
  · rcases hupper with hend | hnot
    · simpa only [hend] using hlast
    · exact lt_of_not_ge fun hle => hnot ((reaches_iff_le (by omega)).2 hle)

/-- In a table whose edges ascend, a number lies in one bucket at most. -/
theorem LiesIn.unique (hascends : table.toList.Pairwise (· ≤ ·)) (hi : LiesIn table r i)
    (hj : LiesIn table r j) : i = j := by
  -- The bucket further to the right begins where the other one ends, or behind it.
  have hnot : ∀ {i j : Nat}, LiesIn table r i → LiesIn table r j → ¬i < j := by
    rintro i j ⟨hi, -, habove⟩ ⟨hj, hbelow, -⟩ hlt
    have hle : table[i + 1] ≤ table[j] := by
      rcases Nat.eq_or_lt_of_le (Nat.succ_le_of_lt hlt) with rfl | hlt
      · exact le_rfl
      · exact List.pairwise_iff_getElem.1 hascends (i + 1) j hi (Nat.lt_of_succ_lt hj) hlt
    exact habove.not_ge (hle.trans hbelow)
  have hij := hnot hi hj
  have hji := hnot hj hi
  omega

/-- In a table whose edges ascend, and for a number between its ends, the search ends at the only
bucket in which the number lies, which is the one that a scan finds. In any table it ends at a
bucket of the table. -/
theorem bucket_eq_scan :
    (∀ {α : Type} [LinearOrder α] (table : Array α) (r : α) (hsize : 2 ≤ table.size),
      table.toList.Pairwise (· ≤ ·) → table[0] ≤ r → r < table[table.size - 1] →
        Search table r 0 (table.size - 1) (bucket table r) ∧
          (∀ i, LiesIn table r i ↔ i = bucket table r) ∧
          scan? table r = some (bucket table r)) ∧
      ∀ {α : Type} [LE α] [DecidableLE α] (table : Array α) (r : α), 0 < table.size →
        Search table r 0 (table.size - 1) (bucket table r) ∧
          bucket table r < max 1 (table.size - 1) := by
  refine ⟨?_, fun table r _ => ⟨search_iff.2 rfl, bucket_lt_max table r⟩⟩
  intro α _ table r hsize hascends hfirst hlast
  have hlies := liesIn_bucket hsize hfirst hlast
  have hiff : ∀ i, LiesIn table r i ↔ i = bucket table r := fun i =>
    ⟨fun hi => hi.unique hascends hlies, fun hi => hi ▸ hlies⟩
  refine ⟨search_iff.2 rfl, hiff, List.find?_range_eq_some.2 ⟨?_, ?_, fun j hj => ?_⟩⟩
  · exact decide_eq_true hlies
  · exact List.mem_range.2 (bucket_lt table r hsize)
  · rw [Bool.not_eq_true', decide_eq_false_iff_not, hiff]
    exact hj.ne

/-- In a table with three equal edges the number at these lies in the bucket behind the last one. A
table of one edge has no bucket, and the search ends at once. -/
theorem bucket_eq_scan_repeated :
    2 ≤ #[0, 1, 1, 1, 2].size ∧ [0, 1, 1, 1, 2].Pairwise (· ≤ ·) ∧ 0 ≤ 1 ∧ 1 < 2 ∧
      LiesIn #[0, 1, 1, 1, 2] 1 3 ∧ scan? #[0, 1, 1, 1, 2] 1 = some 3 ∧
      0 < #[5].size ∧ bucket #[5] 7 < 1 := by
  have hascends : [0, 1, 1, 1, 2].Pairwise (· ≤ ·) := by decide
  have hbucket : bucket #[0, 1, 1, 1, 2] 1 = 3 := by decide
  obtain ⟨-, hlies, hscan⟩ :=
    bucket_eq_scan.1 #[0, 1, 1, 1, 2] 1 (by decide) hascends (by decide) (by decide)
  have hone := (bucket_eq_scan.2 #[5] 7 (by decide)).2
  rw [hbucket] at hscan
  refine ⟨by decide, hascends, by decide, by decide, ?_, hscan, by decide, hone⟩
  exact (hlies 3).2 hbucket.symm

end Scanning

end SearchSpace
