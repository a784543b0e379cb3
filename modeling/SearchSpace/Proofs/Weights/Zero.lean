import SearchSpace.Proofs.Binary64.Nonnegative
import SearchSpace.Proofs.Binary64.Whole
import SearchSpace.Proofs.Weights

/-!
# Weights of zero

The edges of a table of weights are sums of the scaled weights, capped at one. Adding a weight makes
no sum less, and adding a weight of zero changes no sum, so the edges ascend (`edgeValue_mono`) and
the bucket of a weight of zero has no width (`edgeValue_succ_of_zero`). The last edge is an exception:
it is one, and not a sum. Rounding can leave the sum of all scaled weights below one, and then the
last bucket has a width even if the last weight is zero. Moreover a number from one on falls into the
last bucket, whatever its weight.

`isPositive_index_iff` says that a weight of zero is chosen exactly in these two cases.
-/

namespace SearchSpace

open Binary64

/-! ## Capped numbers -/

/-- A number, or one if the number is not less. -/
def capped (x : Float) : Float :=
  if x < 1.0 then x else 1.0

section Capped

variable {x y : Float}

/-- A number that is at least zero and less than one is finite. -/
theorem isFinite_of_lt_one (hx : 0.0 ≤ x) (hlt : x < 1.0) : x.isFinite = true :=
  isFinite_of_between rfl rfl hx hlt

/-- A capped number is between zero and one. -/
theorem capped_spec (hx : 0.0 ≤ x) :
    (capped x).isFinite = true ∧ 0 ≤ value (capped x) ∧ value (capped x) ≤ 1 := by
  rw [capped]
  split
  · next hlt =>
    have hfinite := isFinite_of_lt_one hx hlt
    rw [lt_iff_value hfinite rfl, value_one.2] at hlt
    exact ⟨hfinite, (nonneg_iff_value hfinite).1 hx, hlt.le⟩
  · rw [value_one.2]
    exact ⟨rfl, zero_le_one, le_rfl⟩

/-- What is at most a number less than one is less than one. -/
theorem lt_one_of_le (hx : 0.0 ≤ x) (hy : 0.0 ≤ y) (hxy : x ≤ y) (hlt : y < 1.0) : x < 1.0 := by
  have hy' := isFinite_of_lt_one hy hlt
  rcases isFinite_or_infinity hx with hx' | hinfinite
  · rw [le_iff_value hx' hy'] at hxy
    rw [lt_iff_value hy' rfl] at hlt
    exact (lt_iff_value hx' rfl).2 (hxy.trans_lt hlt)
  · rw [le_iff, order?, hinfinite] at hxy
    rcases exists_of_isFinite hy' with ⟨s, hu⟩ | ⟨s, m, e, hc, hu⟩ <;> rw [hu] at hxy <;>
      rcases hxy with h | h <;> cases h

/-- Capping keeps the order of numbers. -/
theorem value_capped_le (hx : 0.0 ≤ x) (hy : 0.0 ≤ y) (hxy : x ≤ y) :
    value (capped x) ≤ value (capped y) := by
  by_cases hlt : y < 1.0
  · have hx' := lt_one_of_le hx hy hxy hlt
    rw [capped, if_pos hx', capped, if_pos hlt]
    exact (le_iff_value (isFinite_of_lt_one hx hx') (isFinite_of_lt_one hy hlt)).1 hxy
  · have hone : capped y = 1.0 := if_neg hlt
    rw [hone, value_one.2]
    exact (capped_spec hx).2.2

/-- Adding a zero does not change a capped number. -/
theorem value_capped_add_zero (hx : 0.0 ≤ x) (hy : y.isFinite = true) (hzero : value y = 0) :
    value (capped (x + y)) = value (capped x) := by
  have hy' : 0.0 ≤ y := (nonneg_iff_value hy).2 hzero.ge
  by_cases hlt : x < 1.0
  · have hfinite := isFinite_of_lt_one hx hlt
    have hsum : value x + value y = value x := by rw [hzero, add_zero]
    have hone : |value x| ≤ 2 ^ (0 : ℤ) := by
      rw [abs_of_nonneg ((nonneg_iff_value hfinite).1 hx), zpow_zero, ← value_one.2]
      exact ((lt_iff_value hfinite rfl).1 hlt).le
    have hround := approximates_add hfinite hy (by
      rw [hsum]
      exact isModerate_of_le hone (by decide))
    rw [hsum] at hround
    have hvalue := hround.value_eq hfinite
    have hlt' : x + y < 1.0 := by
      rw [lt_iff_value hround.isFinite rfl, hvalue]
      exact (lt_iff_value hfinite rfl).1 hlt
    rw [capped, if_pos hlt', capped, if_pos hlt, hvalue]
  · have hone : capped x = 1.0 := if_neg hlt
    have hle := value_capped_le hx (nonneg_add hx hy') (le_add hx hy')
    rw [hone, value_one.2] at hle ⊢
    exact le_antisymm (capped_spec (nonneg_add hx hy')).2.2 hle

end Capped

namespace WeightTable

/-! ## Edges -/

/-- The sum of all weights. -/
def total (t : WeightTable) : Float :=
  t.weights.foldl (· + ·) 0.0

/-- The sum of the scaled weights before a place. -/
def sumBefore (t : WeightTable) (i : Nat) : Float :=
  (t.weights.take i).foldl (fun sum w => sum + w / t.total) 0.0

/-- The weight at a place is positive. -/
def IsPositive (t : WeightTable) (i : Nat) : Prop :=
  ∃ w ∈ t.weights[i]?, 0.0 < w

/-- The last one of the positive weights is at a place. -/
def IsLastPositive (t : WeightTable) (i : Nat) : Prop :=
  t.IsPositive i ∧ ∀ j, i < j → ¬t.IsPositive j

variable (t : WeightTable)

/-- The weights are finite and at least zero, and so is their sum, which is not zero. -/
theorem weights_spec : (∀ w ∈ t.weights, w.isFinite = true ∧ 0.0 ≤ w) ∧
    t.total.isFinite = true ∧ 0 < value t.total := by
  have h := t.valid
  rw [fault?, if_neg (by simpa using t.weights_ne_nil)] at h
  split at h
  · cases h
  · next hall =>
    simp only [ite_eq_right_iff, reduceCtorEq, imp_false, Bool.or_eq_true, decide_eq_true_eq,
      Bool.not_eq_true', not_or, Bool.not_eq_false] at h
    have htotal : t.total.isFinite = true := h.2
    refine ⟨fun w hw => ?_, htotal, ?_⟩
    · have hw' := List.find?_eq_none.1 hall w hw
      simp only [Bool.or_eq_true, Bool.not_eq_true', decide_eq_true_eq, not_or,
        Bool.not_eq_false] at hw'
      exact ⟨hw'.1, le_of_not_lt rfl (isNaN_of_isFinite hw'.1) hw'.2⟩
    · have hpos : ¬t.total ≤ 0.0 := h.1
      rwa [le_iff_value htotal rfl, not_le] at hpos

/-- A running sum is the capped sum of what was there before and the scaled weights up to it. -/
theorem getElem?_runningSums (total sum : Float) {weights : List Float} {i : Nat}
    (hi : i < weights.length) : (runningSums total sum weights)[i]? =
      some (capped ((weights.take (i + 1)).foldl (fun sum w => sum + w / total) sum)) := by
  induction weights generalizing sum i with
  | nil => cases hi
  | cons w weights ih =>
    cases i with
    | zero => rfl
    | succ i => exact ih (sum + w / total) (Nat.lt_of_succ_lt_succ hi)

/-- The edges as a list. -/
theorem toList_cumulative : t.cumulative.toList =
    0.0 :: (runningSums t.total 0.0 t.weights).dropLast ++ [1.0] :=
  rfl

/-- Before the first place there is nothing to add up. -/
@[simp] theorem sumBefore_zero : t.sumBefore 0 = 0.0 := by
  rw [sumBefore, List.take_zero]
  rfl

/-- The edges but the last one are the capped sums of the scaled weights before them. -/
theorem getElem?_cumulative {i : Nat} (hi : i < t.weights.length) :
    t.cumulative[i]? = some (capped (t.sumBefore i)) := by
  rw [← Array.getElem?_toList, toList_cumulative]
  cases i with
  | zero =>
    have hzero : capped 0.0 = 0.0 := if_pos (by decide)
    rw [sumBefore_zero, hzero]
    rfl
  | succ i =>
    have hlength : i < (runningSums t.total 0.0 t.weights).dropLast.length := by
      rw [List.length_dropLast, length_runningSums]
      omega
    rw [List.cons_append, List.getElem?_cons_succ, List.getElem?_append_left hlength,
      List.getElem?_dropLast, if_pos (by rw [length_runningSums]; omega)]
    exact getElem?_runningSums t.total 0.0 (Nat.lt_of_succ_lt hi)

/-- The last edge is one. -/
theorem getElem?_cumulative_length : t.cumulative[t.weights.length]? = some 1.0 := by
  have hpos := List.length_pos_iff.2 t.weights_ne_nil
  have hlength : t.weights.length =
      (0.0 :: (runningSums t.total 0.0 t.weights).dropLast).length := by
    rw [List.length_cons, List.length_dropLast, length_runningSums]
    omega
  rw [← Array.getElem?_toList, toList_cumulative]
  conv_lhs => rw [hlength]
  exact List.getElem?_concat_length

/-- Going on by a place adds the scaled weight there. -/
theorem sumBefore_succ {i : Nat} {w : Float} (hw : t.weights[i]? = some w) :
    t.sumBefore (i + 1) = t.sumBefore i + w / t.total := by
  rw [sumBefore, sumBefore, List.take_add_one, hw, List.foldl_append]
  rfl

/-- What a scaled weight adds is at least zero. -/
theorem nonneg_scaled {w : Float} (hw : w ∈ t.weights) : 0.0 ≤ w / t.total := by
  obtain ⟨hweights, htotal, hpos⟩ := t.weights_spec
  exact nonneg_div (hweights w hw).1 (hweights w hw).2 htotal hpos

/-- Going on past the last place adds nothing. -/
theorem sumBefore_succ_of_none {i : Nat} (h : t.weights[i]? = none) :
    t.sumBefore (i + 1) = t.sumBefore i := by
  rw [sumBefore, sumBefore, List.take_add_one, h, Option.toList_none, List.append_nil]

/-- The sums of the scaled weights are at least zero, and none is less than the one before. -/
theorem sumBefore_spec (i : Nat) :
    0.0 ≤ t.sumBefore i ∧ value (capped (t.sumBefore i)) ≤ value (capped (t.sumBefore (i + 1))) := by
  have hnonneg : 0.0 ≤ t.sumBefore i := by
    induction i with
    | zero =>
      rw [sumBefore_zero]
      decide
    | succ i ih =>
      cases hw : t.weights[i]? with
      | none => rwa [t.sumBefore_succ_of_none hw]
      | some w =>
        rw [t.sumBefore_succ hw]
        exact nonneg_add ih (t.nonneg_scaled (List.mem_of_getElem? hw))
  refine ⟨hnonneg, ?_⟩
  cases hw : t.weights[i]? with
  | none => rw [t.sumBefore_succ_of_none hw]
  | some w =>
    have hscaled := t.nonneg_scaled (List.mem_of_getElem? hw)
    rw [t.sumBefore_succ hw]
    exact value_capped_le hnonneg (nonneg_add hnonneg hscaled) (le_add hnonneg hscaled)

/-- What the edge at a place stands for, if it is not the last one. -/
def edgeValue (i : Nat) : ℚ :=
  value (capped (t.sumBefore i))

/-- The edges ascend, if one leaves out the last one. -/
theorem edgeValue_mono : Monotone t.edgeValue :=
  monotone_nat_of_le_succ fun i => (t.sumBefore_spec i).2

/-- The bucket of a weight that is not positive has no width, if one leaves out the last one. -/
theorem edgeValue_succ_of_zero {i : Nat} (hi : i < t.weights.length) (h : ¬t.IsPositive i) :
    t.edgeValue (i + 1) = t.edgeValue i := by
  obtain ⟨hweights, htotal, hpos⟩ := t.weights_spec
  have hw : t.weights[i]? = some t.weights[i] := List.getElem?_eq_getElem hi
  obtain ⟨hfinite, hnonneg⟩ := hweights _ (List.getElem_mem hi)
  have hzero : value t.weights[i] = 0 := by
    have hnot : ¬0.0 < t.weights[i] := fun hlt => h ⟨_, hw, hlt⟩
    rw [lt_iff_value rfl hfinite, not_lt] at hnot
    exact le_antisymm hnot ((nonneg_iff_value hfinite).1 hnonneg)
  obtain ⟨hscaled, hvalue⟩ := value_div_of_zero hfinite hzero htotal hpos
  rw [edgeValue, edgeValue, t.sumBefore_succ hw]
  exact value_capped_add_zero (t.sumBefore_spec i).1 hscaled hvalue

/-! ## The bucket of a number -/

variable {r : Float}

/-- An edge that is not the last one is at most a finite number if it stands for no more. -/
theorem reaches_iff {i : Nat} (hi : i < t.weights.length) (hr : r.isFinite = true) :
    Reaches t.cumulative r i ↔ t.edgeValue i ≤ value r := by
  have hfinite := (capped_spec (t.sumBefore_spec i).1).1
  simp only [Reaches, t.getElem?_cumulative hi, Option.mem_some_iff, exists_eq_left']
  exact le_iff_value hfinite hr

/-- The last edge is at most a number if this is one or more. -/
theorem reaches_length_iff : Reaches t.cumulative r t.weights.length ↔ 1.0 ≤ r := by
  simp only [Reaches, getElem?_cumulative_length, Option.mem_some_iff, exists_eq_left']

/-- Every edge is at most a number from one on. -/
theorem reaches_of_one_le (hr : 1.0 ≤ r) {i : Nat} (hi : i ≤ t.weights.length) :
    Reaches t.cumulative r i := by
  rcases hi.lt_or_eq with hlt | rfl
  · obtain ⟨hfinite, -, hle⟩ := capped_spec (t.sumBefore_spec i).1
    refine ⟨_, t.getElem?_cumulative hlt, le_trans_of_isFinite hfinite value_one.1 ?_ hr⟩
    rwa [le_iff_value hfinite value_one.1, value_one.2]
  · exact t.reaches_length_iff.2 hr

/-- The bucket that a number chooses lies between edges of which the lower one is not above the
number and the upper one is, unless it is the first or the last bucket. -/
theorem index_edges (r : Float) : (t.index r = 0 ∨ Reaches t.cumulative r (t.index r)) ∧
    (t.index r + 1 = t.weights.length ∨ ¬Reaches t.cumulative r (t.index r + 1)) := by
  have hpos := List.length_pos_iff.2 t.weights_ne_nil
  have hedges := @bucketFrom_edges Float _ _ t.cumulative r (t.cumulative.size - 1) 0
    (t.cumulative.size - 1) (by rw [size_cumulative]; omega) (by omega)
  rw [← bucket, ← index] at hedges
  simpa only [size_cumulative, Nat.add_sub_cancel] using hedges

/-- A number from zero on and below one chooses a bucket with a width. -/
theorem index_between (hr : 0.0 ≤ r) (hlt : r < 1.0) :
    Reaches t.cumulative r (t.index r) ∧ ¬Reaches t.cumulative r (t.index r + 1) := by
  have hfinite := isFinite_of_lt_one hr hlt
  have hpos := List.length_pos_iff.2 t.weights_ne_nil
  obtain ⟨hlower, hupper⟩ := t.index_edges r
  constructor
  · refine hlower.elim (fun heq => ?_) id
    have hzero : t.edgeValue 0 = 0 := by
      have hcapped : capped 0.0 = 0.0 := if_pos (by decide)
      rw [edgeValue, sumBefore_zero, hcapped, value_zero.2]
    rw [heq, t.reaches_iff hpos hfinite, hzero]
    exact (nonneg_iff_value hfinite).1 hr
  · refine hupper.elim (fun heq => ?_) id
    rw [heq, reaches_length_iff, le_iff_value value_one.1 hfinite, not_le]
    exact (lt_iff_value hfinite value_one.1).1 hlt

/-- A number from zero on and below one chooses a positive weight unless the last weight is not
positive and the number is not below the edge before it, and a number from one on chooses the last
weight, which is the last positive one if it is positive. -/
theorem isPositive_index_iff (t : WeightTable) {r : Float} (hr : 0.0 ≤ r) :
    (r < 1.0 → (t.IsPositive (t.index r) ↔ t.IsPositive (t.weights.length - 1) ∨
      ¬Reaches t.cumulative r (t.weights.length - 1))) ∧
    (1.0 ≤ r → t.index r = t.weights.length - 1 ∧
      (t.IsLastPositive (t.index r) ↔ t.IsPositive (t.weights.length - 1))) := by
  have hindex := t.index_lt r
  constructor
  · intro hlt
    have hfinite := isFinite_of_lt_one hr hlt
    obtain ⟨hlower, hupper⟩ := t.index_between hr hlt
    rw [t.reaches_iff hindex hfinite] at hlower
    rcases Nat.lt_or_eq_of_le (Nat.succ_le_of_lt hindex) with hinner | hlast
    · -- in an inner bucket the edge before the last one is beyond the number too
      rw [t.reaches_iff hinner hfinite, not_le] at hupper
      refine iff_of_true ?_ (.inr ?_)
      · by_contra hzero
        rw [t.edgeValue_succ_of_zero hindex hzero] at hupper
        exact hupper.not_ge hlower
      · rw [t.reaches_iff (by omega) hfinite, not_le]
        exact hupper.trans_le (t.edgeValue_mono (by omega))
    · have heq : t.index r = t.weights.length - 1 := by omega
      rw [← heq, t.reaches_iff hindex hfinite]
      exact ⟨.inl, fun h => h.elim id fun hnot => absurd hlower hnot⟩
  · intro hone
    have heq : t.index r = t.weights.length - 1 := by
      have hlast := (t.index_edges r).2.resolve_right fun hnot => hnot (t.reaches_of_one_le hone hindex)
      omega
    refine ⟨heq, ?_⟩
    rw [heq]
    refine ⟨And.left, fun h => ⟨h, fun j hj ⟨w, hw, _⟩ => ?_⟩⟩
    obtain ⟨hlt, -⟩ := List.getElem?_eq_some_iff.1 hw
    omega

/-- Three weights of which the sum is not quite one after scaling, and a weight of zero. -/
def endingInZero : WeightTable :=
  ⟨[1.0, 4.0, 1.0, 0.0], by decide +kernel⟩

/-- A half falls into the bucket of a positive weight. -/
theorem isPositive_index_endingInZero : (0.0 : Float) ≤ 0.5 ∧ (0.5 : Float) < 1.0 ∧
    ¬Reaches endingInZero.cumulative 0.5 3 ∧ endingInZero.IsPositive (endingInZero.index 0.5) := by
  have hr : (0.0 : Float) ≤ 0.5 := by decide
  have hlt : (0.5 : Float) < 1.0 := by decide
  have hbelow : ¬Reaches endingInZero.cumulative 0.5 3 := by
    rw [← any_eq_true_iff_reaches]
    decide +kernel
  exact ⟨hr, hlt, hbelow, ((endingInZero.isPositive_index_iff hr).1 hlt).2 (.inr hbelow)⟩

/-- The greatest number below one is not below the sum of the first three weights after scaling, and
falls into the bucket of the weight of zero; so does one. -/
theorem index_not_positive : ¬∀ (t : WeightTable) (r : Float), 0.0 ≤ r →
    (r < 1.0 → t.IsPositive (t.index r)) ∧ (1.0 ≤ r → t.IsLastPositive (t.index r)) := by
  intro h
  obtain ⟨w, hw, hpos⟩ := (h endingInZero 0.9999999999999999 (by decide)).1 (by decide)
  have hindex : endingInZero.index 0.9999999999999999 = 3 := by decide +kernel
  rw [hindex] at hw
  cases hw
  revert hpos
  decide

end WeightTable

end SearchSpace
