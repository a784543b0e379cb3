import SearchSpace.Proofs.Binary64.Key
import SearchSpace.Proofs.Binary64.Whole
import SearchSpace.Proofs.Interval
import SearchSpace.Parameter.Domain

/-!
# Numbers on a grid

The points of a grid are computed with rounding, and so is the number of steps that the membership
test compares with a whole number. Where the grid is resolved (`FloatRange.IsResolved`), the errors
stay within the tolerance of the test, and a number of the range is brought to a point that the
range admits (`FloatRange.admits_snap_of_isResolved`).

The errors are counted in steps. A point `k` steps above the lower bound is off by at most
`2 ^ -33 + k * 2 ^ -51` of them (`FloatRange.point_spec`), and the count of its steps by little more
(`FloatRange.count_spec`), while the tolerance is about `2 ^ -30 * max 1 k`.
-/

namespace SearchSpace

open Binary64

namespace FloatRange

variable {r : FloatRange} {x : Float}

/-- The bounds are finite, and the lower one is less. -/
theorem bounds_spec (r : FloatRange) : r.lower.isFinite = true ∧ r.upper.isFinite = true ∧
    value r.lower < value r.upper := by
  have h := r.bounds_valid
  simp only [Bool.or_eq_false_iff, Bool.not_eq_false', decide_eq_false_iff_not] at h
  obtain ⟨⟨hl, hu⟩, hle⟩ := h
  rw [le_iff_value hu hl, not_le] at hle
  exact ⟨hl, hu, hle⟩

/-- A finite number between the bounds lies in the range, unless it is the negative zero below the
positive one. -/
theorem contains_of_value (hx : x.isFinite = true) (hlower : value r.lower ≤ value x)
    (hupper : value x < value r.upper) (hzero : r.lower = 0.0 → x ≠ -0.0) :
    r.interval.contains (.float x) = true := by
  obtain ⟨hl, hu, -⟩ := r.bounds_spec
  rw [interval, Interval.floats, Interval.contains, isNaN_of_isFinite hx, Bool.not_false,
    Bool.true_and, Span.contains_iff]
  have hle := orderKey_le hl hx hlower hzero
  have hlt := orderKey_lt hx hu hupper
  refine ⟨?_, .inl hlt⟩
  rcases hle.lt_or_eq with hlt | heq
  · exact .inl hlt
  · exact .inr ⟨rfl, heq⟩

/-- What is between the bounds in their order as numbers. -/
theorem value_of_covers {raw : Scalar} (h : r.covers raw = true) :
    raw.toFloat.isFinite = true ∧ value r.lower ≤ value raw.toFloat ∧
      value raw.toFloat < value r.upper := by
  obtain ⟨hl, hu, -⟩ := r.bounds_spec
  obtain ⟨hle, hlt⟩ : r.lower ≤ raw.toFloat ∧ raw.toFloat < r.upper := by
    simpa only [covers, Bool.and_eq_true, decide_eq_true_eq] using h
  have hx := isFinite_of_between hl hu hle hlt
  exact ⟨hx, (le_iff_value hl hx).1 hle, (lt_iff_value hx hu).1 hlt⟩

/-- Without a step every number lies on the grid. -/
theorem onGrid_of_stepless (h : ¬0.0 < r.step) (x : Float) : r.onGrid x = true := by
  have hstep := r.step_valid
  simp only [Bool.or_eq_false_iff, decide_eq_false_iff_not] at hstep
  rw [onGrid, decide_eq_true (le_of_not_lt hstep.1 rfl h), Bool.true_or]

/-! ## Resolved grids -/

/-- The steps of a range are so large, and the bounds so few steps from zero, that binary64 numbers
tell the points of its grid apart. -/
structure IsResolved (r : FloatRange) : Prop where
  isFinite : r.step.isFinite = true
  step_le : value r.step ≤ 2 ^ (970 : ℤ)
  lower_le : |value r.lower| ≤ 2 ^ 20 * value r.step
  upper_le : value r.upper ≤ 2 ^ 44 * value r.step

/-- A number of steps that is computed with is moderate. -/
theorem IsResolved.isModerate (h : r.IsResolved) {q : ℚ} (hq : |q| ≤ 2 ^ 50)
    (hpos : 0 < value r.step) : IsModerate (q * value r.step) := by
  refine isModerate_of_le (k := 1020) ?_ (by decide)
  calc |q * value r.step| = |q| * value r.step := by rw [abs_mul, abs_of_pos hpos]
    _ ≤ 2 ^ (50 : ℤ) * 2 ^ (970 : ℤ) := by
      have hstep := h.step_le
      gcongr
      exact_mod_cast hq
    _ = 2 ^ (1020 : ℤ) := by rw [← zpow_add₀ (by norm_num)]; norm_num

/-- A rounded number of steps is that number up to rounding. -/
theorem exists_steps {x : Float} {s q : ℚ} (hs : 0 < s) (h : Approximates x (q * s))
    (hq : IsMultiple (q * s)) : ∃ p, value x = p * s ∧ |p - q| ≤ |q| / 2 ^ 53 := by
  have herror := h.relative_error_le hq
  have hvalue : value x = value x / s * s := (div_mul_cancel₀ _ hs.ne').symm
  refine ⟨value x / s, hvalue, ?_⟩
  rw [hvalue, ← sub_mul, abs_mul, abs_mul, abs_of_pos hs, ← mul_assoc] at herror
  have hle := le_of_mul_le_mul_right herror hs
  rwa [zpow_neg, mul_comm, ← div_eq_mul_inv] at hle

/-- A quotient is rounded to a number near it. -/
theorem error_le_of_approximates {x : Float} {q : ℚ} (h : Approximates x q) :
    |value x - q| ≤ |q| / 2 ^ 53 + 1 / 2 ^ 60 := by
  refine h.error_le.trans (max_le ?_ ?_)
  · rw [zpow_neg, mul_comm, ← div_eq_mul_inv]
    exact le_add_of_nonneg_right (by norm_num)
  · have hsmall : (2 : ℚ) ^ (-1075 : ℤ) ≤ 1 / 2 ^ 60 := by
      calc (2 : ℚ) ^ (-1075 : ℤ) ≤ 2 ^ (-60 : ℤ) :=
            zpow_le_zpow_right₀ (by norm_num) (by norm_num)
        _ = 1 / 2 ^ 60 := by norm_num
    exact hsmall.trans (le_add_of_nonneg_left (by positivity))

section Points

variable {l q : ℚ} {k : Nat} {n : Float}

/-- The point of a grid that is some steps above the lower bound, as it is computed. -/
def point (r : FloatRange) (n : Float) : Float :=
  r.lower + n * r.step

/-- The lower bound of a range with a resolved grid is few steps from zero. -/
theorem IsResolved.abs_le (h : r.IsResolved) (hpos : 0 < value r.step)
    (hlower : value r.lower = l * value r.step) : |l| ≤ 2 ^ 20 := by
  have hbound := h.lower_le
  rw [hlower, abs_mul, abs_of_pos hpos] at hbound
  exact le_of_mul_le_mul_right hbound hpos

/-- The distance of a point from the lower bound is computed up to rounding. -/
theorem approximates_distance (h : r.IsResolved) (hpos : 0 < value r.step)
    (hn : n.isFinite = true) (hk : value n = k) (hle : k ≤ 2 ^ 46) :
    Approximates (n * r.step) (k * value r.step) := by
  have hkq : (k : ℚ) ≤ 2 ^ 46 := by exact_mod_cast hle
  rw [← hk]
  refine approximates_mul hn h.isFinite ?_
  rw [hk]
  exact h.isModerate (by rw [Nat.abs_cast]; linarith) hpos

/-- A point is computed up to rounding, and not below the lower bound. -/
theorem point_spec (h : r.IsResolved) (hpos : 0 < value r.step)
    (hlower : value r.lower = l * value r.step) (hn : n.isFinite = true) (hk : value n = k)
    (hle : k ≤ 2 ^ 46) : (r.point n).isFinite = true ∧ value r.lower ≤ value (r.point n) ∧
      ∃ v, value (r.point n) = v * value r.step ∧ |v - (l + k)| ≤ 1 / 2 ^ 33 + k / 2 ^ 51 := by
  obtain ⟨hl, -, -⟩ := r.bounds_spec
  have hkq : (k : ℚ) ≤ 2 ^ 46 := by exact_mod_cast hle
  have hlSteps := h.abs_le hpos hlower
  have hproduct := approximates_distance h hpos hn hk hle
  obtain ⟨p, hp, hpError⟩ :=
    exists_steps hpos hproduct ((isMultiple_value h.isFinite).mul k)
  rw [Nat.abs_cast] at hpError
  obtain ⟨hp₁, hp₂⟩ := abs_le.1 hpError
  obtain ⟨hl₁, hl₂⟩ := abs_le.1 hlSteps
  have hk₀ : (0 : ℚ) ≤ k := k.cast_nonneg
  have hp₀ : 0 ≤ p := by linarith
  have hsteps : |l + p| ≤ 2 ^ 20 + 2 * k := abs_le.2 ⟨by linarith, by linarith⟩
  -- the sum
  have hsumValue : value r.lower + value (n * r.step) = (l + p) * value r.step := by
    rw [hlower, hp, add_mul]
  have hsum : Approximates (r.point n) ((l + p) * value r.step) := by
    rw [← hsumValue]
    refine approximates_add hl hproduct.isFinite ?_
    rw [hsumValue]
    exact h.isModerate (by linarith) hpos
  obtain ⟨v, hv, hvError⟩ := exists_steps hpos hsum
    (hsumValue ▸ (isMultiple_value hl).add (isMultiple_value hproduct.isFinite))
  refine ⟨hsum.isFinite, ?_, v, hv, ?_⟩
  · refine hsum.le_value r.lower hl ?_
    rw [hlower]
    exact mul_le_mul_of_nonneg_right (by linarith) hpos.le
  · have htriangle := abs_sub_le v (l + p) (l + k)
    have hshift : |l + p - (l + k)| = |p - k| := by rw [add_sub_add_left_eq_sub]
    rw [hshift] at htriangle
    linarith

/-- The tolerance is not much less than `1e-9`. -/
theorem value_tolerance : tolerance.isFinite = true ∧ 1 / 2 ^ 30 ≤ value tolerance ∧
    value tolerance ≤ 1 := by
  have hcanonical : IsCanonical 4835703278458517 (-82) :=
    ⟨by decide, by decide, by decide, by decide, .inr (by decide)⟩
  have htolerance : tolerance =
      .ofModel (.pack (.finite .positive 4835703278458517 (-82) (by decide))) := by
    decide +kernel
  obtain ⟨hfinite, hvalue⟩ := value_ofModel_pack hcanonical htolerance
  rw [hvalue, signed]
  norm_num
  exact hfinite

/-- The scale of the tolerance is the greater one of a number and one. -/
theorem scale_spec {x : Float} (hx : x.isFinite = true) :
    (if 1.0 < x then x else 1.0).isFinite = true ∧
      1 ≤ value (if 1.0 < x then x else 1.0) ∧ value x ≤ value (if 1.0 < x then x else 1.0) ∧
      value (if 1.0 < x then x else 1.0) ≤ |value x| + 1 := by
  obtain ⟨hone, hvalue⟩ := value_one
  split
  · next hlt =>
    rw [lt_iff_value hone hx, hvalue] at hlt
    exact ⟨hx, hlt.le, le_rfl, (le_abs_self _).trans (by linarith)⟩
  · next hle =>
    rw [lt_iff_value hone hx, hvalue, not_lt] at hle
    rw [hvalue]
    exact ⟨hone, le_rfl, hle, by linarith [abs_nonneg (value x)]⟩

/-- What the tolerance allows for a number of steps is computed up to rounding. -/
theorem allowance_spec {steps : Float} (hx : steps.isFinite = true)
    (hle : |value steps| ≤ 2 ^ 46) {allowance : Float}
    (h : tolerance * (if 1.0 < steps.abs then steps.abs else 1.0) = allowance) :
    allowance.isFinite = true ∧ 1 / 2 ^ 30 - 1 / 2 ^ 40 ≤ value allowance ∧
      (1 / 2 ^ 30 - 1 / 2 ^ 40) * |value steps| ≤ value allowance := by
  obtain ⟨hmagnitude, hvalue⟩ := value_abs hx
  obtain ⟨hscale, hone, hge, hscaleLe⟩ := scale_spec hmagnitude
  obtain ⟨htolerance, htoleranceGe, htoleranceLe⟩ := value_tolerance
  rw [hvalue] at hge
  rw [hvalue, abs_abs] at hscaleLe
  generalize (if 1.0 < steps.abs then steps.abs else 1.0) = scale at *
  have hproductGe : 1 / 2 ^ 30 * value scale ≤ value tolerance * value scale :=
    mul_le_mul_of_nonneg_right htoleranceGe (by linarith)
  have hproductLe : value tolerance * value scale ≤ value scale :=
    mul_le_of_le_one_left (by linarith) htoleranceLe
  have habs : |value tolerance * value scale| = value tolerance * value scale :=
    abs_of_nonneg (by linarith)
  have hproduct : Approximates (tolerance * scale) (value tolerance * value scale) := by
    refine approximates_mul htolerance hscale (isModerate_of_le (k := 50) ?_ (by decide))
    rw [habs, zpow_ofNat]
    linarith
  have herror := error_le_of_approximates hproduct
  rw [habs] at herror
  have hlower := (abs_le.1 herror).1
  rw [← h]
  exact ⟨hproduct.isFinite, by linarith, by linarith⟩

/-- A number that is computed for a whole number of steps lies within the tolerance of it. -/
theorem onGrid_of_near {x steps : Float} (hsteps : (x - r.lower) / r.step = steps)
    (hx : steps.isFinite = true) (hk : |value steps - k| ≤ 1 / 2 ^ 31 + k / 2 ^ 49)
    (hle : k ≤ 2 ^ 45) : r.onGrid x = true := by
  have hkq : (k : ℚ) ≤ 2 ^ 45 := by exact_mod_cast hle
  have hk₀ : (0 : ℚ) ≤ k := k.cast_nonneg
  obtain ⟨hk₁, hk₂⟩ := abs_le.1 hk
  -- the distance from the whole number
  obtain ⟨hround, hwhole⟩ := value_round (z := k) hx (by rw [Int.cast_natCast]; linarith)
  rw [Int.cast_natCast] at hwhole
  have hrest : Approximates (steps - Binary64.round steps) (value steps - k) := by
    rw [← hwhole]
    refine approximates_sub hx hround ?_
    rw [hwhole]
    exact isModerate_of_le (k := 1) (by rw [zpow_one]; linarith) (by decide)
  obtain ⟨hrestFinite, hrestValue⟩ := value_abs hrest.isFinite
  obtain ⟨hrest₁, hrest₂⟩ := abs_le.1 (error_le_of_approximates hrest)
  -- the tolerance
  have hsteps₀ : |value steps| ≤ 2 ^ 46 := abs_le.2 ⟨by linarith, by linarith⟩
  obtain ⟨hallowance, hone, hscaled⟩ := allowance_spec hx hsteps₀ rfl
  have hmagnitude := le_abs_self (value steps)
  rw [onGrid, Bool.or_eq_true]
  right
  simp only [hsteps, decide_eq_true_eq]
  rw [le_iff_value hrestFinite hallowance, hrestValue]
  exact abs_le.2 ⟨by linarith, by linarith⟩

/-- The number of steps above the lower bound is computed up to rounding, and is not negative for a
number that is not below it. -/
theorem count_spec (h : r.IsResolved) (hpos : 0 < value r.step) (hx : x.isFinite = true)
    (hvalue : value x - value r.lower = q * value r.step) (hq : |q| ≤ 2 ^ 47) :
    ((x - r.lower) / r.step).isFinite = true ∧ (0 ≤ q → 0 ≤ value ((x - r.lower) / r.step)) ∧
      |value ((x - r.lower) / r.step) - q| ≤ |q| / 2 ^ 51 + 1 / 2 ^ 60 := by
  obtain ⟨hl, -, -⟩ := r.bounds_spec
  obtain ⟨hzero, hvalueZero⟩ := value_zero
  -- the distance from the lower bound
  have hdistance : Approximates (x - r.lower) (q * value r.step) := by
    rw [← hvalue]
    refine approximates_sub hx hl ?_
    rw [hvalue]
    exact h.isModerate (by linarith) hpos
  obtain ⟨d, hd, hdError⟩ := exists_steps hpos hdistance
    (hvalue ▸ (isMultiple_value hx).sub (isMultiple_value hl))
  -- the number of steps
  have hdSteps : |d| ≤ |q| + |q| / 2 ^ 53 := by
    have hsum := abs_add_le (d - q) q
    rw [sub_add_cancel] at hsum
    linarith
  have hquotient : value (x - r.lower) / value r.step = d := by
    rw [hd, mul_div_cancel_right₀ _ hpos.ne']
  have hcount : Approximates ((x - r.lower) / r.step) d := by
    rw [← hquotient]
    refine approximates_div hdistance.isFinite h.isFinite hpos.ne' ?_
    rw [hquotient]
    exact isModerate_of_le (k := 50) (by rw [zpow_ofNat]; linarith) (by decide)
  refine ⟨hcount.isFinite, fun hnonneg => ?_, ?_⟩
  · have hdNonneg : 0 ≤ d := by
      rw [← hquotient]
      refine div_nonneg ?_ hpos.le
      rw [← hvalueZero]
      exact hdistance.le_value 0.0 hzero (hvalueZero.trans_le (mul_nonneg hnonneg hpos.le))
    rw [← hvalueZero]
    exact hcount.le_value 0.0 hzero (hvalueZero.trans_le hdNonneg)
  · have hcountError := error_le_of_approximates hcount
    have htriangle := abs_sub_le (value ((x - r.lower) / r.step)) d q
    have hnonneg := abs_nonneg q
    linarith

/-- A point of a grid lies on it. -/
theorem onGrid_point (h : r.IsResolved) (hpos : 0 < value r.step)
    (hlower : value r.lower = l * value r.step) (hn : n.isFinite = true) (hk : value n = k)
    (hle : k ≤ 2 ^ 45) : r.onGrid (r.point n) = true := by
  obtain ⟨hfinite, -, v, hv, hvError⟩ := point_spec h hpos hlower hn hk (by omega)
  have hkq : (k : ℚ) ≤ 2 ^ 45 := by exact_mod_cast hle
  have hk₀ : (0 : ℚ) ≤ k := k.cast_nonneg
  have hsteps : |v - l| ≤ k + (1 / 2 ^ 33 + k / 2 ^ 51) := by
    have hsum := abs_add_le (v - (l + k)) k
    rw [Nat.abs_cast, sub_add_eq_sub_sub, sub_add_cancel] at hsum
    rw [sub_add_eq_sub_sub] at hvError
    linarith
  have hvalue : value (r.point n) - value r.lower = (v - l) * value r.step := by
    rw [hv, hlower, sub_mul]
  obtain ⟨hcount, -, herror⟩ := count_spec h hpos hfinite hvalue (by linarith)
  refine onGrid_of_near rfl hcount (k := k) ?_ hle
  have htriangle := abs_sub_le (value ((r.point n - r.lower) / r.step)) (v - l) k
  rw [sub_sub v l k] at htriangle
  linarith

/-- No step above the lower bound is the lower bound. -/
theorem value_point_zero (h : r.IsResolved) (hpos : 0 < value r.step)
    (hlower : value r.lower = l * value r.step) (hn : n.isFinite = true) (hzero : value n = 0) :
    value (r.point n) = value r.lower := by
  obtain ⟨hl, -, -⟩ := r.bounds_spec
  have hlSteps := h.abs_le hpos hlower
  have hproduct := approximates_distance (k := 0) h hpos hn (by rwa [Nat.cast_zero]) (by decide)
  have hnothing : value (n * r.step) = 0 := by
    rw [Nat.cast_zero, zero_mul, ← value_zero.2] at hproduct
    exact (hproduct.value_eq value_zero.1).trans value_zero.2
  have hsum : value r.lower + value (n * r.step) = value r.lower := by rw [hnothing, add_zero]
  have hpoint : Approximates (r.point n) (value r.lower) := by
    rw [← hsum]
    refine approximates_add hl hproduct.isFinite ?_
    rw [hsum, hlower]
    exact h.isModerate (by linarith) hpos
  exact hpoint.value_eq hl

/-- A point is not the negative zero if the lower bound is the positive one. -/
theorem point_ne_negative_zero (hzero : r.lower = 0.0)
    (hproduct : (n * r.step).isFinite = true) : r.point n ≠ -0.0 := by
  rw [point, hzero]
  generalize n * r.step = x at hproduct
  have hsum : (0.0 : Float) + x = .ofModel (.pack (.add .binary64 (.zero .positive) x.toModel.unpack)) :=
    rfl
  rcases exists_of_isFinite hproduct with ⟨s, hu⟩ | ⟨s, m, e, hc, hu⟩
  · have hsame : (0.0 : Float) + x = 0.0 := by
      rw [hsum, hu]
      cases s <;> rfl
    rw [hsame]
    decide
  · have hsame : (0.0 : Float) + x = x := by
      rw [hsum, hu]
      exact (eq_ofModel_pack hu).symm
    rw [hsame]
    rintro rfl
    cases hu

/-- The number of whole steps above the lower bound, as it is computed. -/
def count (r : FloatRange) (x : Float) : Float :=
  floor ((x - r.lower) / r.step)

/-- A number of the range is few whole steps above the lower bound, up to rounding. -/
theorem exists_count_eq (h : r.IsResolved) (hpos : 0 < value r.step) (hx : x.isFinite = true)
    (hvalue : value x - value r.lower = q * value r.step) (hq₀ : 0 ≤ q) (hq : q ≤ 2 ^ 44 + 2 ^ 20) :
    (r.count x).isFinite = true ∧
      ∃ k : Nat, value (r.count x) = k ∧ k ≤ 2 ^ 45 ∧ (k : ℚ) ≤ q + 1 / 2 := by
  have habs : |q| = q := abs_of_nonneg hq₀
  obtain ⟨hfinite, hnonneg, herror⟩ := count_spec h hpos hx hvalue (by rw [habs]; linarith)
  obtain ⟨hfloor, hvalueFloor⟩ := value_floor hfinite
  obtain ⟨k, hk⟩ := Int.eq_ofNat_of_zero_le (Int.floor_nonneg.2 (hnonneg hq₀))
  rw [hk, Int.cast_natCast] at hvalueFloor
  have hle : (k : ℚ) ≤ value ((x - r.lower) / r.step) := by
    have hfloorLe := Int.floor_le (value ((x - r.lower) / r.step))
    rwa [hk, Int.cast_natCast] at hfloorLe
  rw [habs] at herror
  have herrorLe := (abs_le.1 herror).2
  have hnear : (k : ℚ) ≤ q + 1 / 2 := by linarith
  refine ⟨hfloor, k, hvalueFloor, ?_, hnear⟩
  have hbound : (k : ℚ) ≤ (2 ^ 45 : Nat) := by
    push_cast
    linarith
  exact_mod_cast hbound

/-- A whole number of steps less one is computed exactly. -/
theorem value_sub_one (hn : n.isFinite = true) (hk : value n = (k + 1 : Nat)) (hle : k < 2 ^ 53) :
    (n - 1.0).isFinite = true ∧ value (n - 1.0) = k := by
  obtain ⟨hone, hvalueOne⟩ := value_one
  obtain ⟨y, hy, hvalue⟩ := exists_value_eq hle
  have hdifference : value n - value 1.0 = value y := by
    rw [hk, hvalueOne, hvalue, Nat.cast_succ, add_sub_cancel_right]
  have happroximates : Approximates (n - 1.0) (value y) := by
    rw [← hdifference]
    refine approximates_sub hn hone ?_
    rw [hdifference, hvalue]
    refine isModerate_of_le (k := 53) ?_ (by decide)
    rw [Nat.abs_cast]
    exact_mod_cast hle.le
  exact ⟨happroximates.isFinite, (happroximates.value_eq hy).trans hvalue⟩

/-- A point that is nearly a step below a number of the range is below the upper bound. -/
theorem value_point_lt (h : r.IsResolved) (hpos : 0 < value r.step)
    (hlower : value r.lower = l * value r.step) (hn : n.isFinite = true) (hk : value n = k)
    (hle : k ≤ 2 ^ 45) (hq : q * value r.step < value r.upper) (hnear : l + k + 1 / 2 ≤ q) :
    value (r.point n) < value r.upper := by
  obtain ⟨-, -, v, hv, hvError⟩ := point_spec h hpos hlower hn hk (by omega)
  have hkq : (k : ℚ) ≤ 2 ^ 45 := by exact_mod_cast hle
  have hvLe := (abs_le.1 hvError).2
  rw [hv]
  exact (mul_le_mul_of_nonneg_right (by linarith) hpos.le).trans_lt hq

/-- A point below the upper bound is admitted. -/
theorem admits_point (h : r.IsResolved) (hpos : 0 < value r.step) (hn : n.isFinite = true)
    (hk : value n = k) (hle : k ≤ 2 ^ 45) (hupper : value (r.point n) < value r.upper) :
    r.admits (r.point n) = true := by
  have hlower : value r.lower = value r.lower / value r.step * value r.step :=
    (div_mul_cancel₀ _ hpos.ne').symm
  obtain ⟨hfinite, hge, -⟩ := point_spec h hpos hlower hn hk (by omega)
  have hproduct := approximates_distance h hpos hn hk (by omega)
  rw [admits, Bool.and_eq_true]
  refine ⟨contains_of_value hfinite hge hupper fun hzero => ?_, onGrid_point h hpos hlower hn hk hle⟩
  exact point_ne_negative_zero hzero hproduct.isFinite

/-- A drawn number in a range with a resolved grid is brought to a point of the grid in the range. -/
theorem admits_snap_of_isResolved (h : r.IsResolved) (hstep : 0.0 < r.step) {raw : Scalar}
    (hcovers : r.covers raw = true) : r.admits (r.snap raw) = true := by
  obtain ⟨-, hu, hbounds⟩ := r.bounds_spec
  obtain ⟨hx, hge, hlt⟩ := value_of_covers hcovers
  have hpos : 0 < value r.step := by
    rw [lt_iff_value value_zero.1 h.isFinite, value_zero.2] at hstep
    exact hstep
  -- the lower bound and the drawn number in steps
  obtain ⟨l, hlower⟩ : ∃ l, value r.lower = l * value r.step :=
    ⟨_, (div_mul_cancel₀ _ hpos.ne').symm⟩
  obtain ⟨p, hp⟩ : ∃ p, value raw.toFloat = p * value r.step :=
    ⟨_, (div_mul_cancel₀ _ hpos.ne').symm⟩
  rw [hp] at hge hlt
  have hlp : l ≤ p := le_of_mul_le_mul_right (hlower ▸ hge) hpos
  have hpLe : p ≤ 2 ^ 44 := (lt_of_mul_lt_mul_right (hlt.trans_le h.upper_le) hpos.le).le
  have hlGe := (abs_le.1 (h.abs_le hpos hlower)).1
  have hvalue : value raw.toFloat - value r.lower = (p - l) * value r.step := by
    rw [hp, hlower, sub_mul]
  obtain ⟨hn, k, hk, hkLe, hkNear⟩ :=
    exists_count_eq h hpos hx hvalue (by linarith) (by linarith)
  obtain ⟨hpoint, -, -⟩ := point_spec h hpos hlower hn hk (by omega)
  have hsnap : r.snap raw = r.point (if r.upper ≤ r.point (r.count raw.toFloat)
      then r.count raw.toFloat - 1.0 else r.count raw.toFloat) := by
    rw [snap]
    exact if_pos hstep
  rw [hsnap]
  split
  · next hexceeds =>
    rw [le_iff_value hu hpoint] at hexceeds
    cases k with
    | zero =>
      rw [value_point_zero h hpos hlower hn (by rw [hk, Nat.cast_zero])] at hexceeds
      exact absurd hbounds (not_lt.2 hexceeds)
    | succ k =>
      obtain ⟨hn', hk'⟩ := value_sub_one hn hk (by omega)
      push_cast at hkNear
      exact admits_point h hpos hn' hk' (by omega)
        (value_point_lt h hpos hlower hn' hk' (by omega) hlt (by linarith))
  · next hbelow =>
    rw [le_iff_value hu hpoint, not_le] at hbelow
    exact admits_point h hpos hn hk hkLe hbelow

end Points

end FloatRange

end SearchSpace
