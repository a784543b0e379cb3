import SearchSpace.Proofs.Parameter.Domain
import SearchSpace.Proofs.Parameter.FloatRange

/-!
# Drawn numbers that are checked

A drawn number that is checked against the domain before it is made a value becomes the mark of an
inactive parameter or a value that the domain admits (`Domain.admits_ofScalars`). The check compares
binary64 numbers, so that it does not tell a number from the lower bound where both are made the
same one, or where one is the negative zero and the other the positive one; and the points of a grid
are computed with rounding, so that the membership test finds them only where the grid is resolved.
`Domain.IsExactAt` leaves these cases out.
-/

namespace SearchSpace

open Binary64

/-! ## Integers -/

namespace IntRange

variable {r : IntRange} {x : Float}

/-- A number between the bounds, both made numbers, lies between the bounds, unless it is the lower
one that is made a lesser number. -/
theorem between_of_covers (h : r.covers (.float x) = true)
    (hlower : x = ofInt64 r.lower → (r.lower.toInt : ℚ) ≤ value x) :
    x.isFinite = true ∧ (r.lower.toInt : ℚ) ≤ value x ∧ value x < r.upper.toInt := by
  obtain ⟨hle, hlt⟩ : ofInt64 r.lower ≤ x ∧ x < ofInt64 r.upper := by
    simpa only [covers, Bool.and_eq_true, decide_eq_true_eq] using h
  have hl := approximates_ofInt64 r.lower
  have hu := approximates_ofInt64 r.upper
  have hx := isFinite_of_between hl.isFinite hu.isFinite hle hlt
  rw [le_iff_value hl.isFinite hx] at hle
  rw [lt_iff_value hx hu.isFinite] at hlt
  refine ⟨hx, ?_, ?_⟩
  · by_contra hnot
    have hbelow := not_le.1 hnot
    have hsame : value x = value (ofInt64 r.lower) :=
      le_antisymm (hl.le_value x hx hbelow.le) hle
    have hne : value x ≠ 0 := by
      intro hzero
      obtain ⟨one, hone, hvalue⟩ := exists_value_eq (n := 1) (by decide)
      have hpos : (1 : ℚ) ≤ r.lower.toInt := by
        rw [hzero] at hbelow
        exact_mod_cast Int.add_one_le_iff.2 (by exact_mod_cast hbelow : 0 < r.lower.toInt)
      have habove := hl.le_value one hone (by rwa [hvalue, Nat.cast_one])
      rw [hvalue, ← hsame, hzero] at habove
      norm_num at habove
    exact hnot (hlower (eq_of_value_eq hx hl.isFinite hsame hne))
  · by_contra hnot
    exact absurd (hu.value_le x hx (not_lt.1 hnot)) (not_le.2 hlt)

/-- Such a number is brought to the grid as the integer at or below it. -/
theorem exists_snap?_eq (h : r.covers (.float x) = true)
    (hlower : x = ofInt64 r.lower → (r.lower.toInt : ℚ) ≤ value x) :
    ∃ n, r.interval.contains (.int n) = true ∧ r.snap? (.float x) = r.snap? (.int n) := by
  obtain ⟨hx, hle, hlt⟩ := between_of_covers h hlower
  have hfloorLe : r.lower.toInt ≤ ⌊value x⌋ := Int.le_floor.2 hle
  have hfloorLt : ⌊value x⌋ < r.upper.toInt := Int.floor_lt.2 hlt
  have hmin := r.lower.le_toInt
  have hmax := r.upper.toInt_lt
  obtain ⟨hfinite, hfloor⟩ := value_floor hx
  have htruncate := toInt_truncate hfinite hfloor (by omega) (by omega)
  refine ⟨truncate (floor x), Interval.contains_ints.2 ⟨by omega, by omega⟩, ?_⟩
  simp only [snap?, hx, reduceIte]

/-- A checked number, if it can be told from the lower bound, is brought to an admitted integer. -/
theorem exists_snap?_admits {raw : Scalar} (h : r.covers raw = true)
    (hlower : raw = .float (ofInt64 r.lower) →
      (r.lower.toInt : ℚ) ≤ value (ofInt64 r.lower)) :
    ∃ m, r.snap? raw = some m ∧ r.admits m = true := by
  cases raw with
  | int n => exact r.snap?_admits h
  | float x =>
    obtain ⟨n, hn, hsnap⟩ := exists_snap?_eq h fun hx => hx ▸ hlower (congrArg _ hx)
    rw [hsnap]
    exact r.snap?_admits hn

end IntRange

/-! ## Binary64 numbers -/

namespace FloatRange

variable {r : FloatRange} {raw : Scalar}

/-- A checked number is brought to an admitted one, on a resolved grid or without a grid. -/
theorem admits_snap (h : r.covers raw = true) (hstep : 0.0 < r.step → r.IsResolved)
    (hzero : r.lower = 0.0 → ¬0.0 < r.step → raw.toFloat ≠ -0.0) :
    r.admits (r.snap raw) = true := by
  by_cases hpos : 0.0 < r.step
  · exact admits_snap_of_isResolved (hstep hpos) hpos h
  · have hsnap : r.snap raw = raw.toFloat := if_neg hpos
    obtain ⟨hx, hle, hlt⟩ := value_of_covers h
    rw [hsnap, admits, Bool.and_eq_true]
    exact ⟨contains_of_value hx hle hlt fun hl => hzero hl hpos, onGrid_of_stepless hpos _⟩

/-- An admitted number is not not-a-number. -/
theorem isNaN_of_admits {x : Float} (h : r.admits x = true) : x.isNaN = false := by
  rw [admits, interval, Interval.floats, Interval.contains, Bool.and_eq_true, Bool.and_eq_true] at h
  simpa using h.1.1

end FloatRange

/-! ## Domains -/

namespace Domain

/-- The check against a domain is exact at a drawn number. At the lower bound of the integers, made
a binary64 number, that is so unless it has become less. The steps of a grid must be resolved, and
without a grid a drawn zero must be the positive one if that is the lower bound. -/
def IsExactAt : Domain → Scalar → Prop
  | ints r, raw => raw = .float (ofInt64 r.lower) → (r.lower.toInt : ℚ) ≤ value (ofInt64 r.lower)
  | floats r, raw => (0.0 < r.step → r.IsResolved) ∧
      (r.lower = 0.0 → ¬0.0 < r.step → raw.toFloat ≠ -0.0)
  | _, _ => True

/-- A drawn number that is checked against the domain becomes the mark of an inactive parameter or
an admitted value. -/
theorem admits_ofScalar {d : Domain} {raw : Scalar} (h : d.IsExactAt raw) :
    d.ofScalar true raw = .inactive ∨ d.admits (d.ofScalar true raw) = true := by
  have hset : ∀ s : ValueSet, (s.get? raw).getD .inactive = .inactive ∨
      (s.position? ((s.get? raw).getD .inactive)).isSome = true := by
    intro s
    cases hget : s.get? raw with
    | none => exact .inl rfl
    | some v => exact .inr (ValueSet.position?_of_get? hget)
  cases d with
  | categorical s | ordinal s => exact hset s
  | discrete s => exact hset s.toValueSet
  | text => exact .inl rfl
  | ints r =>
    cases hcovers : r.covers raw with
    | false =>
      left
      simp only [ofScalar, hcovers, Bool.not_false, Bool.and_self, reduceIte]
    | true =>
      obtain ⟨m, hm, hadmits⟩ := IntRange.exists_snap?_admits hcovers h
      right
      simp only [ofScalar, hcovers, hm, Bool.not_true, Bool.and_false, Bool.false_eq_true,
        reduceIte]
      exact hadmits
  | floats r =>
    cases hcovers : r.covers raw with
    | false =>
      left
      simp only [ofScalar, hcovers, Bool.not_false, Bool.and_self, reduceIte]
    | true =>
      have hadmits := FloatRange.admits_snap hcovers h.1 h.2
      have hresult : SignedFloat.ofResult (r.snap raw) = .ofFloat (r.snap raw) := by
        rw [SignedFloat.ofResult, FloatRange.isNaN_of_admits hadmits]
        rfl
      right
      simp only [ofScalar, hcovers, hresult, Bool.not_true, Bool.and_false, Bool.false_eq_true,
        reduceIte]
      exact hadmits

/-- Drawn numbers that are checked against the domain become as many values, each the mark of an
inactive parameter or admitted. -/
theorem admits_ofScalars {d : Domain} {raw : List Scalar} (h : ∀ x ∈ raw, d.IsExactAt x) :
    (d.ofScalars true raw).length = raw.length ∧
      ∀ v ∈ d.ofScalars true raw, v = .inactive ∨ d.admits v = true := by
  refine ⟨List.length_map _, ?_⟩
  intro v hv
  obtain ⟨x, hx, rfl⟩ := List.mem_map.1 hv
  exact admits_ofScalar (h x hx)

end Domain

/-- The quarters from zero up to ten. -/
def FloatRange.quarters : FloatRange where
  lower := 0.0
  upper := 10.0
  step := 0.25
  bounds_valid := by decide +kernel
  step_valid := by decide +kernel

/-- Quarters are few steps from zero. -/
theorem FloatRange.isResolved_quarters : quarters.IsResolved := by
  have hquarter : IsCanonical (2 ^ 52) (-54) :=
    ⟨by decide, by decide, by decide, by decide, .inr le_rfl⟩
  have hten : IsCanonical (5 * 2 ^ 50) (-49) :=
    ⟨by decide, by decide, by decide, by decide, .inr (by decide)⟩
  have hstepEq : quarters.step =
      .ofModel (.pack (.finite .positive (2 ^ 52) (-54) (by decide))) := by
    decide +kernel
  have hupperEq : quarters.upper =
      .ofModel (.pack (.finite .positive (5 * 2 ^ 50) (-49) (by decide))) := by
    decide +kernel
  obtain ⟨hfinite, hstep⟩ := value_ofModel_pack hquarter hstepEq
  obtain ⟨-, hupper⟩ := value_ofModel_pack hten hupperEq
  have hlower : value quarters.lower = 0 := value_zero.2
  constructor
  · exact hfinite
  · have hone : value quarters.step ≤ 1 := by
      rw [hstep, signed]
      norm_num
    exact hone.trans (one_le_zpow₀ (by norm_num) (by decide))
  · rw [hlower, hstep, signed]
    norm_num
  · rw [hupper, hstep, signed, signed]
    norm_num

/-- A number between quarters, not-a-number, an integer and the upper bound. -/
theorem Domain.admits_ofScalars_quarters :
    let raw : List Scalar := [.float 2.6, .float (0.0 / 0.0), .int 3, .float 10.0]
    (∀ x ∈ raw, (floats .quarters).IsExactAt x) ∧
      ((floats .quarters).ofScalars true raw).length = raw.length ∧
      ∀ v ∈ (floats .quarters).ofScalars true raw,
        v = .inactive ∨ (floats .quarters).admits v = true := by
  intro raw
  have hexact : ∀ x ∈ raw, (floats .quarters).IsExactAt x := fun _ _ =>
    ⟨fun _ => FloatRange.isResolved_quarters, fun _ hstep => absurd (by decide +kernel) hstep⟩
  exact ⟨hexact, admits_ofScalars hexact⟩

/-- The check does not notice a number below the lower bound that both are made. -/
theorem Domain.ofScalars_not_admitted : ¬∀ (d : Domain) (raw : List Scalar),
    (d.ofScalars true raw).length = raw.length ∧
      ∀ v ∈ d.ofScalars true raw, v = .inactive ∨ d.admits v = true := by
  intro h
  have hmem : Value.int 9007199254740992 ∈
      (ints ⟨9007199254740993, 9007199254740999, 0, by decide, by decide⟩).ofScalars true
        [.float 9007199254740992.0] := by
    decide +kernel
  rcases (h _ _).2 _ hmem with hinactive | hadmits
  · cases hinactive
  · revert hadmits
    decide +kernel

/-- The points of a grid whose steps are small next to its bounds are not found on it. -/
example :
    let tenths : FloatRange := ⟨1e9, 1000000001.0, 0.1, by decide +kernel, by decide +kernel⟩
    let raw : Scalar := .float 1000000000.15
    tenths.covers raw = true ∧ tenths.admits (tenths.snap raw) = false := by
  decide +kernel

end SearchSpace
