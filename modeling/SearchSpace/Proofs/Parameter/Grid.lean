import Mathlib.Data.Int.ConditionallyCompleteOrder
import Mathlib.Data.Rat.Floor
import Mathlib.Data.Set.Function
import SearchSpace.Parameter.Basic
import SearchSpace.Proofs.Law.Support
import SearchSpace.Proofs.Parameter.Domain

/-!
# The grid of a range of integers

Three parts of a range of integers speak of its grid: the check of a value asks whether this is whole
steps from the lower bound, the default law counts the steps that stay below the upper bound and takes
one of them, and a number that is drawn from any law is brought down to a step. They mean the same
points: those of the law are those that the check admits, each of them once
(`IntRange.bijOn_point`), and bringing down changes none of them (`Domain.ofScalar_of_admits`). The
bounds can be as far apart as 64 bits allow, and no number on the way is too large for its type
(`IntRange.count_spec`, `IntRange.hasWideForm_of_passed`).
-/

namespace SearchSpace

namespace IntRange

variable (r : IntRange)

/-- How far a range reaches. -/
def span : Int :=
  r.upper.toInt - r.lower.toInt

/-- How many points the grid has. -/
def count : Int :=
  ⌈(r.span : ℚ) / r.gap⌉

/-- The points of the grid. -/
def point (k : Int) : Int :=
  r.lower.toInt + k * r.gap

/-- The whole numbers that come up on the way to a point, and back from it. -/
def passed (k : Int) : List Int :=
  [r.span, r.span + r.gap - 1, r.count, k * r.gap, r.point k]

/-- A whole number has a form of 128 bits. -/
def HasWideForm (z : Int) : Prop :=
  -170141183460469231731687303715884105728 ≤ z ∧ z ≤ 170141183460469231731687303715884105727

/-! ## Counting -/

/-- A range has a number, and no more than there are words of 64 bits. -/
theorem span_spec : 0 < r.span ∧ r.span < UInt64.size := by
  have hlt := Int64.lt_iff_toInt_lt.1 r.lower_lt_upper
  have hlower := r.lower.le_toInt
  have hupper := r.upper.toInt_lt
  have hsize : (UInt64.size : Int) = 18446744073709551616 := rfl
  rw [span]
  omega

/-- The distance between points is an integer of 64 bits. -/
theorem gap_le : r.gap ≤ Int64.maxValue.toInt := by
  have hmax := r.step.toInt_le
  have hone : (1 : Int) ≤ Int64.maxValue.toInt := by decide
  rw [gap]
  omega

/-- A point is counted if it stays below the upper bound. -/
theorem lt_count_iff {k : Int} : k < r.count ↔ k * r.gap < r.span := by
  have hgap : (0 : ℚ) < r.gap := by exact_mod_cast r.gap_pos
  rw [count, Int.lt_ceil, lt_div_iff₀ hgap]
  exact_mod_cast Iff.rfl

/-- The law counts the points by a division of integers. -/
theorem count_eq : r.count = (r.span + r.gap - 1) / r.gap := by
  refine eq_of_forall_lt_iff fun k => ?_
  have hexpand : (k + 1) * r.gap = k * r.gap + r.gap := by ring
  rw [lt_count_iff, Int.lt_iff_add_one_le, Int.lt_iff_add_one_le, Int.le_ediv_iff_mul_le r.gap_pos]
  omega

variable {r} {k : Int} {n : Int64}

/-- A point that is counted lies between the bounds. -/
theorem point_between (hk : 0 ≤ k) (hlt : k < r.count) :
    r.lower.toInt ≤ r.point k ∧ r.point k < r.upper.toInt := by
  have hnonneg : 0 ≤ k * r.gap := Int.mul_nonneg hk r.gap_pos.le
  have hbelow := r.lt_count_iff.1 hlt
  rw [span] at hbelow
  rw [point]
  omega

/-- A point that is counted is an integer of 64 bits. -/
theorem toInt_ofInt_point (hk : 0 ≤ k) (hlt : k < r.count) :
    (Int64.ofInt (r.point k)).toInt = r.point k := by
  obtain ⟨hlower, hupper⟩ := point_between hk hlt
  exact Integer.toInt_ofInt_of_between hlower hupper

/-- The number of points is one of 64 bits, and there is a point. -/
theorem count_spec (r : IntRange) :
    0 < r.count ∧ ((UInt64.ofNat r.count.toNat).toNat : Int) = r.count := by
  have hlt := Int64.lt_iff_toInt_lt.1 r.lower_lt_upper
  obtain ⟨hpos, hle, -⟩ := UniformInt.steps_spec hlt r.gap_pos
  have hcount : r.count = (r.upper.toInt - r.lower.toInt + r.gap - 1) / r.gap := r.count_eq
  rw [← hcount] at hpos hle
  have hsize := r.span_spec.2
  rw [span] at hsize
  refine ⟨hpos, ?_⟩
  rw [UInt64.toNat_ofNat_of_lt' (by omega)]
  omega

/-- The numbers on the way to a point that is counted have a form of 128 bits. -/
theorem hasWideForm_of_passed (hk : 0 ≤ k) (hlt : k < r.count) :
    ∀ z ∈ r.passed k, HasWideForm z := by
  obtain ⟨hspan, hsize⟩ := r.span_spec
  have hgap := r.gap_pos
  have hgapMax := r.gap_le
  obtain ⟨hlower, hupper⟩ := point_between hk hlt
  obtain ⟨hcount, hcast⟩ := r.count_spec
  have hword := (UInt64.ofNat r.count.toNat).toNat_lt
  have hmul := r.lt_count_iff.1 hlt
  have hnonneg : 0 ≤ k * r.gap := Int.mul_nonneg hk hgap.le
  have hmax : Int64.maxValue.toInt = 9223372036854775807 := by decide
  have hwords : (UInt64.size : Int) = 18446744073709551616 := rfl
  have hleast := r.lower.le_toInt
  have hgreatest := r.upper.toInt_lt
  simp only [passed, List.forall_mem_cons, List.not_mem_nil, false_imp_iff, implies_true, and_true,
    HasWideForm]
  refine ⟨?_, ?_, ?_, ?_, ?_⟩ <;> omega

/-! ## Membership -/

/-- The points that are counted are the integers that the range admits. -/
theorem admits_iff : r.admits n = true ↔ ∃ k, 0 ≤ k ∧ k < r.count ∧ r.point k = n.toInt := by
  rw [admits, Bool.and_eq_true, onGrid_iff, interval, Interval.contains_ints]
  constructor
  · rintro ⟨⟨hlower, hupper⟩, k, hk⟩
    have hpoint : r.point k = n.toInt := by
      rw [point, Int.mul_comm, ← hk]
      omega
    refine ⟨k, ?_, r.lt_count_iff.2 ?_, hpoint⟩
    · refine Int.le_of_not_gt fun hneg => ?_
      have hmul := Int.mul_neg_of_neg_of_pos hneg r.gap_pos
      rw [point] at hpoint
      omega
    · rw [span, Int.mul_comm, ← hk]
      omega
  · rintro ⟨k, hk, hlt, hpoint⟩
    rw [← hpoint]
    refine ⟨point_between hk hlt, k, ?_⟩
    rw [point, Int.mul_comm]
    omega

/-- Each integer that the range admits is one point. -/
theorem bijOn_point (r : IntRange) :
    Set.BijOn r.point (Set.Ico 0 r.count) (Int64.toInt '' {n | r.admits n = true}) := by
  refine ⟨fun k hk => ?_, fun k _ k' _ heq => ?_, ?_⟩
  · have hcast := toInt_ofInt_point hk.1 hk.2
    exact ⟨_, admits_iff.2 ⟨k, hk.1, hk.2, hcast.symm⟩, hcast⟩
  · exact Int.eq_of_mul_eq_mul_right r.gap_pos.ne' (Int.add_left_cancel heq)
  · rintro _ ⟨n, hn, rfl⟩
    obtain ⟨k, hk, hlt, hpoint⟩ := admits_iff.1 hn
    exact ⟨k, ⟨hk, hlt⟩, hpoint⟩

/-! ## Drawing -/

/-- The flat law takes one of the points that are counted. -/
theorem draw_law (r : IntRange) : r.law.draw =
    (fun k => Int64.ofInt (r.point k.toNat)) <$> Draw.below (UInt64.ofNat r.count.toNat) := by
  rw [map_eq_pure_bind, count_eq]
  rfl

/-- The number of a step is below the number of points. -/
theorem always_below_count (r : IntRange) :
    Draw.Always (Draw.below (UInt64.ofNat r.count.toNat)) fun k => (k.toNat : Int) < r.count := by
  obtain ⟨hpos, hcount⟩ := r.count_spec
  refine (Draw.always_below ?_).imp fun k hk => ?_
  · rw [UInt64.lt_iff_toNat_lt, UInt64.toNat_zero]
    omega
  · rw [UInt64.lt_iff_toNat_lt] at hk
    omega

/-- The flat law draws integers that the range admits. -/
theorem always_admits_draw (r : IntRange) : Draw.Always r.law.draw fun n => r.admits n = true := by
  rw [draw_law]
  refine (r.always_below_count.imp fun k hk => ?_).map
  have hk0 : (0 : Int) ≤ k.toNat := Int.natCast_nonneg _
  exact admits_iff.2 ⟨k.toNat, hk0, hk, (toInt_ofInt_point hk0 hk).symm⟩

end IntRange

/-- An integer that the domain admits is what it stands for, whether it is checked or not. -/
theorem Domain.ofScalar_of_admits {r : IntRange} {n : Int64} (h : r.admits n = true)
    (checked : Bool) : (Domain.ints r).ofScalar checked (.int n) = .int n := by
  have hcovers : r.covers (.int n) = true := by
    rw [IntRange.admits, Bool.and_eq_true] at h
    exact h.1
  simp only [ofScalar, hcovers, IntRange.snap?_of_admits h, Bool.not_true, Bool.and_false,
    Bool.false_eq_true, reduceIte]

/-- The points that the default law of a range of integers counts are the values of the parameter,
each of them once, and no number on the way is too large for its type. A draw is one of them, and
stands for itself, whether it is checked or not. -/
theorem Parameter.defaultLaw_ints {p : Parameter} {r : IntRange} (h : p.domain = .ints r) :
    Set.BijOn r.point (Set.Ico 0 r.count)
        (Int64.toInt '' {n | p.domain.admits (.int n) = true}) ∧
      ((UInt64.ofNat r.count.toNat).toNat : Int) = r.count ∧
      (∀ k ∈ Set.Ico 0 r.count, (∀ z ∈ r.passed k, IntRange.HasWideForm z) ∧
        (Int64.ofInt (r.point k)).toInt = r.point k) ∧
      ∃ law, p.defaultLaw = .ok law ∧
        law.draw = (fun k => [.int (Int64.ofInt (r.point k.toNat))]) <$>
          Draw.below (UInt64.ofNat r.count.toNat) ∧
        Draw.Always law.draw fun row => ∃ n, row = [.int n] ∧
          p.domain.admits (.int n) = true ∧
          ∀ checked, p.domain.ofScalars checked row = [.int n] := by
  simp only [h]
  refine ⟨r.bijOn_point, r.count_spec.2, fun k hk => ⟨?_, ?_⟩, .uniformInt r.law, ?_, ?_, ?_⟩
  · exact IntRange.hasWideForm_of_passed hk.1 hk.2
  · exact IntRange.toInt_ofInt_point hk.1 hk.2
  · rw [defaultLaw, h]
    rfl
  · rw [Law.draw, r.draw_law, bind_map_left, map_eq_pure_bind]
  · rw [Law.draw]
    refine r.always_admits_draw.bind fun n hn => Draw.always_pure ⟨n, rfl, hn, fun checked => ?_⟩
    rw [Domain.ofScalars, List.map_singleton, Domain.ofScalar_of_admits hn]

/-- All integers of 64 bits but the greatest. -/
def IntRange.broad : IntRange :=
  ⟨Int64.minValue, Int64.maxValue, 1, by decide, by decide⟩

/-- A parameter with these values. -/
def Parameter.broad : Parameter :=
  ⟨0, ⟨"broad", by decide⟩, .ints .broad, .int 0, by decide⟩

/-- The default law of the parameter counts one point less than there are words of 64 bits, and draws
its values. -/
theorem Parameter.defaultLaw_ints_broad :
    Parameter.broad.domain = .ints .broad ∧
      (UInt64.ofNat IntRange.broad.count.toNat).toNat = 18446744073709551615 ∧
      ∃ law, Parameter.broad.defaultLaw = .ok law ∧ Draw.Always law.draw fun row =>
        ∃ n, row = [.int n] ∧ Parameter.broad.domain.admits (.int n) = true := by
  obtain ⟨-, hcount, -, law, hlaw, -, hdraw⟩ :=
    @Parameter.defaultLaw_ints Parameter.broad IntRange.broad rfl
  refine ⟨rfl, ?_, law, hlaw, hdraw.imp fun row h => h.imp fun n hn => ⟨hn.1, hn.2.1⟩⟩
  have hspan : (IntRange.broad.span + IntRange.broad.gap - 1) / IntRange.broad.gap =
      18446744073709551615 := by
    decide
  rw [IntRange.count_eq, hspan] at hcount
  rw [IntRange.count_eq, hspan]
  omega

end SearchSpace
