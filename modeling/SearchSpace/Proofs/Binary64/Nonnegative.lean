import SearchSpace.Proofs.Binary64.Arithmetic

/-!
# Numbers that are not negative

A number that is at least zero is finite or infinite (`isFinite_or_infinity`). The sum of two such
numbers is at least the first of them, whether or not it is still finite (`le_add`), and so is at
least zero. The quotient of a finite number that is not negative by a positive one is at least zero
too (`nonneg_div`).
-/

namespace SearchSpace.Binary64

open Float.Model
open Float.Model.UnpackedFloat

variable {x y z : Float}

/-- A finite number is at least zero if it stands for no less. -/
theorem nonneg_iff_value (hx : x.isFinite = true) : 0.0 ≤ x ↔ 0 ≤ value x :=
  le_iff_value rfl hx

/-- A number that is at least zero is finite or infinite. -/
theorem isFinite_or_infinity (h : 0.0 ≤ x) :
    x.isFinite = true ∨ x.toModel.unpack = .infinity .positive :=
  isFinite_or_infinity_of_le rfl h

/-- A finite number that is at least zero is a zero or has a positive mantissa. -/
theorem exists_of_nonneg (hx : x.isFinite = true) (h : 0.0 ≤ x) :
    (∃ s, x.toModel.unpack = .zero s) ∨
      ∃ m e, ∃ hc : IsCanonical m e, x.toModel.unpack = .finite .positive m e hc.pos := by
  rcases exists_of_isFinite hx with hzero | ⟨s, m, e, hc, hu⟩
  · exact .inl hzero
  · rw [nonneg_iff_value hx, value_of_unpack hu] at h
    cases s with
    | positive => exact .inr ⟨m, e, hc, hu⟩
    | negative => exact absurd h (neg_neg_of_pos hc.value_pos).not_ge

/-! ## Sums -/

/-- A sum with infinity is infinity. -/
theorem add_infinity (hx : 0.0 ≤ x) (hy : 0.0 ≤ y)
    (h : x.toModel.unpack = .infinity .positive ∨ y.toModel.unpack = .infinity .positive) :
    (x + y).toModel.unpack = .infinity .positive := by
  have hsum : add .binary64 x.toModel.unpack y.toModel.unpack = .infinity .positive := by
    rcases h with hinfinite | hinfinite
    · rcases isFinite_or_infinity hy with hy' | hy'
      · rcases exists_of_isFinite hy' with ⟨s, hv⟩ | ⟨s, m, e, hc, hv⟩ <;> rw [hinfinite, hv] <;> rfl
      · rw [hinfinite, hy']
        rfl
    · rcases isFinite_or_infinity hx with hx' | hx'
      · rcases exists_of_isFinite hx' with ⟨s, hu⟩ | ⟨s, m, e, hc, hu⟩ <;> rw [hinfinite, hu] <;> rfl
      · rw [hinfinite, hx']
        rfl
  show (Float.ofModel (.pack (add .binary64 x.toModel.unpack y.toModel.unpack))).toModel.unpack = _
  rw [hsum]
  rfl

/-- A finite number that stands for no more than a sum is at most the sum. -/
theorem le_add_of_value_le (hx : x.isFinite = true) (hx0 : 0.0 ≤ x) (hy : y.isFinite = true)
    (hy0 : 0.0 ≤ y) (hz : z.isFinite = true) (h : value z ≤ value x + value y) : z ≤ x + y := by
  have hsum : x + y = .ofModel (.pack (add .binary64 x.toModel.unpack y.toModel.unpack)) := rfl
  -- a sum with a zero is the other number, and only that of two mantissas can be too large
  rcases exists_of_nonneg hx hx0 with ⟨s, hu⟩ | ⟨m, e, hc, hu⟩ <;>
    rcases exists_of_nonneg hy hy0 with ⟨s', hv⟩ | ⟨m', e', hc', hv⟩
  · have hround := approximates_add hx hy (by
      rw [value_of_zero hu, value_of_zero hv, add_zero]
      exact isModerate_zero)
    exact (le_iff_value hz hround.isFinite).2 (hround.le_value z hz h)
  · have hother : x + y = y := by
      rw [hsum, hu, hv]
      exact (eq_ofModel_pack hv).symm
    rw [value_of_zero hu, zero_add] at h
    rw [hother]
    exact (le_iff_value hz hy).2 h
  · have hother : x + y = x := by
      rw [hsum, hu, hv]
      exact (eq_ofModel_pack hu).symm
    rw [value_of_zero hv, add_zero] at h
    rw [hother]
    exact (le_iff_value hz hx).2 h
  · obtain ⟨n, low, hvalue, hround⟩ := exists_add_eq_normalize hu hv
    have hpos : (0 : ℚ) < n * 2 ^ low := by
      rw [← hvalue, value_of_unpack hu, value_of_unpack hv]
      exact add_pos hc.value_pos hc'.value_pos
    have hn : 0 < n := by exact_mod_cast (mul_pos_iff_of_pos_right (by positivity)).1 hpos
    obtain ⟨k, rfl⟩ : ∃ k : Nat, n = k := ⟨n.toNat, by omega⟩
    have hcompare : compare (k : Int) 0 = .gt := Int.compare_eq_gt.2 hn
    rw [hround, UnpackedFloat.normalize, hcompare, Int.toNat_natCast]
    refine (rounds_round (by omega)).le_of_value_le hz ?_
    rwa [hvalue, Int.cast_natCast] at h

/-- Adding a number that is at least zero makes no such number less. -/
theorem le_add (hx : 0.0 ≤ x) (hy : 0.0 ≤ y) : x ≤ x + y := by
  rcases isFinite_or_infinity hx with hx' | hx'
  · rcases isFinite_or_infinity hy with hy' | hy'
    · refine le_add_of_value_le hx' hx hy' hy hx' ?_
      have hnonneg := (nonneg_iff_value hy').1 hy
      linarith
    · exact le_of_infinity hx' (add_infinity hx hy (.inr hy'))
  · rw [le_iff, order?, hx', add_infinity hx hy (.inl hx')]
    exact .inr rfl

/-- The sum of numbers that are at least zero is at least zero. -/
theorem nonneg_add (hx : 0.0 ≤ x) (hy : 0.0 ≤ y) : 0.0 ≤ x + y := by
  rcases isFinite_or_infinity hx with hx' | hx'
  · exact le_trans_of_isFinite rfl hx' hx (le_add hx hy)
  · exact le_of_infinity rfl (add_infinity hx hy (.inl hx'))

/-! ## Quotients -/

/-- The quotient of a zero and a positive number stands for zero. -/
theorem value_div_of_zero (hx : x.isFinite = true) (hx0 : value x = 0) (hy : y.isFinite = true)
    (hy0 : 0 < value y) : (x / y).isFinite = true ∧ value (x / y) = 0 := by
  have hquotient : value x / value y = 0 := by rw [hx0, zero_div]
  have hround := approximates_div hx hy hy0.ne' (by rw [hquotient]; exact isModerate_zero)
  rw [hquotient] at hround
  exact ⟨hround.isFinite, hround.value_eq (y := 0.0) rfl⟩

/-- The quotient of a number that is at least zero and a positive one is at least zero. -/
theorem nonneg_div (hx : x.isFinite = true) (hx0 : 0.0 ≤ x) (hy : y.isFinite = true)
    (hy0 : 0 < value y) : 0.0 ≤ x / y := by
  rcases exists_of_nonneg hx hx0 with ⟨s, hu⟩ | ⟨m, e, hc, hu⟩
  · obtain ⟨hfinite, hvalue⟩ := value_div_of_zero hx (value_of_zero hu) hy hy0
    exact (nonneg_iff_value hfinite).2 hvalue.ge
  · rcases exists_of_nonneg hy ((nonneg_iff_value hy).2 hy0.le) with ⟨s', hv⟩ | ⟨m', e', hc', hv⟩
    · exact absurd (value_of_zero hv) hy0.ne'
    · have hquotient : x / y = .ofModel (.pack (div .binary64 x.toModel.unpack y.toModel.unpack)) :=
        rfl
      rw [hquotient, hu, hv]
      refine (rounds_div hc.pos hc'.pos).le_of_value_le rfl ?_
      exact (div_pos hc.value_pos hc'.value_pos).le

end SearchSpace.Binary64
