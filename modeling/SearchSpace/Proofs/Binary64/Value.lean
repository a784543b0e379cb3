import SearchSpace.Proofs.Binary64.Order
import SearchSpace.Proofs.Binary64.Packing

/-!
# The value of a number

A finite number stands for the rational `value x`, and finite numbers compare as these do
(`lt_iff_value`, `le_iff_value`). Both zeros stand for zero; apart from them there is one number for
a value (`eq_of_value_eq`).
-/

namespace SearchSpace.Binary64

open Float.Model
open Float.Model.UnpackedFloat

/-- A rational with a sign. -/
def signed : Sign → ℚ → ℚ
  | .negative, q => -q
  | .positive, q => q

/-- What an unpacked number stands for; zero, if it is not finite. -/
def unpackedValue : UnpackedFloat → ℚ
  | .finite s m e _ => signed s (m * 2 ^ e)
  | _ => 0

/-- The rational that a finite number stands for. -/
def value (x : Float) : ℚ :=
  unpackedValue x.toModel.unpack

variable {x y : Float}

/-- A finite number is a zero or has a canonical form. -/
theorem exists_of_isFinite (h : x.isFinite = true) :
    (∃ s, x.toModel.unpack = .zero s) ∨
      ∃ s m e, ∃ hc : IsCanonical m e, x.toModel.unpack = .finite s m e hc.pos := by
  have hfinite : x.toModel.unpack.isFinite = true := h
  cases hu : x.toModel.unpack with
  | zero s => exact .inl ⟨s, rfl⟩
  | finite s m e hm => exact .inr ⟨s, m, e, isCanonical_of_unpack hu, rfl⟩
  | infinity s | notANumber =>
    rw [hu] at hfinite
    cases hfinite

/-- The value of a zero. -/
theorem value_of_zero {s : Sign} (h : x.toModel.unpack = .zero s) : value x = 0 := by
  rw [value, h]
  rfl

/-- The value of a number with a mantissa. -/
theorem value_of_unpack {s : Sign} {m : Nat} {e : Int} {hm : 0 < m}
    (h : x.toModel.unpack = .finite s m e hm) : value x = signed s (m * 2 ^ e) := by
  rw [value, h]
  rfl

/-- A number with a mantissa is finite. -/
theorem isFinite_of_unpack {s : Sign} {m : Nat} {e : Int} {hm : 0 < m}
    (h : x.toModel.unpack = .finite s m e hm) : x.isFinite = true := by
  show x.toModel.unpack.isFinite = true
  rw [h]
  rfl

/-- A finite number is not not-a-number. -/
theorem isNaN_of_isFinite (h : x.isFinite = true) : x.isNaN = false := by
  show x.toModel.unpack.isNaN = false
  rcases exists_of_isFinite h with ⟨s, hu⟩ | ⟨s, m, e, hc, hu⟩ <;> rw [hu] <;> rfl

/-- A canonical form stands for a positive magnitude. -/
theorem IsCanonical.value_pos {m : Nat} {e : Int} (h : IsCanonical m e) : (0 : ℚ) < m * 2 ^ e := by
  have hm : (0 : ℚ) < m := by exact_mod_cast h.pos
  positivity

/-! ## Order -/

/-- A lesser exponent makes a lesser magnitude, and with the same exponent a lesser mantissa does. -/
theorem IsCanonical.value_lt {m m' : Nat} {e e' : Int} (h : IsCanonical m e)
    (h' : IsCanonical m' e') (hlt : e < e' ∨ e = e' ∧ m < m') :
    (m : ℚ) * 2 ^ e < m' * 2 ^ e' := by
  rcases hlt with hlt | ⟨rfl, hlt⟩
  · have hleast := h.least_le
    have hfull : 2 ^ 52 ≤ m' := h'.full.resolve_left (by omega)
    have hm : (m : ℚ) < 2 ^ 53 := by exact_mod_cast h.lt
    have hm' : (2 : ℚ) ^ 52 ≤ m' := by exact_mod_cast hfull
    calc (m : ℚ) * 2 ^ e < 2 ^ 53 * 2 ^ e := by gcongr
      _ = 2 ^ 52 * 2 ^ (e + 1) := by rw [zpow_add₀ (by norm_num)]; ring
      _ ≤ m' * 2 ^ e' := by
        gcongr
        · norm_num
        · omega
  · have hm : (m : ℚ) < m' := by exact_mod_cast hlt
    gcongr

/-- Canonical magnitudes compare as their exponents and then their mantissas do. -/
theorem IsCanonical.compare_eq {m m' : Nat} {e e' : Int} (h : IsCanonical m e)
    (h' : IsCanonical m' e') :
    (compare e e').then (compare m m') = cmp ((m : ℚ) * 2 ^ e) (m' * 2 ^ e') := by
  rcases Int.lt_trichotomy e e' with hlt | rfl | hgt
  · rw [Int.compare_eq_lt.2 hlt, (cmp_eq_lt_iff _ _).2 (h.value_lt h' (.inl hlt))]
    rfl
  · rw [Int.compare_eq_eq.2 rfl, Ordering.eq_then]
    rcases Nat.lt_trichotomy m m' with hlt | rfl | hgt
    · rw [Nat.compare_eq_lt.2 hlt, (cmp_eq_lt_iff _ _).2 (h.value_lt h' (.inr ⟨rfl, hlt⟩))]
    · rw [Nat.compare_eq_eq.2 rfl, cmp_self_eq_eq]
    · rw [Nat.compare_eq_gt.2 hgt, (cmp_eq_gt_iff _ _).2 (h'.value_lt h (.inr ⟨rfl, hgt⟩))]
  · rw [Int.compare_eq_gt.2 hgt, (cmp_eq_gt_iff _ _).2 (h'.value_lt h (.inl hgt))]
    rfl

/-- Finite numbers compare as what they stand for. -/
theorem order?_eq_cmp (hx : x.isFinite = true) (hy : y.isFinite = true) :
    order? x y = some (cmp (value x) (value y)) := by
  rw [order?, value, value]
  rcases exists_of_isFinite hx with ⟨s, hu⟩ | ⟨s, m, e, hc, hu⟩ <;>
    rcases exists_of_isFinite hy with ⟨s', hv⟩ | ⟨s', m', e', hc', hv⟩ <;> rw [hu, hv]
  · exact congrArg some (cmp_self_eq_eq 0).symm
  · have hpos := hc'.value_pos
    cases s' with
    | positive => exact congrArg some ((cmp_eq_lt_iff _ _).2 hpos).symm
    | negative => exact congrArg some ((cmp_eq_gt_iff _ _).2 (neg_neg_of_pos hpos)).symm
  · have hpos := hc.value_pos
    cases s with
    | positive => exact congrArg some ((cmp_eq_gt_iff _ _).2 hpos).symm
    | negative => exact congrArg some ((cmp_eq_lt_iff _ _).2 (neg_neg_of_pos hpos)).symm
  · have hpos := hc.value_pos
    have hpos' := hc'.value_pos
    cases s with
    | positive =>
      cases s' with
      | positive => exact congrArg some (hc.compare_eq hc')
      | negative =>
        exact congrArg some ((cmp_eq_gt_iff _ _).2 ((neg_neg_of_pos hpos').trans hpos)).symm
    | negative =>
      cases s' with
      | positive =>
        exact congrArg some ((cmp_eq_lt_iff _ _).2 ((neg_neg_of_pos hpos).trans hpos')).symm
      | negative =>
        refine congrArg some ((congrArg Ordering.swap (hc.compare_eq hc')).trans ?_)
        rw [cmp_swap]
        exact (StrictAnti.cmp_map_eq (fun _ _ h => neg_lt_neg h) _ _).symm

/-- A finite number is less than another one if it stands for less. -/
theorem lt_iff_value (hx : x.isFinite = true) (hy : y.isFinite = true) :
    x < y ↔ value x < value y := by
  rw [lt_iff, order?_eq_cmp hx hy, Option.some.injEq, cmp_eq_lt_iff]

/-- A finite number is at most another one if it stands for no more. -/
theorem le_iff_value (hx : x.isFinite = true) (hy : y.isFinite = true) :
    x ≤ y ↔ value x ≤ value y := by
  rw [le_iff, order?_eq_cmp hx hy, Option.some.injEq, Option.some.injEq, cmp_eq_lt_iff,
    cmp_eq_eq_iff, le_iff_lt_or_eq]

/-- Finite numbers are equal if they stand for the same. -/
theorem beq_iff_value (hx : x.isFinite = true) (hy : y.isFinite = true) :
    (x == y) = true ↔ value x = value y := by
  rw [beq_iff, order?_eq_cmp hx hy, Option.some.injEq, cmp_eq_eq_iff]

/-- A finite number is at most infinity. -/
theorem le_of_infinity (hx : x.isFinite = true) (hy : y.toModel.unpack = .infinity .positive) :
    x ≤ y := by
  rw [le_iff, order?, hy]
  rcases exists_of_isFinite hx with ⟨s, hu⟩ | ⟨s, m, e, hc, hu⟩ <;> rw [hu] <;> exact .inl rfl

/-- What a finite number is at most is finite, or it is infinity. -/
theorem isFinite_or_infinity_of_le (hx : x.isFinite = true) (h : x ≤ y) :
    y.isFinite = true ∨ y.toModel.unpack = .infinity .positive := by
  rw [le_iff, order?] at h
  show y.toModel.unpack.isFinite = true ∨ _
  cases hy : y.toModel.unpack with
  | zero s | finite s m e hm => exact .inl rfl
  | infinity s =>
    cases s with
    | positive => exact .inr rfl
    | negative =>
      rw [hy] at h
      rcases exists_of_isFinite hx with ⟨s, hx⟩ | ⟨s, m, e, hc, hx⟩ <;> rw [hx] at h <;> cases s <;>
        rcases h with h | h <;> cases h
  | notANumber =>
    rw [hy] at h
    rcases exists_of_isFinite hx with ⟨s, hx⟩ | ⟨s, m, e, hc, hx⟩ <;> rw [hx] at h <;>
      rcases h with h | h <;> cases h

/-- A finite number is at most what a greater finite number is at most. -/
theorem le_trans_of_isFinite {z : Float} (hx : x.isFinite = true) (hy : y.isFinite = true)
    (hxy : x ≤ y) (hyz : y ≤ z) : x ≤ z := by
  rcases isFinite_or_infinity_of_le hy hyz with hz | hz
  · rw [le_iff_value hx hy] at hxy
    rw [le_iff_value hy hz] at hyz
    exact (le_iff_value hx hz).2 (hxy.trans hyz)
  · exact le_of_infinity hx hz

/-- A number between finite ones is finite. -/
theorem isFinite_of_between {l u : Float} (hl : l.isFinite = true) (hu : u.isFinite = true)
    (hlx : l ≤ x) (hxu : x < u) : x.isFinite = true := by
  rw [le_iff, order?] at hlx
  rw [lt_iff, order?] at hxu
  show x.toModel.unpack.isFinite = true
  cases hx : x.toModel.unpack with
  | zero s | finite s m e hm => rfl
  | notANumber =>
    rw [hx] at hxu
    cases hxu
  | infinity s =>
    rw [hx] at hlx hxu
    cases s with
    | positive =>
      rcases exists_of_isFinite hu with ⟨s, hu⟩ | ⟨s, m, e, hc, hu⟩ <;> rw [hu] at hxu <;> cases hxu
    | negative =>
      rcases exists_of_isFinite hl with ⟨s, hl⟩ | ⟨s, m, e, hc, hl⟩ <;> rw [hl] at hlx <;>
        cases s <;> rcases hlx with h | h <;> cases h

/-! ## Numbers of a value -/

/-- Two finite numbers with a value other than zero are the same if their values are. -/
theorem eq_of_value_eq (hx : x.isFinite = true) (hy : y.isFinite = true) (h : value x = value y)
    (hne : value x ≠ 0) : x = y := by
  have hbeq : x.toModel.unpack.beq y.toModel.unpack = true := by
    have horder := order?_eq_cmp hx hy
    rw [h, cmp_self_eq_eq] at horder
    exact beq_iff.2 horder
  rcases (beq_iff_ne_notANumber_and_eq _ _).1 hbeq with ⟨-, -, hu | ⟨hzero, -⟩ | ⟨hzero, -⟩⟩
  · exact (eq_ofModel_pack hu).trans (eq_ofModel_pack rfl).symm
  · rw [value, hzero] at hne
    exact absurd rfl hne
  · rw [value, hzero] at hne
    exact absurd rfl hne

/-- The numbers of the value zero are the two zeros. -/
theorem eq_zero_of_value_eq_zero (hx : x.isFinite = true) (h : value x = 0) :
    x = 0.0 ∨ x = -0.0 := by
  rcases exists_of_isFinite hx with ⟨s, hu⟩ | ⟨s, m, e, hc, hu⟩
  · cases s with
    | positive => exact .inl (eq_ofModel_pack hu)
    | negative => exact .inr (eq_ofModel_pack hu)
  · have hpos := hc.value_pos
    rw [value, hu] at h
    cases s with
    | positive => exact absurd h hpos.ne'
    | negative => exact absurd h (neg_neg_of_pos hpos).ne

end SearchSpace.Binary64
