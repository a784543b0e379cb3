import SearchSpace.Proofs.Binary64.Value
import SearchSpace.Proofs.Binary64.Nearest

/-!
# Rounding is faithful

`Approximates x q` says that the finite number `x` stands for the rational `q` up to rounding: no
number lies strictly between them, and the error is at most `2 ^ -53` of `q`, or `2 ^ -1075` where
`q` is very small. A rational below `2 ^ 1023` that is rounded is approximated so, and with it the
sums, differences, products and quotients of finite numbers.
-/

namespace SearchSpace.Binary64

open Float.Model
open Float.Model.UnpackedFloat

variable {x y : Float} {q : ℚ}

/-- A number stands for a rational up to rounding. -/
structure Approximates (x : Float) (q : ℚ) : Prop where
  isFinite : x.isFinite = true
  /-- No number lies strictly between the rational and a number below it. -/
  le_value : ∀ y : Float, y.isFinite = true → value y ≤ q → value y ≤ value x
  /-- No number lies strictly between the rational and a number above it. -/
  value_le : ∀ y : Float, y.isFinite = true → q ≤ value y → value x ≤ value y
  error_le : |value x - q| ≤ max (2 ^ (-53 : ℤ) * |q|) (2 ^ (-1075 : ℤ))

/-- A finite number stands for its value. -/
theorem approximates_self (h : x.isFinite = true) : Approximates x (value x) where
  isFinite := h
  le_value _ _ hy := hy
  value_le _ _ hy := hy
  error_le := by
    rw [sub_self, abs_zero]
    exact le_max_of_le_right (by positivity)

/-- What stands for the value of a number has that value. -/
theorem Approximates.value_eq (h : Approximates x (value y)) (hy : y.isFinite = true) :
    value x = value y :=
  le_antisymm (h.value_le y hy le_rfl) (h.le_value y hy le_rfl)

/-! ## Rounded mantissas -/

/-- A mantissa is rounded down, or up to the next whole number, whichever is not farther. -/
theorem roundedMantissa_ofRatio (n : Nat) {d : Nat} (hd : 0 < d) :
    (ofRatio n d).roundedMantissa = n / d ∧ 2 * (n % d) ≤ d ∨
      (ofRatio n d).roundedMantissa = n / d + 1 ∧ d ≤ 2 * (n % d) := by
  have hlt := Nat.mod_lt n hd
  rw [ofRatio, ExtendedMantissa.roundedMantissa]
  by_cases hround : d ≤ 2 * (n % d)
  · by_cases hsticky : 2 * (n % d) % d ≠ 0
    · rw [decide_eq_true hround, decide_eq_true hsticky]
      exact .inr ⟨rfl, hround⟩
    · have htie : 2 * (n % d) = d := by
        have hsub : 2 * (n % d) - d < d := by omega
        rw [Nat.mod_eq_sub_mod hround, Nat.mod_eq_of_lt hsub] at hsticky
        omega
      rw [decide_eq_true hround, decide_eq_false hsticky]
      rcases Nat.mod_two_eq_zero_or_one (n / d) with heven | hodd
      · exact .inl ⟨congrArg (n / d + ·) heven, htie.le⟩
      · exact .inr ⟨congrArg (n / d + ·) hodd, htie.ge⟩
  · refine .inl ⟨?_, (Nat.not_le.1 hround).le⟩
    rw [decide_eq_false hround]
    cases decide (2 * (n % d) % d ≠ 0) <;> rfl

/-- A ratio is its whole part and the rest. -/
theorem ratio_eq (n : Nat) {d : Nat} (hd : 0 < d) :
    (n : ℚ) / d = (n / d : Nat) + (n % d : Nat) / d := by
  have hdq : (0 : ℚ) < d := by exact_mod_cast hd
  have hdiv : (d : ℚ) * (n / d : Nat) + (n % d : Nat) = n := by exact_mod_cast Nat.div_add_mod n d
  rw [← hdiv]
  field_simp

/-- The whole part of a ratio or the number after it, whichever is not farther, is at most a half
away. -/
theorem abs_sub_ratio_le {n d k : Nat} (hd : 0 < d)
    (h : k = n / d ∧ 2 * (n % d) ≤ d ∨ k = n / d + 1 ∧ d ≤ 2 * (n % d)) :
    |(k : ℚ) - n / d| ≤ 1 / 2 := by
  have hdq : (0 : ℚ) < d := by exact_mod_cast hd
  rw [ratio_eq n hd, abs_le]
  rcases h with ⟨rfl, hr⟩ | ⟨rfl, hr⟩
  · have hnonneg : (0 : ℚ) ≤ (n % d : Nat) / d := by positivity
    have hhalf : ((n % d : Nat) : ℚ) / d ≤ 1 / 2 := by
      rw [div_le_div_iff₀ hdq (by norm_num)]
      exact_mod_cast (by omega : n % d * 2 ≤ 1 * d)
    constructor <;> linarith
  · have hlt : ((n % d : Nat) : ℚ) / d < 1 := (div_lt_one hdq).2 (by exact_mod_cast Nat.mod_lt n hd)
    have hhalf : (1 : ℚ) / 2 ≤ (n % d : Nat) / d := by
      rw [div_le_div_iff₀ (by norm_num) hdq]
      exact_mod_cast (by omega : 1 * d ≤ n % d * 2)
    push_cast
    constructor <;> linarith

/-- A whole number that is at most a half away from a rational lies on the same side of the other
whole numbers. -/
theorem whole_of_abs_sub_le {k : Int} {r : ℚ} (h : |(k : ℚ) - r| ≤ 1 / 2) (j : Int) :
    ((j : ℚ) ≤ r → j ≤ k) ∧ (r ≤ j → k ≤ j) := by
  obtain ⟨hbelow, habove⟩ := abs_le.1 h
  constructor
  · intro hj
    have hlt : (j : ℚ) < (k + 1 : Int) := by
      push_cast
      linarith
    exact Int.lt_add_one_iff.1 (by exact_mod_cast hlt)
  · intro hj
    have hlt : (k : ℚ) < (j + 1 : Int) := by
      push_cast
      linarith
    exact Int.lt_add_one_iff.1 (by exact_mod_cast hlt)

/-- A mantissa that has no more bits than are kept is finished. -/
theorem shiftToTargetExponent_of_lt {m : Nat} {e : Int} (hm : m < 2 ^ 53) (he : -1074 ≤ e) :
    shiftToTargetExponent .binary64 m e .exact = (⟨m, false, false⟩, e) := by
  have hlog : m.log2 ≤ 52 := by
    rcases Nat.eq_zero_or_pos m with rfl | hpos
    · decide
    · exact Nat.le_of_lt_succ ((Nat.log2_lt hpos.ne').2 hm)
  have hamount : (max ((m.log2 : Int) + e - 52) (-1074) - e).toNat = 0 := by omega
  rw [shiftToTargetExponent, targetExponent_eq, shiftToExponent, hamount]
  exact Prod.ext rfl (add_zero e)

/-- A mantissa that rounding has made longer is finished with the next exponent. -/
theorem shiftToTargetExponent_of_eq {e : Int} (he : -1074 ≤ e) :
    shiftToTargetExponent .binary64 (2 ^ 53) e .exact = (⟨2 ^ 52, false, false⟩, e + 1) := by
  have hlog : (2 ^ 53).log2 = 53 := Nat.log2_two_pow
  have hamount : (max (((2 ^ 53).log2 : Int) + e - 52) (-1074) - e).toNat = 1 := by omega
  rw [shiftToTargetExponent, targetExponent_eq, shiftToExponent, hamount]
  rfl

/-- What is finished has the rounded mantissa as its value. It is canonical unless its exponent is too
large. -/
theorem finish_spec {em : ExtendedMantissa} {t : Int} (hm : em.roundedMantissa ≤ 2 ^ 53)
    (ht : -1074 ≤ t) (hfull : t = -1074 ∨ 2 ^ 52 ≤ em.roundedMantissa) :
    (em.roundedMantissa = 0 ∧ finish em t = .zero .positive) ∨
      ∃ m e, ∃ hpos : 0 < m, finish em t = .finite .positive m e hpos ∧
        (m : ℚ) * 2 ^ e = em.roundedMantissa * 2 ^ t ∧
        (IsCanonical m e ∨ 972 ≤ e ∧ 2 ^ 52 ≤ m) := by
  rcases hm.lt_or_eq with hlt | heq
  · have hshift := shiftToTargetExponent_of_lt hlt ht
    by_cases hzero : em.roundedMantissa = 0
    · left
      refine ⟨hzero, ?_⟩
      rw [finish]
      simp only [hshift]
      exact dif_pos hzero
    · right
      refine ⟨em.roundedMantissa, t, Nat.pos_of_ne_zero hzero, ?_, rfl, ?_⟩
      · rw [finish]
        simp only [hshift]
        exact dif_neg hzero
      · by_cases hlarge : 972 ≤ t
        · exact .inr ⟨hlarge, hfull.resolve_left (by omega)⟩
        · exact .inl ⟨Nat.pos_of_ne_zero hzero, hlt, ht, by omega, hfull⟩
  · right
    have hshift := shiftToTargetExponent_of_eq ht
    refine ⟨2 ^ 52, t + 1, by decide, ?_, ?_, ?_⟩
    · simp only [finish, heq, hshift]
      rfl
    · rw [heq, zpow_add₀ (by norm_num)]
      push_cast
      ring
    · by_cases hlarge : 972 ≤ t + 1
      · exact .inr ⟨hlarge, le_rfl⟩
      · exact .inl ⟨by decide, by decide, by omega, by omega, .inr le_rfl⟩

/-- A ratio and an exponent lie within the 53 bits that go with their target. -/
theorem target_bounds {n d : Nat} (hd : 0 < d) {e t : Int}
    (hfine : IsFine n d e) (ht : max (((n / d).log2 : Int) + e - 52) (-1074) = t) :
    (n : ℚ) / d * 2 ^ e < 2 ^ (t + 53) ∧ (t = -1074 ∨ (2 : ℚ) ^ (t + 52) ≤ n / d * 2 ^ e) := by
  have hdq : (0 : ℚ) < d := by exact_mod_cast hd
  constructor
  · have hlt : (n : ℚ) / d < 2 ^ (((n / d).log2 : Int) + 1) := by
      rw [div_lt_iff₀ hdq]
      have hnat := (Nat.div_lt_iff_lt_mul hd).1 (Nat.lt_log2_self (n := n / d))
      exact_mod_cast hnat
    calc (n : ℚ) / d * 2 ^ e < 2 ^ (((n / d).log2 : Int) + 1) * 2 ^ e := by gcongr
      _ = 2 ^ (((n / d).log2 : Int) + 1 + e) := (zpow_add₀ (by norm_num) _ _).symm
      _ ≤ 2 ^ (t + 53) := zpow_le_zpow_right₀ (by norm_num) (by omega)
  · rcases Nat.eq_zero_or_pos (n / d) with hzero | hpos
    · left
      have hleast : e ≤ -1074 := hfine.resolve_right (by omega)
      rw [hzero, Nat.log2_zero] at ht
      omega
    · rcases eq_or_ne t (-1074) with hleast | hleast
      · exact .inl hleast
      · right
        have hle : (2 : ℚ) ^ ((n / d).log2 : Int) ≤ n / d := by
          rw [le_div_iff₀ hdq]
          have hnat := (Nat.le_div_iff_mul_le hd).1 (Nat.log2_self_le hpos.ne')
          exact_mod_cast hnat
        have heq : t + 52 = ((n / d).log2 : Int) + e := by omega
        rw [heq, zpow_add₀ (by norm_num)]
        gcongr

/-- A rational is rounded to a nearest multiple of a power of two, to the 53 bits of which it
belongs. The result is canonical unless its exponent is too large. -/
theorem Rounds.spec {u : UnpackedFloat} (h : Rounds u q) :
    ∃ (k : Nat) (t : Int), -1074 ≤ t ∧ (t = -1074 ∨ (2 : ℚ) ^ (t + 52) ≤ q) ∧
      |(k : ℚ) * 2 ^ t - q| ≤ 2 ^ t / 2 ∧
      ((k = 0 ∧ u = .zero .positive) ∨
        ∃ m e, ∃ hpos : 0 < m, u = .finite .positive m e hpos ∧ (m : ℚ) * 2 ^ e = k * 2 ^ t ∧
          (IsCanonical m e ∨ 972 ≤ e ∧ 2 ^ 52 ≤ m)) := by
  obtain ⟨n, d, e, hd, hfine, rfl, rfl⟩ := h
  generalize ht : max (((n / d).log2 : Int) + e - 52) (-1074) = t
  obtain ⟨s, hs⟩ := Int.le.dest (ht ▸ hfine.le_target)
  obtain ⟨hupper, hlower⟩ := target_bounds hd hfine ht
  have hds : 0 < 2 ^ s * d := by positivity
  have hnear := abs_sub_ratio_le hds (roundedMantissa_ofRatio n hds)
  have hscale : (n : ℚ) / d * 2 ^ e = n / (2 ^ s * d : Nat) * 2 ^ t := by
    rw [← hs, zpow_add₀ (by norm_num), zpow_natCast]
    push_cast
    field_simp
  rw [roundRatio_eq hd ht hs]
  generalize hk : (ofRatio n (2 ^ s * d)).roundedMantissa = k at hnear
  generalize (n : ℚ) / (2 ^ s * d : Nat) = r at hscale hnear
  rw [hscale] at hupper hlower ⊢
  have hpow : (0 : ℚ) < 2 ^ t := by positivity
  have htop : r < 2 ^ 53 := by
    rw [add_comm, zpow_add₀ (by norm_num)] at hupper
    exact_mod_cast (mul_lt_mul_iff_left₀ hpow).1 hupper
  have hwhole := whole_of_abs_sub_le (k := k) (by rwa [Int.cast_natCast])
  have hbits : k ≤ 2 ^ 53 := by
    have hint := (hwhole (2 ^ 53 : Nat)).2 (by exact_mod_cast htop.le)
    exact_mod_cast hint
  have hleast : -1074 ≤ t := ht ▸ le_max_right _ _
  have hfull : t = -1074 ∨ 2 ^ 52 ≤ k := by
    refine hlower.imp id fun hlower => ?_
    rw [add_comm, zpow_add₀ (by norm_num)] at hlower
    have hbottom : (2 : ℚ) ^ 52 ≤ r := by exact_mod_cast (mul_le_mul_iff_left₀ hpow).1 hlower
    have hint := (hwhole (2 ^ 52 : Nat)).1 (by exact_mod_cast hbottom)
    exact_mod_cast hint
  refine ⟨k, t, hleast, hlower, ?_, ?_⟩
  · rw [← sub_mul, abs_mul, abs_of_pos hpow]
    calc |(k : ℚ) - r| * 2 ^ t ≤ 1 / 2 * 2 ^ t := by gcongr
      _ = 2 ^ t / 2 := by ring
  · rw [← hk] at hbits hfull ⊢
    exact finish_spec hbits hleast hfull

/-- What is rounded to too large an exponent is no less than this. -/
theorem le_of_large {k m : Nat} {e t : Int} (hlower : t = -1074 ∨ (2 : ℚ) ^ (t + 52) ≤ q)
    (hnear : |(k : ℚ) * 2 ^ t - q| ≤ 2 ^ t / 2) (hvalue : (m : ℚ) * 2 ^ e = k * 2 ^ t)
    (he : 972 ≤ e) (hm : 2 ^ 52 ≤ m) : (2 : ℚ) ^ (1023 : ℤ) ≤ q := by
  have hlarge : 2 * (2 : ℚ) ^ (1023 : ℤ) ≤ k * 2 ^ t := by
    have hmq : (2 : ℚ) ^ (52 : ℤ) ≤ m := by exact_mod_cast hm
    calc 2 * (2 : ℚ) ^ (1023 : ℤ) = 2 ^ (1 + 1023 : ℤ) := (zpow_one_add₀ (by norm_num) _).symm
      _ ≤ 2 ^ (52 + e) := zpow_le_zpow_right₀ (by norm_num) (by omega)
      _ = 2 ^ (52 : ℤ) * 2 ^ e := zpow_add₀ (by norm_num) _ _
      _ ≤ m * 2 ^ e := by gcongr
      _ = k * 2 ^ t := hvalue
  have hunit : (2 : ℚ) ^ t ≤ 2 ^ (1023 : ℤ) ∨ (2 : ℚ) ^ t ≤ q := by
    rcases hlower with rfl | hlower
    · exact .inl (zpow_le_zpow_right₀ (by norm_num) (by norm_num))
    · exact .inr ((zpow_le_zpow_right₀ (by norm_num) (by omega)).trans hlower)
  have hclose := (abs_le.1 hnear).2
  generalize (2 : ℚ) ^ (1023 : ℤ) = bound at hlarge hunit ⊢
  have hpos : (0 : ℚ) < 2 ^ t := by positivity
  rcases hunit with hunit | hunit <;> linarith

/-! ## Rounded numbers -/

/-- A number is a multiple of a power of two, or less than what has 53 bits there. -/
theorem exists_multiple_or_lt (hy : y.isFinite = true) (t : Int) :
    (∃ j : Int, value y = j * 2 ^ t) ∨ t ≠ -1074 ∧ |value y| < 2 ^ (t + 52) := by
  rcases exists_of_isFinite hy with ⟨s, hu⟩ | ⟨s, m, e, hc, hu⟩
  · left
    refine ⟨0, ?_⟩
    rw [value, hu, Int.cast_zero, zero_mul]
    rfl
  · rcases le_or_gt t e with hle | hlt
    · left
      obtain ⟨i, rfl⟩ := Int.le.dest hle
      cases s with
      | positive =>
        refine ⟨m * 2 ^ i, ?_⟩
        rw [value, hu, unpackedValue, signed, zpow_add₀ (by norm_num), zpow_natCast]
        push_cast
        ring
      | negative =>
        refine ⟨-(m * 2 ^ i), ?_⟩
        rw [value, hu, unpackedValue, signed, zpow_add₀ (by norm_num), zpow_natCast]
        push_cast
        ring
    · right
      have hleast := hc.least_le
      refine ⟨by omega, ?_⟩
      have habs : |value y| = m * 2 ^ e := by
        rw [value, hu, unpackedValue]
        cases s with
        | positive => exact abs_of_pos hc.value_pos
        | negative => exact (abs_neg _).trans (abs_of_pos hc.value_pos)
      have hm : (m : ℚ) < 2 ^ (53 : ℤ) := by exact_mod_cast hc.lt
      calc |value y| = m * 2 ^ e := habs
        _ < 2 ^ (53 : ℤ) * 2 ^ e := by gcongr
        _ = 2 ^ (53 + e) := (zpow_add₀ (by norm_num) _ _).symm
        _ ≤ 2 ^ (t + 52) := zpow_le_zpow_right₀ (by norm_num) (by omega)

/-- A canonical form is packed to a number that it is unpacked from. -/
theorem unpack_ofModel_pack (s : Sign) {m : Nat} {e : Int} (h : IsCanonical m e) :
    (Float.ofModel (.pack (.finite s m e h.pos))).toModel.unpack = .finite s m e h.pos :=
  unpack_pack s h

/-- What a number with a canonical form stands for. -/
theorem value_ofModel_pack {s : Sign} {m : Nat} {e : Int} {hm : 0 < m} (h : IsCanonical m e)
    (hx : x = .ofModel (.pack (.finite s m e hm))) :
    x.isFinite = true ∧ value x = signed s (m * 2 ^ e) := by
  have hunpack := unpack_ofModel_pack s h
  rw [hx]
  exact ⟨isFinite_of_unpack hunpack, value_of_unpack hunpack⟩

/-- What is rounded to a positive number is not negative. -/
theorem Rounds.nonneg {u : UnpackedFloat} (h : Rounds u q) : 0 ≤ q := by
  obtain ⟨n, d, e, hd, -, rfl, -⟩ := h
  positivity

/-- A nearest multiple of a power of two, to the 53 bits of which a rational belongs, is what the
rational is rounded to. -/
theorem approximates_of_nearest (hnonneg : 0 ≤ q) {k : Nat} {t : Int}
    (hlower : t = -1074 ∨ (2 : ℚ) ^ (t + 52) ≤ q) (hnear : |(k : ℚ) * 2 ^ t - q| ≤ 2 ^ t / 2)
    (hfinite : x.isFinite = true) (hvalue : value x = k * 2 ^ t) : Approximates x q := by
  have hpow : (0 : ℚ) < 2 ^ t := by positivity
  -- the multiples of the power on either side
  have hsteps : |((k : Int) : ℚ) - q / 2 ^ t| ≤ 1 / 2 := by
    rw [← mul_le_mul_iff_left₀ hpow, ← abs_of_pos hpow, ← abs_mul, abs_of_pos hpow, sub_mul,
      div_mul_cancel₀ _ hpow.ne', Int.cast_natCast]
    exact hnear.trans_eq (by ring)
  have hbelow : ∀ j : Int, j * 2 ^ t ≤ q → (j : ℚ) * 2 ^ t ≤ k * 2 ^ t := by
    intro j hj
    have hle : (j : ℚ) ≤ k :=
      by exact_mod_cast (whole_of_abs_sub_le hsteps j).1 ((le_div_iff₀ hpow).2 hj)
    gcongr
  have habove : ∀ j : Int, q ≤ j * 2 ^ t → (k : ℚ) * 2 ^ t ≤ j * 2 ^ t := by
    intro j hj
    have hle : (k : ℚ) ≤ j :=
      by exact_mod_cast (whole_of_abs_sub_le hsteps j).2 ((div_le_iff₀ hpow).2 hj)
    gcongr
  refine ⟨hfinite, fun y hy hyq => ?_, fun y hy hqy => ?_, ?_⟩
  · rw [hvalue]
    rcases exists_multiple_or_lt hy t with ⟨j, hj⟩ | ⟨hne, hlt⟩
    · rw [hj] at hyq ⊢
      exact hbelow j hyq
    · have hbottom := hlower.resolve_left hne
      rw [add_comm, zpow_add₀ (by norm_num)] at hbottom hlt
      have hle := hbelow (2 ^ 52) (by exact_mod_cast hbottom)
      have hlt' := (abs_lt.1 hlt).2
      push_cast at hle
      exact_mod_cast hlt'.le.trans hle
  · rw [hvalue]
    rcases exists_multiple_or_lt hy t with ⟨j, hj⟩ | ⟨hne, hlt⟩
    · rw [hj] at hqy ⊢
      exact habove j hqy
    · exact absurd ((hlower.resolve_left hne).trans hqy) (not_le.2 (abs_lt.1 hlt).2)
  · rw [hvalue, abs_of_nonneg hnonneg]
    refine hnear.trans ?_
    rcases hlower with rfl | hlower
    · refine le_max_of_le_right (le_of_eq ?_)
      rw [div_eq_mul_inv, ← zpow_sub_one₀ (by norm_num)]
      rfl
    · refine le_max_of_le_left ?_
      calc (2 : ℚ) ^ t / 2 = 2 ^ (-53 : ℤ) * 2 ^ (t + 52) := by
            rw [← zpow_add₀ (by norm_num), div_eq_mul_inv, ← zpow_sub_one₀ (by norm_num)]
            congr 1
            ring
        _ ≤ 2 ^ (-53 : ℤ) * q := by gcongr

/-- A rational that is rounded is approximated, unless it is large and becomes infinite. What is
approximated is unpacked as it is packed. -/
theorem Rounds.approximates_or {u : UnpackedFloat} (h : Rounds u q) :
    Approximates (.ofModel (.pack u)) q ∧ (Float.ofModel (.pack u)).toModel.unpack = u ∨
      (2 : ℚ) ^ (1023 : ℤ) ≤ q ∧
        (Float.ofModel (.pack u)).toModel.unpack = .infinity .positive := by
  obtain ⟨k, t, -, hlower, hnear, ⟨rfl, rfl⟩ | ⟨m, e, hpos, rfl, hm, hc | ⟨he, hfull⟩⟩⟩ := h.spec
  · exact .inl ⟨approximates_of_nearest h.nonneg hlower hnear rfl (by rw [Nat.cast_zero, zero_mul]; rfl),
      rfl⟩
  · have hunpack := unpack_ofModel_pack .positive hc
    exact .inl ⟨approximates_of_nearest h.nonneg hlower hnear (isFinite_of_unpack hunpack)
      ((value_of_unpack hunpack).trans hm), hunpack⟩
  · refine .inr ⟨le_of_large hlower hnear hm he hfull, ?_⟩
    have hinfinite : UnpackedFloat.pack .binary64 (.finite .positive m e hpos) =
        packedInfinity .binary64 .positive := by
      rw [pack_finite, if_pos (by omega)]
    show UnpackedFloat.unpack .binary64 (UnpackedFloat.pack .binary64 (.finite .positive m e hpos)) = _
    rw [hinfinite]
    rfl

/-- A rational that is rounded is approximated, if it is not too large. -/
theorem Rounds.approximates {u : UnpackedFloat} (h : Rounds u q) (hq : q < 2 ^ (1023 : ℤ)) :
    Approximates (.ofModel (.pack u)) q :=
  (h.approximates_or.resolve_right fun hlarge => hq.not_ge hlarge.1).1

/-- A number that stands for no more than a rational is at most what this is rounded to, which may
be infinite. -/
theorem Rounds.le_of_value_le {u : UnpackedFloat} (h : Rounds u q) (hy : y.isFinite = true)
    (hyq : value y ≤ q) : y ≤ .ofModel (.pack u) := by
  rcases h.approximates_or with ⟨hround, -⟩ | ⟨-, hinfinite⟩
  · exact (le_iff_value hy hround.isFinite).2 (hround.le_value y hy hyq)
  · exact le_of_infinity hy hinfinite

end SearchSpace.Binary64
