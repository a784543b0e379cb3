import Mathlib.Algebra.Order.Field.Rat
import Mathlib.Tactic.FieldSimp
import Mathlib.Tactic.Positivity
import Mathlib.Tactic.Ring

/-!
# Rounding depends on the value

Rounding to binary64 is given a whole mantissa and an exponent, with the accuracy of the mantissa.
Where the mantissa is the whole part of a ratio, the accuracy is the place of the rest, and
`roundRatio n d e` rounds `n / d · 2 ^ e`. The bits that rounding looks at are those of `ofRatio`,
which shifting carries from one ratio to another (`shiftRight_ofRatio`). So as long as the mantissa
has enough bits, it is only the value that counts: `Rounds u q` says that `u` is the rational `q`
rounded, and there is one such `u` for a `q` (`Rounds.unique`).
-/

namespace SearchSpace.Binary64

open Float.Model
open Float.Model.UnpackedFloat

/-! ## Ratios -/

/-- The bits of a ratio that rounding looks at: its whole part, whether the rest is a half or more,
and whether there is a rest beyond that. -/
def ofRatio (n d : Nat) : ExtendedMantissa :=
  ⟨n / d, decide (d ≤ 2 * (n % d)), decide (2 * (n % d) % d ≠ 0)⟩

/-- The whole part of a ratio with the place of the rest. -/
theorem ofMantissaAndAccuracy_ratio {n d : Nat} (hd : 0 < d) :
    ExtendedMantissa.ofMantissaAndAccuracy (n / d) (accuracyOfFraction (n % d) d) =
      ofRatio n d := by
  have hlt := Nat.mod_lt n hd
  rw [ofRatio, accuracyOfFraction]
  generalize n % d = r at hlt ⊢
  split
  · next hr =>
    subst hr
    simp [ExtendedMantissa.ofMantissaAndAccuracy, hd.ne']
  · next hr =>
    rcases Nat.lt_trichotomy (2 * r) d with h | h | h
    · rw [Nat.compare_eq_lt.2 h, Nat.mod_eq_of_lt h]
      simp [ExtendedMantissa.ofMantissaAndAccuracy, hr, h]
    · rw [Nat.compare_eq_eq.2 h, h, Nat.mod_self]
      simp [ExtendedMantissa.ofMantissaAndAccuracy]
    · rw [Nat.compare_eq_gt.2 h, Nat.mod_eq_sub_mod h.le, Nat.mod_eq_of_lt (by omega)]
      simp [ExtendedMantissa.ofMantissaAndAccuracy, h.le]
      omega

/-- Shifting by one place halves the ratio. -/
theorem shiftRightOne_ofRatio {n d : Nat} (hd : 0 < d) :
    (ofRatio n d).shiftRightOne = ofRatio n (2 * d) := by
  have hlt := Nat.mod_lt n hd
  have hmod : n % (2 * d) = n % d + d * (n / d % 2) := by rw [Nat.mul_comm, Nat.mod_mul]
  have hsticky : 2 * (n % (2 * d)) % (2 * d) = 2 * (n % d) := by
    rw [Nat.mul_mod_mul_left, hmod, Nat.add_mul_mod_self_left, Nat.mod_mod]
  have hround : (n / d % 2 != 0) = decide (2 * d ≤ 2 * (n % (2 * d))) := by
    rw [hmod]
    rcases Nat.mod_two_eq_zero_or_one (n / d) with hbit | hbit <;> rw [hbit]
    · simp
      omega
    · simp
  have hrest : (decide (d ≤ 2 * (n % d)) || decide (2 * (n % d) % d ≠ 0)) =
      decide (2 * (n % d) ≠ 0) := by
    by_cases hle : d ≤ 2 * (n % d)
    · simp [hle]
      omega
    · simp [hle, Nat.mod_eq_of_lt (Nat.not_le.1 hle)]
  rw [ofRatio, ofRatio, ExtendedMantissa.shiftRightOne, hsticky, hround, hrest,
    Nat.div_div_eq_div_mul, Nat.mul_comm d 2]

/-- Shifting halves the ratio as often as there are places. -/
theorem shiftRight_ofRatio {n d : Nat} (hd : 0 < d) (k : Nat) :
    ofRatio n d >>> k = ofRatio n (2 ^ k * d) := by
  induction k with
  | zero => rw [Nat.pow_zero, Nat.one_mul]; rfl
  | succ k ih =>
    show (ofRatio n d >>> k).shiftRightOne = _
    rw [ih, shiftRightOne_ofRatio (by positivity), Nat.pow_succ', Nat.mul_assoc]

/-- A common factor does not count. -/
theorem ofRatio_mul_left {c : Nat} (hc : 0 < c) (n d : Nat) :
    ofRatio (c * n) (c * d) = ofRatio n d := by
  have hdouble : 2 * (c * (n % d)) = c * (2 * (n % d)) := by ring
  rw [ofRatio, ofRatio, Nat.mul_div_mul_left n d hc, Nat.mul_mod_mul_left, hdouble,
    Nat.mul_mod_mul_left]
  simp [Nat.mul_le_mul_left_iff hc, hc.ne']

/-- Equal ratios have the same bits. -/
theorem ofRatio_congr {n d n' d' : Nat} (hd : 0 < d) (hd' : 0 < d') (h : n * d' = n' * d) :
    ofRatio n d = ofRatio n' d' := by
  rw [← ofRatio_mul_left hd' n d, ← ofRatio_mul_left hd n' d', Nat.mul_comm d' n, h,
    Nat.mul_comm n' d, Nat.mul_comm d' d]

/-! ## Rounding a ratio -/

/-- Rounds `n / d · 2 ^ e`, if `n / d` has enough bits. -/
def roundRatio (n d : Nat) (e : Int) : UnpackedFloat :=
  roundWithAccuracy .binary64 .positive (n / d) e (accuracyOfFraction (n % d) d)

/-- The exponent that goes with the place of the first bit: 53 bits are kept, or fewer for the least
numbers. -/
theorem targetExponent_def (place : Int) :
    Format.binary64.targetExponent place = max (place - 53) (-1074) := by
  have hbits : (Format.binary64.mantissaBits : Int) = 53 := by decide
  have hleast : Format.binary64.minExponent = -1074 := by decide
  rw [Format.targetExponent, hbits, hleast]

/-- The exponent to which a mantissa is brought. -/
theorem targetExponent_eq (m : Nat) (e : Int) :
    Format.binary64.targetExponent (totalExponent m e) = max (m.log2 + e - 52) (-1074) := by
  rw [targetExponent_def, totalExponent]
  congr 1
  omega

/-- What rounding does with the bits that it has brought to their exponent: the mantissa is rounded,
and brought to its exponent again if it has become a bit longer. -/
def finish (em : ExtendedMantissa) (e : Int) : UnpackedFloat :=
  let shifted := shiftToTargetExponent .binary64 em.roundedMantissa e .exact
  if h : shifted.1.mantissa = 0 then .zero .positive
  else .finite .positive shifted.1.mantissa shifted.2 (Nat.pos_of_ne_zero h)

/-- A mantissa that stays as it is when it is brought to its exponent again is the result. -/
theorem finish_of_kept {em : ExtendedMantissa} {m : Nat} {e : Int} (hm : 0 < m)
    (h : shiftToTargetExponent .binary64 em.roundedMantissa e .exact = (⟨m, false, false⟩, e)) :
    finish em e = .finite .positive m e hm := by
  have hmade : ∀ shifted : ExtendedMantissa × Int, shifted = (⟨m, false, false⟩, e) →
      (if h : shifted.1.mantissa = 0 then .zero .positive
        else .finite .positive shifted.1.mantissa shifted.2 (Nat.pos_of_ne_zero h)) =
          UnpackedFloat.finite .positive m e hm := by
    rintro _ rfl
    exact dif_neg hm.ne'
  exact hmade _ h

/-- A ratio is brought to its exponent and rounded there. -/
theorem roundRatio_eq {n d : Nat} (hd : 0 < d) {e t : Int} {s : Nat}
    (ht : max ((n / d).log2 + e - 52) (-1074) = t) (hs : e + s = t) :
    roundRatio n d e = finish (ofRatio n (2 ^ s * d)) t := by
  have hshift : shiftToTargetExponent .binary64 (n / d) e (accuracyOfFraction (n % d) d) =
      (ofRatio n (2 ^ s * d), t) := by
    have hamount : (t - e).toNat = s := by omega
    rw [shiftToTargetExponent, targetExponent_eq, ht, shiftToExponent, hamount,
      ofMantissaAndAccuracy_ratio hd, shiftRight_ofRatio hd, hs]
  rw [roundRatio, roundWithAccuracy, hshift]
  rfl

/-! ## The value counts -/

/-- The whole part of a ratio has all the bits that are kept. -/
def IsFine (n d : Nat) (e : Int) : Prop :=
  e ≤ -1074 ∨ 2 ^ 52 ≤ n / d

/-- A fine ratio is not brought to a smaller exponent than its own. -/
theorem IsFine.le_target {n d : Nat} {e : Int} (h : IsFine n d e) :
    e ≤ max (((n / d).log2 : Int) + e - 52) (-1074) := by
  rcases h with h | h
  · exact le_trans h (le_max_right _ _)
  · have hlog : 52 ≤ (n / d).log2 := (Nat.le_log2 (by omega)).2 h
    exact le_trans (by omega) (le_max_left _ _)

/-- A power of two moves the first bit of a ratio. -/
theorem log2_mul_div {n d : Nat} (hd : 0 < d) (h : 0 < n / d) (s : Nat) :
    (2 ^ s * n / d).log2 = (n / d).log2 + s := by
  have hlower : 2 ^ (n / d).log2 * d ≤ n :=
    (Nat.le_div_iff_mul_le hd).1 (Nat.log2_self_le h.ne')
  have hupper : n < 2 ^ ((n / d).log2 + 1) * d :=
    (Nat.div_lt_iff_lt_mul hd).1 Nat.lt_log2_self
  have hle : 2 ^ ((n / d).log2 + s) ≤ 2 ^ s * n / d := by
    rw [Nat.le_div_iff_mul_le hd, Nat.add_comm, Nat.pow_add, Nat.mul_assoc]
    exact Nat.mul_le_mul_left _ hlower
  have hlt : 2 ^ s * n / d < 2 ^ ((n / d).log2 + s + 1) := by
    rw [Nat.div_lt_iff_lt_mul hd, Nat.add_right_comm, Nat.add_comm _ s, Nat.pow_add, Nat.mul_assoc]
    exact Nat.mul_lt_mul_of_pos_left hupper (by positivity)
  have hne : 2 ^ s * n / d ≠ 0 := by
    have hpos : 0 < 2 ^ ((n / d).log2 + s) := by positivity
    omega
  exact (Nat.log2_eq_iff hne).2 ⟨hle, hlt⟩

/-- A ratio with more bits is brought to the same exponent. -/
theorem target_mul_left {n d : Nat} (hd : 0 < d) {e : Int} {s : Nat} (h : IsFine n d (e + s)) :
    max (((2 ^ s * n / d).log2 : Int) + e - 52) (-1074) =
      max (((n / d).log2 : Int) + (e + s) - 52) (-1074) := by
  rcases Nat.eq_zero_or_pos (n / d) with hzero | hpos
  · -- so small a number has the least exponent anyway
    have hleast : e + s ≤ -1074 := h.resolve_right (by omega)
    have hlt : 2 ^ s * n / d < 2 ^ s := by
      rw [Nat.div_lt_iff_lt_mul hd]
      exact Nat.mul_lt_mul_of_pos_left ((Nat.div_eq_zero_iff_lt hd).1 hzero) (by positivity)
    have hlog : (2 ^ s * n / d).log2 ≤ s := by
      by_cases hne : 2 ^ s * n / d = 0
      · rw [hne]
        exact Nat.zero_le s
      · exact ((Nat.log2_lt hne).2 hlt).le
    rw [hzero, max_eq_right (by omega), max_eq_right (by rw [Nat.log2_zero]; omega)]
  · rw [log2_mul_div hd hpos]
    congr 1
    push_cast
    ring

/-- A fine ratio may have more bits. -/
theorem roundRatio_mul_left {n d : Nat} (hd : 0 < d) {e : Int} {s : Nat}
    (h : IsFine n d (e + s)) : roundRatio (2 ^ s * n) d e = roundRatio n d (e + s) := by
  have hle := h.le_target
  have htarget := target_mul_left hd h
  generalize ht : max (((n / d).log2 : Int) + (e + s) - 52) (-1074) = t at hle htarget
  obtain ⟨k, hk⟩ := Int.le.dest hle
  rw [roundRatio_eq hd htarget (s := k + s) (by push_cast; omega), roundRatio_eq hd ht hk]
  congr 1
  refine ofRatio_congr (by positivity) (by positivity) ?_
  ring

/-- Equal ratios are rounded to the same number. -/
theorem roundRatio_congr {n d n' d' : Nat} (hd : 0 < d) (hd' : 0 < d') {e : Int}
    (hfine : IsFine n d e) (h : n * d' = n' * d) : roundRatio n d e = roundRatio n' d' e := by
  have hwhole : n / d = n' / d' := congrArg ExtendedMantissa.mantissa (ofRatio_congr hd hd' h)
  obtain ⟨s, hs⟩ := Int.le.dest hfine.le_target
  rw [roundRatio_eq hd rfl hs, roundRatio_eq hd' (by rw [← hwhole]) hs]
  congr 1
  refine ofRatio_congr (by positivity) (by positivity) ?_
  rw [Nat.mul_left_comm, h]
  ring

/-- A number is a rational rounded. -/
def Rounds (u : UnpackedFloat) (q : ℚ) : Prop :=
  ∃ (n d : Nat) (e : Int), 0 < d ∧ IsFine n d e ∧ q = n / d * 2 ^ e ∧ u = roundRatio n d e

/-- A rational is rounded to one number. -/
theorem Rounds.unique {u v : UnpackedFloat} {q : ℚ} (hu : Rounds u q) (hv : Rounds v q) :
    u = v := by
  obtain ⟨n, d, e, hd, hfine, hq, rfl⟩ := hu
  obtain ⟨n', d', e', hd', hfine', hq', rfl⟩ := hv
  wlog hle : e ≤ e' generalizing n d e n' d' e'
  · exact (this n' d' e' hd' hfine' hq' n d e hd hfine hq (by omega)).symm
  obtain ⟨s, rfl⟩ := Int.le.dest hle
  rw [← roundRatio_mul_left hd' hfine']
  refine roundRatio_congr hd hd' hfine ?_
  have hdq : (d : ℚ) ≠ 0 := by positivity
  have hdq' : (d' : ℚ) ≠ 0 := by positivity
  rw [hq, zpow_add₀ (by norm_num), zpow_natCast] at hq'
  field_simp at hq'
  have hnat : n * d' = d * n' * 2 ^ s := by exact_mod_cast hq'
  rw [hnat]
  ring

/-! ## Computed numbers -/

/-- A number has as many bits more as it is shifted by. -/
theorem le_shiftLeft {m s k : Nat} (hm : 0 < m) (h : k ≤ m.log2 + s) : 2 ^ k ≤ m <<< s := by
  calc 2 ^ k ≤ 2 ^ (m.log2 + s) := Nat.pow_le_pow_right (by decide) h
    _ = 2 ^ m.log2 * 2 ^ s := Nat.pow_add _ _ _
    _ ≤ m * 2 ^ s := Nat.mul_le_mul_right _ (Nat.log2_self_le hm.ne')
    _ = m <<< s := (Nat.shiftLeft_eq m s).symm

/-- A whole multiple of a power of two is rounded. -/
theorem rounds_round {m : Nat} {e : Int} (hm : 0 < m) :
    Rounds (UnpackedFloat.round .binary64 .positive m e) (m * 2 ^ e) := by
  generalize ht : max ((m.log2 : Int) + e - 52) (-1074) = t
  generalize hs : (e - t).toNat = s
  have hfine : IsFine (m <<< s) 1 (e - s) := by
    rw [IsFine, Nat.div_one]
    rcases le_or_gt (e - s) (-1074) with hleast | hleast
    · exact .inl hleast
    · exact .inr (le_shiftLeft hm (by omega))
  refine ⟨m <<< s, 1, e - s, Nat.one_pos, hfine, ?_, ?_⟩
  · rw [Nat.shiftLeft_eq, zpow_sub₀ (by norm_num), zpow_natCast]
    push_cast
    field_simp
  · rw [UnpackedFloat.round, targetExponent_eq, ht, decreaseExponent, hs, roundRatio, Nat.div_one,
      Nat.mod_one]
    rfl

/-- A product with enough bits is rounded. -/
theorem rounds_mul {m m' : Nat} {e e' : Int} (hm : 0 < m) (hm' : 0 < m')
    (h : 2 ^ 52 ≤ m * m') :
    Rounds (mul .binary64 (.finite .positive m e hm) (.finite .positive m' e' hm'))
      (m * 2 ^ e * (m' * 2 ^ e')) := by
  refine ⟨m * m', 1, e + e', Nat.one_pos, .inr (by rwa [Nat.div_one]), ?_, ?_⟩
  · rw [zpow_add₀ (by norm_num)]
    push_cast
    ring
  · rw [roundRatio, Nat.div_one, Nat.mod_one]
    rfl

/-- A quotient is rounded. -/
theorem rounds_div {m m' : Nat} {e e' : Int} (hm : 0 < m) (hm' : 0 < m') :
    Rounds (div .binary64 (.finite .positive m e hm) (.finite .positive m' e' hm'))
      (m * 2 ^ e / (m' * 2 ^ e')) := by
  generalize ht : min (e - e') (Format.binary64.targetExponent
    (totalExponent m e - totalExponent m' e')) = t
  obtain ⟨s, hs⟩ := Int.le.dest (ht ▸ min_le_left _ _ : t ≤ e - e')
  have hshift : (e - e' - t).toNat = s := by omega
  have hfine : IsFine (m <<< s) m' t := by
    rcases le_or_gt t (-1074) with hleast | hleast
    · exact .inl hleast
    · -- the quotient has 53 bits, since its target is above the least one
      have htarget : t ≤ max ((m.log2 : Int) + e - m'.log2 - e' - 53) (-1074) := by
        have hle := ht ▸ min_le_right (e - e') _
        rw [targetExponent_def, totalExponent, totalExponent] at hle
        omega
      have hlog : m'.log2 + 1 + 52 ≤ m.log2 + s := by omega
      refine .inr ((Nat.le_div_iff_mul_le hm').2 ?_)
      calc 2 ^ 52 * m' ≤ 2 ^ 52 * 2 ^ (m'.log2 + 1) :=
            Nat.mul_le_mul_left _ Nat.lt_log2_self.le
        _ = 2 ^ (m'.log2 + 1 + 52) := by rw [← Nat.pow_add, Nat.add_comm]
        _ ≤ m <<< s := le_shiftLeft hm hlog
  refine ⟨m <<< s, m', t, hm', hfine, ?_, ?_⟩
  · have hvalue : (m : ℚ) * 2 ^ e / (m' * 2 ^ e') = m / m' * 2 ^ (t + s) := by
      rw [hs, zpow_sub₀ (by norm_num)]
      field_simp
    rw [hvalue, Nat.shiftLeft_eq, zpow_add₀ (by norm_num), zpow_natCast]
    push_cast
    ring
  · have hcore : divCore .binary64 m e m' e' =
        ((m <<< s) / m', t, accuracyOfFraction ((m <<< s) % m') m') := by
      rw [divCore, ht, hshift]
    have hdiv : ∀ core, divCore .binary64 m e m' e' = core →
        div .binary64 (.finite .positive m e hm) (.finite .positive m' e' hm') =
          roundWithAccuracy .binary64 .positive core.1 core.2.1 core.2.2 := by
      rintro _ rfl
      rfl
    rw [hdiv _ hcore]
    rfl

/-! ## Canonical numbers -/

/-- A mantissa and an exponent of the form in which finite numbers are kept: the mantissa has 53
bits, or the exponent is the least. -/
structure IsCanonical (m : Nat) (e : Int) : Prop where
  pos : 0 < m
  lt : m < 2 ^ 53
  least_le : -1074 ≤ e
  le_greatest : e ≤ 971
  full : e = -1074 ∨ 2 ^ 52 ≤ m

/-- A canonical number has its exponent already. -/
theorem IsCanonical.target_eq {m : Nat} {e : Int} (h : IsCanonical m e) :
    max ((m.log2 : Int) + e - 52) (-1074) = e := by
  have hlog : m.log2 < 53 := (Nat.log2_lt h.pos.ne').2 h.lt
  rcases h.full with hleast | hfull
  · rw [hleast]
    omega
  · have hlog' : 52 ≤ m.log2 := (Nat.le_log2 h.pos.ne').2 hfull
    have hleast := h.least_le
    omega

/-- A canonical number is rounded already. -/
theorem IsCanonical.rounds {m : Nat} {e : Int} (h : IsCanonical m e) :
    Rounds (.finite .positive m e h.pos) (m * 2 ^ e) := by
  refine ⟨m, 1, e, Nat.one_pos, ?_, by rw [Nat.cast_one, div_one], ?_⟩
  · rw [IsFine, Nat.div_one]
    exact h.full.imp (fun heq => heq.le) id
  · have hkept : shiftToTargetExponent .binary64 m e .exact = (⟨m, false, false⟩, e) := by
      rw [shiftToTargetExponent, targetExponent_eq, h.target_eq, shiftToExponent, sub_self]
      exact Prod.ext rfl (add_zero e)
    have hround : roundRatio m 1 e = finish ⟨m, false, false⟩ e := by
      have hexact : accuracyOfFraction 0 1 = .exact := rfl
      rw [roundRatio, Nat.div_one, Nat.mod_one, hexact, roundWithAccuracy, hkept]
      rfl
    have hrounded : ExtendedMantissa.roundedMantissa ⟨m, false, false⟩ = m := rfl
    rw [hround, finish_of_kept h.pos (by rw [hrounded, hkept])]

end SearchSpace.Binary64
