import SearchSpace.Integer
import SearchSpace.Proofs.Binary64.Arithmetic

/-!
# Whole numbers are exact

A finite number has at most 53 bits, and so does a whole number next to it. What `floor` gives is
therefore the floor of what the number stands for (`value_floor`), what `round` gives of a number
near a whole one is that one (`value_round`), and a whole number between the bounds of the 64-bit
integers is truncated to itself (`toInt_truncate`). Beyond these bounds it is clamped to the nearer
one, from which it is not got back (`beq_ofInt64_truncate`).
-/

namespace SearchSpace.Binary64

open Float.Model
open Float.Model.UnpackedFloat

variable {x : Float}

/-! ## Quotients -/

/-- A quotient toward zero is the whole part. -/
theorem quotient_towardZero (n : Nat) {d : Nat} (hd : 0 < d) :
    (Rounding.towardZero.quotient n d : ℚ) ≤ n / d ∧
      (n : ℚ) / d < Rounding.towardZero.quotient n d + 1 := by
  have hdq : (0 : ℚ) < d := by exact_mod_cast hd
  have hlt : ((n % d : Nat) : ℚ) / d < 1 := (div_lt_one hdq).2 (by exact_mod_cast Nat.mod_lt n hd)
  have hnonneg : (0 : ℚ) ≤ (n % d : Nat) / d := by positivity
  rw [ratio_eq n hd]
  simp only [Rounding.quotient]
  constructor <;> linarith

/-- A quotient away from zero is the next whole number above, unless there is no rest. -/
theorem quotient_awayFromZero (n : Nat) {d : Nat} (hd : 0 < d) :
    (n : ℚ) / d ≤ Rounding.awayFromZero.quotient n d ∧
      (Rounding.awayFromZero.quotient n d : ℚ) < n / d + 1 := by
  have hdq : (0 : ℚ) < d := by exact_mod_cast hd
  have hlt : ((n % d : Nat) : ℚ) / d < 1 := (div_lt_one hdq).2 (by exact_mod_cast Nat.mod_lt n hd)
  rw [ratio_eq n hd]
  simp only [Rounding.quotient]
  split
  · next hzero =>
    rw [hzero, Nat.cast_zero, zero_div]
    constructor <;> linarith
  · next hrest =>
    have hpos : (0 : ℚ) < (n % d : Nat) / d := div_pos (by exact_mod_cast Nat.pos_of_ne_zero hrest) hdq
    push_cast
    constructor <;> linarith

/-- A quotient with halves away from zero is a nearest whole number. -/
theorem quotient_halfAway (n : Nat) {d : Nat} (hd : 0 < d) :
    |(Rounding.halfAway.quotient n d : ℚ) - n / d| ≤ 1 / 2 := by
  refine abs_sub_ratio_le hd ?_
  simp only [Rounding.quotient]
  split
  · next hlow => exact .inl ⟨rfl, hlow.le⟩
  · next hhigh => exact .inr ⟨rfl, Nat.not_lt.1 hhigh⟩

/-- A quotient exceeds the whole part by one at most. -/
theorem quotient_le (mode : Rounding) (n d : Nat) : mode.quotient n d ≤ n / d + 1 := by
  cases mode with
  | towardZero => exact Nat.le_succ _
  | awayFromZero | halfAway =>
    simp only [Rounding.quotient]
    split
    · exact Nat.le_succ _
    · exact le_rfl

/-! ## Small whole numbers -/

/-- A whole number of at most 53 bits is a number. -/
theorem exists_value_eq {n : Nat} (h : n < 2 ^ 53) : ∃ y : Float, y.isFinite = true ∧ value y = n := by
  rcases Nat.eq_zero_or_pos n with rfl | hpos
  · exact ⟨0.0, rfl, rfl⟩
  · obtain ⟨m, e, hc, -, hvalue⟩ := exists_full (k := 0) hpos h (by decide) (by decide)
    obtain ⟨hfinite, hpack⟩ :=
      value_ofModel_pack (x := .ofModel (.pack (.finite .positive m e hc.pos))) hc rfl
    refine ⟨_, hfinite, hpack.trans ?_⟩
    rw [signed, hvalue, zpow_zero, mul_one]

/-- A whole number of at most 53 bits is made the number that stands for it. -/
theorem value_toFloat {n : Nat} (h : n < 2 ^ 53) :
    n.toUInt64.toFloat.isFinite = true ∧ value n.toUInt64.toFloat = n := by
  have hn : n.toUInt64.toNat = n := by
    show (UInt64.ofNat n).toNat = n
    rw [UInt64.toNat_ofNat', Nat.mod_eq_of_lt (by omega)]
  have hmodel : n.toUInt64.toFloat =
      .ofModel (.pack (UnpackedFloat.normalize .binary64 (n : Int) 0 .positive)) := by
    show Float.ofModel (.pack (UnpackedFloat.normalize .binary64 (n.toUInt64.toNat : Int) 0 .positive)) = _
    rw [hn]
  obtain ⟨y, hy, hvalue⟩ := exists_value_eq h
  have happroximates : Approximates n.toUInt64.toFloat (value y) := by
    have hone : (((n : Int) : ℚ)) * 2 ^ (0 : ℤ) = value y := by
      rw [zpow_zero, mul_one, hvalue, Int.cast_natCast]
    have hle : |((n : Int) : ℚ) * 2 ^ (0 : ℤ)| ≤ 2 ^ (53 : ℤ) := by
      rw [hone, hvalue, Nat.abs_cast]
      exact_mod_cast h.le
    rw [hmodel, ← hone]
    exact approximates_normalize (isModerate_of_le hle (by decide))
  exact ⟨happroximates.isFinite, (happroximates.value_eq hy).trans hvalue⟩

/-- The number zero. -/
theorem value_zero : (0.0 : Float).isFinite = true ∧ value 0.0 = 0 :=
  ⟨rfl, rfl⟩

/-- The number one. -/
theorem value_one : (1.0 : Float).isFinite = true ∧ value 1.0 = 1 := by
  have hc : IsCanonical (2 ^ 52) (-52) := ⟨by decide, by decide, by decide, by decide, .inr le_rfl⟩
  have hone : (1.0 : Float) = .ofModel (.pack (.finite .positive (2 ^ 52) (-52) (by decide))) := by
    decide +kernel
  obtain ⟨hfinite, hvalue⟩ := value_ofModel_pack hc hone
  refine ⟨hfinite, hvalue.trans ?_⟩
  norm_num [signed]

/-! ## Rounding to whole numbers -/

/-- A finite number is a whole one, which stays as it is, or a ratio, of which the quotient is
taken. -/
theorem toWhole_spec (mode : Sign → Rounding) (hx : x.isFinite = true) :
    (toWhole mode x).isFinite = true ∧
      ((∃ z : Int, value x = z ∧ toWhole mode x = x) ∨
        ∃ (s : Sign) (m d : Nat), 0 < d ∧ value x = signed s (m / d) ∧
          value (toWhole mode x) = signed s ((mode s).quotient m d)) := by
  rcases exists_of_isFinite hx with ⟨s, hu⟩ | ⟨s, m, e, hc, hu⟩
  · have hsame : toWhole mode x = x := by rw [toWhole, hu]
    exact ⟨hsame.symm ▸ hx, .inl ⟨0, by rw [value_of_zero hu, Int.cast_zero], hsame⟩⟩
  · by_cases he : 0 ≤ e
    · have hsame : toWhole mode x = x := by
        rw [toWhole, hu]
        exact if_pos he
      refine ⟨hsame.symm ▸ hx, .inl ?_⟩
      obtain ⟨i, rfl⟩ := Int.eq_ofNat_of_zero_le he
      refine ⟨s.apply (m * 2 ^ i), ?_, hsame⟩
      rw [value_of_unpack hu, zpow_natCast]
      cases s <;> simp only [Sign.apply, signed] <;> push_cast <;> rfl
    · obtain ⟨i, rfl⟩ : ∃ i : Nat, e = -(i + 1) := ⟨(-e - 1).toNat, by omega⟩
      have hshift : (- -((i : Int) + 1)).toNat = i + 1 := by omega
      have hpow : 1 <<< (i + 1) = 2 ^ (i + 1) := Nat.one_shiftLeft _
      have hsmall : (mode s).quotient m (2 ^ (i + 1)) < 2 ^ 53 := by
        have hle := quotient_le (mode s) m (2 ^ (i + 1))
        have hdiv : m / 2 ^ (i + 1) ≤ m / 2 :=
          Nat.div_le_div_left (Nat.le_self_pow (Nat.succ_ne_zero i) 2) (by decide)
        have hlt := hc.lt
        omega
      have hvalue : value x = signed s ((m : ℚ) / (2 ^ (i + 1) : Nat)) := by
        rw [value_of_unpack hu, zpow_neg, ← div_eq_mul_inv]
        push_cast
        rfl
      obtain ⟨hfinite, hexact⟩ := value_toFloat hsmall
      cases s with
      | positive =>
        have hwhole : toWhole mode x =
            ((mode .positive).quotient m (2 ^ (i + 1))).toUInt64.toFloat := by
          rw [toWhole, hu]
          simp only [if_neg he, hshift, hpow]
        rw [hwhole]
        exact ⟨hfinite, .inr ⟨.positive, m, _, by positivity, hvalue, hexact⟩⟩
      | negative =>
        have hwhole : toWhole mode x =
            -((mode .negative).quotient m (2 ^ (i + 1))).toUInt64.toFloat := by
          rw [toWhole, hu]
          simp only [if_neg he, hshift, hpow]
        obtain ⟨hfinite', hneg⟩ := value_neg hfinite
        rw [hwhole]
        exact ⟨hfinite', .inr ⟨.negative, m, _, by positivity, hvalue,
          hneg.trans (congrArg _ hexact)⟩⟩

/-- The floor of a number is a number. -/
theorem value_floor (hx : x.isFinite = true) :
    (floor x).isFinite = true ∧ value (floor x) = ⌊value x⌋ := by
  have hspec : (floor x).isFinite = true ∧ _ := toWhole_spec _ hx
  obtain ⟨hfinite, ⟨z, hz, hsame⟩ | ⟨s, m, d, hd, hvalue, hwhole⟩⟩ := hspec
  · refine ⟨hfinite, ?_⟩
    rw [floor, hsame, hz, Int.floor_intCast]
  · refine ⟨hfinite, ?_⟩
    rw [floor, hwhole, hvalue]
    cases s with
    | positive =>
      obtain ⟨hle, hlt⟩ := quotient_towardZero m hd
      have hfloor : ⌊(m : ℚ) / d⌋ = (Rounding.towardZero.quotient m d : Int) :=
        Int.floor_eq_iff.2 ⟨by exact_mod_cast hle, by exact_mod_cast hlt⟩
      show (Rounding.towardZero.quotient m d : ℚ) = (⌊(m : ℚ) / d⌋ : Int)
      rw [hfloor, Int.cast_natCast]
    | negative =>
      obtain ⟨hle, hlt⟩ := quotient_awayFromZero m hd
      have hfloor : ⌊-((m : ℚ) / d)⌋ = -(Rounding.awayFromZero.quotient m d : Int) := by
        refine Int.floor_eq_iff.2 ?_
        push_cast
        constructor <;> linarith
      simp only [signed, hfloor]
      push_cast
      rfl

/-- Two whole numbers less than one apart are the same. -/
theorem eq_of_abs_sub_lt_one {z z' : Int} (h : |(z : ℚ) - z'| < 1) : z = z' := by
  have hint : |z - z'| < 1 := by exact_mod_cast h
  have hbounds := abs_lt.1 hint
  omega

/-- A number near a whole one is rounded to it. -/
theorem value_round (hx : x.isFinite = true) {z : Int} (hz : |value x - z| < 1 / 2) :
    (Binary64.round x).isFinite = true ∧ value (Binary64.round x) = z := by
  obtain ⟨hfinite, ⟨z', hz', hsame⟩ | ⟨s, m, d, hd, hvalue, hwhole⟩⟩ :=
    toWhole_spec (fun _ => .halfAway) hx
  · refine ⟨hfinite, ?_⟩
    rw [Binary64.round, hsame, hz']
    rw [hz'] at hz
    rw [eq_of_abs_sub_lt_one (hz.trans (by norm_num))]
  · refine ⟨hfinite, ?_⟩
    have hhalf := quotient_halfAway m hd
    generalize Rounding.halfAway.quotient m d = k at hhalf hwhole
    have hcast : signed s k = (s.apply k : Int) := by
      cases s with
      | positive => exact (Int.cast_natCast k).symm
      | negative => exact (by push_cast; rfl : -(k : ℚ) = ((-(k : Int) : Int) : ℚ))
    have hnear : |signed s k - signed s (m / d)| ≤ 1 / 2 := by
      cases s with
      | positive => exact hhalf
      | negative => rwa [signed, signed, ← neg_sub', abs_neg]
    rw [Binary64.round, hwhole, hcast, Int.cast_inj]
    rw [hcast, ← hvalue] at hnear
    refine eq_of_abs_sub_lt_one ?_
    calc |((s.apply k : Int) : ℚ) - z| ≤ |(s.apply k : Int) - value x| + |value x - z| :=
          abs_sub_le _ _ _
      _ < 1 := by linarith

/-! ## Truncation -/

/-- The integer part of a magnitude is that of a ratio of powers of two. -/
theorem roundToInt_eq_div (s : Sign) (m : Nat) (e : Int) :
    roundToInt s m e = s.apply (m * 2 ^ e.toNat / 2 ^ (-e).toNat : Nat) := by
  have hexact : ∀ n, ExtendedMantissa.ofMantissaAndAccuracy n .exact = ofRatio n 1 := by
    intro n
    have hratio := ofMantissaAndAccuracy_ratio (n := n) Nat.one_pos
    rwa [Nat.div_one, Nat.mod_one] at hratio
  have hamount : (0 - (e - e.toNat)).toNat = (-e).toNat := by omega
  simp only [roundToInt, decreaseExponent, shiftToExponent, sub_zero, hamount, hexact,
    shiftRight_ofRatio Nat.one_pos, Nat.mul_one, Nat.shiftLeft_eq]
  rfl

/-- A whole number is made an integer as it is. -/
theorem roundToInt_eq {s : Sign} {m : Nat} {e z : Int} (hz : signed s (m * 2 ^ e) = z) :
    roundToInt s m e = z := by
  have hratio : (m : ℚ) * 2 ^ e = (m * 2 ^ e.toNat : Nat) / (2 ^ (-e).toNat : Nat) := by
    have hexponent : e = e.toNat - (-e).toNat := by omega
    conv_lhs => rw [hexponent, zpow_sub₀ (by norm_num), zpow_natCast, zpow_natCast]
    push_cast
    ring
  rw [roundToInt_eq_div]
  rw [hratio] at hz
  generalize m * 2 ^ e.toNat = n at hz
  have hpos : 0 < 2 ^ (-e).toNat := by positivity
  generalize 2 ^ (-e).toNat = d at hz hpos
  have hdq : (d : ℚ) ≠ 0 := by exact_mod_cast hpos.ne'
  have hdz : (d : Int) ≠ 0 := by exact_mod_cast hpos.ne'
  cases s with
  | positive =>
    rw [signed, div_eq_iff hdq] at hz
    have hint : (n : Int) = z * d := by exact_mod_cast hz
    show ((n / d : Nat) : Int) = z
    rw [Int.natCast_div, hint, Int.mul_ediv_cancel z hdz]
  | negative =>
    rw [signed, ← neg_div, div_eq_iff hdq] at hz
    have hint : (n : Int) = -z * d := by
      rw [neg_mul, ← neg_eq_iff_eq_neg]
      exact_mod_cast hz
    show -((n / d : Nat) : Int) = z
    rw [Int.natCast_div, hint, Int.mul_ediv_cancel (-z) hdz, neg_neg]

/-- A whole number is truncated to the nearest integer of 64 bits. -/
theorem truncate_eq (hx : x.isFinite = true) {z : Int} (hz : value x = z) :
    truncate x = Int64.ofIntClamp z := by
  have hint : x.toModel.unpack.toInt Int64.minValue.toInt Int64.maxValue.toInt = z := by
    rcases exists_of_isFinite hx with ⟨s, hu⟩ | ⟨s, m, e, hc, hu⟩
    · rw [value_of_zero hu] at hz
      rw [hu]
      exact_mod_cast hz
    · rw [hu]
      exact roundToInt_eq ((value_of_unpack hu).symm.trans hz)
  show Int64.ofIntClamp (x.toModel.unpack.toInt _ _) = _
  rw [hint]

/-- The bounds of the 64-bit integers. -/
theorem toInt_minValue_maxValue :
    Int64.minValue.toInt = -2 ^ 63 ∧ Int64.maxValue.toInt = 2 ^ 63 - 1 := by
  decide

/-- A whole number between the bounds of the 64-bit integers is truncated to itself. -/
theorem toInt_truncate (hx : x.isFinite = true) {z : Int} (hz : value x = z)
    (hlower : -2 ^ 63 ≤ z) (hupper : z < 2 ^ 63) : (truncate x).toInt = z := by
  obtain ⟨hmin, hmax⟩ := toInt_minValue_maxValue
  rw [truncate_eq hx hz]
  exact Int64.toInt_ofIntClamp (by omega) (by omega)

/-- A whole number above all integers of 64 bits is truncated to the largest of them. -/
theorem truncate_of_le (hx : x.isFinite = true) {z : Int} (hz : value x = z) (h : 2 ^ 63 ≤ z) :
    truncate x = Int64.maxValue := by
  obtain ⟨hmin, hmax⟩ := toInt_minValue_maxValue
  rw [truncate_eq hx hz, Int64.ofIntClamp, dif_pos (by omega), dif_neg (by omega)]

/-- A whole number below all integers of 64 bits is truncated to the least of them. -/
theorem truncate_of_lt (hx : x.isFinite = true) {z : Int} (hz : value x = z) (h : z < -2 ^ 63) :
    truncate x = Int64.minValue := by
  rw [truncate_eq hx hz, Int64.ofIntClamp, dif_neg (by rw [toInt_minValue_maxValue.1]; omega)]

/-! ## There and back -/

/-- A number that is finite and has no fraction stands for a whole one. -/
theorem exists_int_of_isWhole (h : isWhole x = true) :
    x.isFinite = true ∧ ∃ z : Int, value x = z := by
  rw [isWhole, Bool.and_eq_true] at h
  obtain ⟨hx, hsame⟩ := h
  obtain ⟨hfloor, hvalue⟩ := value_floor hx
  exact ⟨hx, ⌊value x⌋, ((beq_iff_value hfloor hx).1 hsame).symm.trans hvalue⟩

/-- An integer of 64 bits is made a number. -/
theorem isFinite_ofInt64 (n : Int64) : (ofInt64 n).isFinite = true :=
  (approximates_ofInt64 n).isFinite

/-- An integer that some number stands for is made that one. -/
theorem value_ofInt64 {n : Int64} (hx : x.isFinite = true) (h : value x = n.toInt) :
    value (ofInt64 n) = value x := by
  have happroximates := approximates_ofInt64 n
  rw [← h] at happroximates
  exact happroximates.value_eq hx

/-- The largest integer of 64 bits is made the power of two above it, and the least one is a power of
two itself, but for the sign. -/
theorem value_ofInt64_bounds :
    value (ofInt64 Int64.maxValue) = 2 ^ 63 ∧ value (ofInt64 Int64.minValue) = -2 ^ 63 := by
  have hc : IsCanonical (2 ^ 52) 11 := ⟨by decide, by decide, by decide, by decide, .inr le_rfl⟩
  have hmax : ofInt64 Int64.maxValue =
      .ofModel (.pack (.finite .positive (2 ^ 52) 11 (by decide))) := by
    decide +kernel
  have hmin : ofInt64 Int64.minValue =
      .ofModel (.pack (.finite .negative (2 ^ 52) 11 (by decide))) := by
    decide +kernel
  rw [(value_ofModel_pack hc hmax).2, (value_ofModel_pack hc hmin).2]
  norm_num [signed]

/-- A whole number is got back from the integer that it is truncated to, unless it is beyond all
integers of 64 bits. The power of two next to the largest of them is not, as it is what that one is
made. -/
theorem beq_ofInt64_truncate (h : isWhole x = true) :
    (x == ofInt64 (truncate x)) = true ↔ |value x| ≤ 2 ^ 63 := by
  obtain ⟨hx, z, hz⟩ := exists_int_of_isWhole h
  rw [beq_iff_value hx (isFinite_ofInt64 _), abs_le]
  rcases lt_or_ge z (-2 ^ 63) with hbelow | hlower
  · have hlt : value x < -2 ^ 63 := by
      rw [hz]
      exact_mod_cast hbelow
    rw [truncate_of_lt hx hz hbelow, value_ofInt64_bounds.2]
    exact ⟨fun heq => absurd heq hlt.ne, fun hle => absurd hle.1 hlt.not_ge⟩
  · have hge : -2 ^ 63 ≤ value x := by
      rw [hz]
      exact_mod_cast hlower
    rcases lt_or_ge z (2 ^ 63) with hupper | habove
    · have hle : value x ≤ 2 ^ 63 := by
        rw [hz]
        exact_mod_cast hupper.le
      have htruncate : value x = (truncate x).toInt := by
        rw [toInt_truncate hx hz hlower hupper, hz]
      exact ⟨fun _ => ⟨hge, hle⟩, fun _ => (value_ofInt64 hx htruncate).symm⟩
    · have hpower : 2 ^ 63 ≤ value x := by
        rw [hz]
        exact_mod_cast habove
      rw [truncate_of_le hx hz habove, value_ofInt64_bounds.1]
      exact ⟨fun heq => ⟨hge, heq.le⟩, fun hle => le_antisymm hle.2 hpower⟩

end SearchSpace.Binary64
