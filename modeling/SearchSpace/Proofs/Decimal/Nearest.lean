import SearchSpace.Proofs.Binary64.Nearest
import SearchSpace.Proofs.Decimal.Numeral

/-!
# The number nearest to a decimal

A decimal is read as the number nearest to its value (`isNearest_toFloat`), whether it is computed
with numbers or exactly, unless its exponent is far from those of numbers. So decimals of the same
value are read as the same number: the exact decimal of a number as the number itself, and with it
the shortest one, which is the first rounding that reads back (`shortest_spec`).
-/

namespace SearchSpace.Decimal

open Binary64
open Float.Model (UnpackedFloat)

/-- The rational that a decimal stands for. -/
def value (d : Decimal) : ℚ :=
  d.coefficient * 10 ^ d.exponent

/-! ## Reading a decimal -/

/-- The table holds the powers of ten. -/
theorem powersOfTen_eq : ∀ (k : Nat) (hk : k < Float.exactlyRepresentablePowersOfTen.size),
    Float.exactlyRepresentablePowersOfTen[k] =
      .ofModel (.pack (UnpackedFloat.round .binary64 .positive (5 ^ k) k)) := by
  decide +kernel

/-- A coefficient and a power of ten that are numbers themselves are multiplied or divided. -/
theorem isNearest_ofScientific {c : Nat} (hpos : 0 < c) (hlt : c < 2 ^ 53) (s : Bool) {k : Nat}
    (hk : k ≤ 22) :
    IsNearest (Float.ofScientific c s k) (if s then c / 10 ^ k else c * 10 ^ k) := by
  obtain ⟨m, e, hm, hfull, hvalue, hunpack⟩ :=
    unpack_round hpos hlt (k := 0) (by decide) (by decide)
  obtain ⟨m', e', hm', hfull', hvalue', hunpack'⟩ :=
    unpack_round (c := 5 ^ k) (k := k) (by positivity)
      (lt_of_le_of_lt (Nat.pow_le_pow_right (by decide) hk) (by decide)) (by omega) (by omega)
  rw [← toFloat_toUInt64 hpos (by omega)] at hunpack
  rw [← powersOfTen_eq k (Nat.lt_succ_of_le hk)] at hunpack'
  have hten : ((5 ^ k : Nat) : ℚ) * 2 ^ (k : Int) = 10 ^ k := by
    rw [zpow_natCast]
    push_cast
    rw [← mul_pow]
    norm_num
  rw [hten] at hvalue'
  rw [zpow_zero, mul_one] at hvalue
  rw [Float.ofScientific, dif_pos ⟨hlt, hk⟩, ← hvalue, ← hvalue']
  cases s
  · exact isNearest_mul hunpack hunpack' (le_trans hfull (Nat.le_mul_of_pos_right m hm'))
  · exact isNearest_div hunpack hunpack'

/-- Any other coefficient and power of ten are computed exactly, and rounded. -/
theorem isNearest_ofScientific_model {c : Nat} (hpos : 0 < c) {k : Int} (hlow : -2048 ≤ k)
    (hup : k ≤ 2048) : IsNearest (.ofModel (.ofScientific c k)) (c * 10 ^ k) := by
  refine ⟨_, ?_, rfl⟩
  have hbound : (2 : Int) ^ Float.Model.Format.binary64.exponentBits = 2048 := by decide
  rw [UnpackedFloat.ofScientific, dif_neg hpos.ne', if_neg (by omega), if_neg (by omega)]
  split
  · next hk =>
    obtain ⟨n, rfl⟩ := Int.eq_ofNat_of_zero_le hk
    have hvalue : (c : ℚ) * (10 : ℚ) ^ (n : Int) =
        ((c <<< 53 : Nat) : ℚ) * 2 ^ (-53 : Int) * ((10 ^ n : Nat) * 2 ^ (0 : Int)) := by
      rw [Nat.shiftLeft_eq, zpow_natCast, zpow_zero, mul_one, zpow_neg]
      push_cast
      field_simp
    rw [hvalue]
    exact rounds_mul _ _ (le_trans (le_shiftLeft (s := 53) hpos (by omega))
      (Nat.le_mul_of_pos_right _ (by positivity)))
  · next hk =>
    obtain ⟨n, rfl⟩ : ∃ n : Nat, k = -n := ⟨k.natAbs, by omega⟩
    have hvalue : (c : ℚ) * 10 ^ (-n : Int) =
        (c : ℚ) * 2 ^ (0 : Int) / ((10 ^ n : Nat) * 2 ^ (0 : Int)) := by
      rw [zpow_neg, zpow_natCast, zpow_zero, mul_one, mul_one]
      push_cast
      rfl
    rw [hvalue]
    simp only [neg_neg, Int.toNat_natCast]
    exact rounds_div hpos (by positivity)

/-- A decimal is read as the nearest number. -/
theorem isNearest_toFloat {d : Decimal} (hpos : 0 < d.coefficient) (hlow : -2048 ≤ d.exponent)
    (hup : d.exponent ≤ 2048) : IsNearest d.toFloat d.value := by
  obtain ⟨c, k⟩ := d
  show IsNearest (Float.ofScientific c (decide (k < 0)) k.natAbs) (c * 10 ^ k)
  by_cases hfast : c < 2 ^ 53 ∧ k.natAbs ≤ 22
  · have hvalue : (if decide (k < 0) then (c : ℚ) / 10 ^ k.natAbs else c * 10 ^ k.natAbs) =
        c * 10 ^ k := by
      by_cases hneg : k < 0
      · rw [decide_eq_true hneg, if_pos rfl, ← zpow_natCast, Int.ofNat_natAbs_of_nonpos hneg.le,
          zpow_neg, div_inv_eq_mul]
      · rw [decide_eq_false hneg, if_neg Bool.false_ne_true, ← zpow_natCast,
          Int.natAbs_of_nonneg (Int.not_lt.1 hneg)]
    rw [← hvalue]
    exact isNearest_ofScientific hpos hfast.1 (decide (k < 0)) hfast.2
  · rw [Float.ofScientific, dif_neg hfast]
    have hexponent : (if decide (k < 0) then Int.negOfNat k.natAbs else Int.ofNat k.natAbs) = k := by
      by_cases hneg : k < 0
      · rw [decide_eq_true hneg, if_pos rfl, Int.negOfNat_eq, Int.ofNat_eq_natCast]
        omega
      · rw [decide_eq_false hneg, if_neg Bool.false_ne_true]
        exact Int.natAbs_of_nonneg (Int.not_lt.1 hneg)
    show IsNearest (.ofModel (.ofScientific c (if decide (k < 0) then Int.negOfNat k.natAbs
      else Int.ofNat k.natAbs))) _
    rw [hexponent]
    exact isNearest_ofScientific_model hpos hlow hup

/-! ## Decimals below a bound -/

/-- A decimal that is not zero, of digits that no number is too small for, and below a bound. -/
structure Below (bound : ℚ) (d : Decimal) : Prop where
  pos : 0 < d.coefficient
  least_le : -1074 ≤ d.exponent
  lt : d.value < bound

/-- A greater bound. -/
theorem Below.mono {bound bound' : ℚ} {d : Decimal} (h : d.Below bound) (hle : bound ≤ bound') :
    d.Below bound' :=
  ⟨h.pos, h.least_le, h.lt.trans_le hle⟩

/-- The exponent is bounded too. -/
theorem Below.exponent_le {d : Decimal} (h : d.Below (10 ^ (2048 : Int))) : d.exponent ≤ 2048 := by
  by_contra hlarge
  have hcoefficient : (1 : ℚ) ≤ d.coefficient := by exact_mod_cast h.pos
  have hpower : (0 : ℚ) ≤ 10 ^ d.exponent := by positivity
  refine absurd h.lt (not_lt.2 ?_)
  calc (10 : ℚ) ^ (2048 : Int) ≤ 10 ^ d.exponent := zpow_le_zpow_right₀ (by norm_num) (by omega)
    _ ≤ d.value := le_mul_of_one_le_left hpower hcoefficient

/-- A decimal below the bound is read as the nearest number. -/
theorem Below.isNearest {d : Decimal} (h : d.Below (10 ^ (2048 : Int))) :
    IsNearest d.toFloat d.value :=
  isNearest_toFloat h.pos (le_trans (by decide) h.least_le) h.exponent_le

/-! ## The same value in other digits -/

/-- A zero at the end of a coefficient stands for a power of ten. -/
theorem value_div_ten {d : Decimal} (h : d.coefficient % 10 = 0) :
    value ⟨d.coefficient / 10, d.exponent + 1⟩ = d.value := by
  obtain ⟨c, hc⟩ := Nat.dvd_of_mod_eq_zero h
  rw [value, value, hc, Nat.mul_div_cancel_left c (by decide), zpow_add_one₀ (by norm_num)]
  push_cast
  ring

/-- Without the zeros at its end a decimal has the same value. -/
theorem Below.strip_go {bound : ℚ} {d : Decimal} (h : d.Below bound) (n : Nat) :
    (strip.go n d).Below bound ∧ (strip.go n d).value = d.value := by
  induction n generalizing d with
  | zero => exact ⟨h, rfl⟩
  | succ n ih =>
    rw [strip.go]
    split
    · next hzero =>
      have hvalue := value_div_ten hzero
      have hpos := h.pos
      have hleast := h.least_le
      have hbelow : Below bound ⟨d.coefficient / 10, d.exponent + 1⟩ := by
        refine ⟨?_, ?_, hvalue ▸ h.lt⟩
        · show 0 < d.coefficient / 10
          omega
        · show -1074 ≤ d.exponent + 1
          omega
      obtain ⟨hstripped, heq⟩ := ih hbelow
      exact ⟨hstripped, heq.trans hvalue⟩
    · exact ⟨h, rfl⟩

/-- With more digits a decimal has the same value. -/
@[simp] theorem value_scale (k : Nat) (d : Decimal) : (d.scale k).value = d.value := by
  show ((10 ^ k * d.coefficient : Nat) : ℚ) * 10 ^ (d.exponent - k) = d.value
  rw [value, zpow_sub₀ (by norm_num), zpow_natCast]
  push_cast
  field_simp

/-- With at most sixteen digits more it is read as the same number. -/
theorem Below.toFloat_scale {d : Decimal} (h : d.Below (10 ^ (2048 : Int))) {k : Nat}
    (hk : k ≤ 16) : (d.scale k).toFloat = d.toFloat := by
  have hleast := h.least_le
  have hgreatest := h.exponent_le
  have hnearest : IsNearest (d.scale k).toFloat (d.scale k).value := by
    refine isNearest_toFloat (Nat.mul_pos (Nat.pow_pos (by decide)) h.pos) ?_ ?_
    · show -2048 ≤ d.exponent - k
      omega
    · show d.exponent - k ≤ 2048
      omega
  rw [value_scale] at hnearest
  exact hnearest.unique h.isNearest

/-! ## The exact decimal -/

/-- The exact decimal of a number has its value. -/
@[simp] theorem value_exact (m : Nat) (e : Int) : (exact m e).value = m * 2 ^ e := by
  rw [exact]
  split
  · next he =>
    obtain ⟨n, rfl⟩ := Int.eq_ofNat_of_zero_le he
    rw [value, zpow_zero, mul_one, Int.toNat_natCast, Nat.shiftLeft_eq, zpow_natCast]
    push_cast
    rfl
  · next he =>
    obtain ⟨n, rfl⟩ : ∃ n : Nat, e = -n := ⟨e.natAbs, by omega⟩
    rw [value, neg_neg, Int.toNat_natCast]
    show ((m * 5 ^ n : Nat) : ℚ) * 10 ^ (-n : Int) = _
    have hten : (10 : ℚ) ^ n = 5 ^ n * 2 ^ n := by
      rw [← mul_pow]
      norm_num
    rw [zpow_neg, zpow_neg, zpow_natCast, zpow_natCast, hten]
    push_cast
    field_simp

/-- All finite numbers are below the power of two after the greatest one. -/
theorem below_exact {m : Nat} {e : Int} (h : IsCanonical m e) :
    (exact m e).Below (2 ^ (1024 : Int)) := by
  have hm := h.pos
  have hleast := h.least_le
  have hlt : (m : ℚ) < 2 ^ (53 : Int) := by exact_mod_cast h.lt
  constructor
  · rw [exact]
    split
    · show 0 < m <<< e.toNat
      rw [Nat.shiftLeft_eq]
      positivity
    · show 0 < m * 5 ^ (-e).toNat
      positivity
  · rw [exact]
    split
    · show (-1074 : Int) ≤ 0
      decide
    · exact hleast
  · rw [value_exact]
    calc (m : ℚ) * 2 ^ e < 2 ^ (53 : Int) * 2 ^ e := mul_lt_mul_of_pos_right hlt (by positivity)
      _ ≤ 2 ^ (53 : Int) * 2 ^ (971 : Int) :=
          mul_le_mul_of_nonneg_left (zpow_le_zpow_right₀ (by norm_num) h.le_greatest)
            (by positivity)
      _ = 2 ^ (1024 : Int) := (zpow_add₀ (by norm_num) _ _).symm

/-- The exact decimal of a number is read as the number. -/
theorem toFloat_exact {x : Float} {m : Nat} {e : Int} {hm : 0 < m}
    (hx : x.toModel.unpack = .finite .positive m e hm)
    (h : (exact m e).Below (10 ^ (2048 : Int))) : (exact m e).toFloat = x := by
  have hnearest := h.isNearest
  rw [value_exact] at hnearest
  exact hnearest.unique (isNearest_of_unpack hx)

/-! ## The shortest decimal -/

/-- The decimals around one with fewer digits. -/
theorem mem_neighbours {tie : Tie} {d found : Decimal} {k : Nat} (h : found ∈ neighbours tie d k) :
    found = ⟨d.coefficient / 10 ^ k, d.exponent + k⟩ ∨
      found = ⟨d.coefficient / 10 ^ k + 1, d.exponent + k⟩ := by
  have hpair : ∀ x y : Decimal, found ∈ [x, y] → found = x ∨ found = y := by
    intro x y hmem
    simpa using hmem
  unfold neighbours at h
  simp only at h
  split at h
  · exact .inl (List.mem_singleton.1 h)
  · split at h
    · exact hpair _ _ h
    · exact (hpair _ _ h).symm
    · split at h
      · exact (hpair _ _ h).symm
      · split at h
        · exact hpair _ _ h
        · exact (hpair _ _ h).symm

/-- The decimals around one with fewer digits are at most twice as large. -/
theorem Below.of_mem_neighbours {tie : Tie} {bound : ℚ} {d found : Decimal} {k : Nat}
    (h : d.Below bound) (hk : 10 ^ k ≤ d.coefficient) (hfound : found ∈ neighbours tie d k) :
    found.Below (2 * bound) := by
  have hleast := h.least_le
  have hpos : 0 < d.coefficient / 10 ^ k := Nat.div_pos hk (by positivity)
  have hle : d.coefficient / 10 ^ k * 10 ^ k ≤ d.coefficient := Nat.div_mul_le_self _ _
  obtain ⟨hpos, hcoefficient, hexponent⟩ : 0 < found.coefficient ∧
      found.coefficient * 10 ^ k ≤ 2 * d.coefficient ∧ found.exponent = d.exponent + k := by
    rcases mem_neighbours hfound with rfl | rfl
    · refine ⟨hpos, ?_, rfl⟩
      show d.coefficient / 10 ^ k * 10 ^ k ≤ _
      omega
    · refine ⟨Nat.succ_pos _, ?_, rfl⟩
      show (d.coefficient / 10 ^ k + 1) * 10 ^ k ≤ _
      rw [Nat.add_mul]
      omega
  have hcast : (found.coefficient : ℚ) * 10 ^ k ≤ 2 * d.coefficient := by
    exact_mod_cast hcoefficient
  refine ⟨hpos, by omega, ?_⟩
  calc found.value = found.coefficient * 10 ^ k * 10 ^ d.exponent := by
        rw [value, hexponent, zpow_add₀ (by norm_num), zpow_natCast]
        ring
    _ ≤ 2 * d.coefficient * 10 ^ d.exponent := mul_le_mul_of_nonneg_right hcast (by positivity)
    _ = 2 * d.value := mul_assoc _ _ _
    _ < 2 * bound := mul_lt_mul_of_pos_left h.lt (by norm_num)

/-- The first decimal that reads back reads back, if the one that is tried last does. -/
theorem Below.firstReadingBack (tie : Tie) {bound : ℚ} {x : Float} {m : Nat} {e : Int} {hm : 0 < m}
    (hx : x.toModel.unpack = .finite .positive m e hm) {d : Decimal} (h : d.Below bound)
    (hd : d.toFloat = x) {n : Nat} (hn : 10 ^ n ≤ d.coefficient) :
    (Decimal.firstReadingBack tie x d n).Below (2 * bound) ∧
      (Decimal.firstReadingBack tie x d n).toFloat = x := by
  induction n with
  | zero =>
    have hnonneg : (0 : ℚ) ≤ d.value := mul_nonneg (by positivity) (by positivity)
    have hlt := h.lt
    exact ⟨h.mono (by linarith), hd⟩
  | succ n ih =>
    rw [Decimal.firstReadingBack]
    split
    · next found hfound =>
      have hbeq := List.find?_some hfound
      exact ⟨h.of_mem_neighbours hn (List.mem_of_find?_eq_some hfound), eq_of_beq_finite hx hbeq⟩
    · exact ih (le_trans (Nat.pow_le_pow_right (by decide) n.le_succ) hn)

/-- A coefficient has as many digits as are counted. -/
theorem pow_le_coefficient {d : Decimal} (h : 0 < d.coefficient) :
    10 ^ (d.digits.length - 1) ≤ d.coefficient := by
  rcases Nat.eq_zero_or_pos (d.digits.length - 1) with hone | hmore
  · rw [hone]
    exact h
  · have hlength := Nat.length_toDigits_le_iff (b := 10) (n := d.coefficient) (by decide) hmore
    have hlong : ¬d.digits.length ≤ d.digits.length - 1 := by omega
    exact Nat.not_lt.1 fun hlt => hlong (hlength.2 hlt)

/-- The decimal that a number is written with is read as the number. -/
theorem shortest_spec (tie : Tie) {x : Float} {m : Nat} {e : Int} {hm : 0 < m}
    (hx : x.toModel.unpack = .finite .positive m e hm) :
    (shortest tie x m e).Below (10 ^ (2048 : Int)) ∧ (shortest tie x m e).toFloat = x := by
  have hone : (2 : ℚ) ^ (1024 : Int) ≤ 10 ^ (1024 : Int) :=
    zpow_le_zpow_left₀ (by norm_num) (by norm_num) (by norm_num)
  have htwo : 2 * (2 : ℚ) ^ (1024 : Int) ≤ 10 ^ (2048 : Int) := by
    calc 2 * (2 : ℚ) ^ (1024 : Int) ≤ 10 * 10 ^ (1024 : Int) :=
          mul_le_mul (by norm_num) hone (by positivity) (by norm_num)
      _ = 10 ^ (1025 : Int) := by rw [mul_comm, ← zpow_add_one₀ (by norm_num)]; rfl
      _ ≤ 10 ^ (2048 : Int) := zpow_le_zpow_right₀ (by norm_num) (by norm_num)
  have hbelow := below_exact (isCanonical_of_unpack hx)
  have hexact := toFloat_exact hx
    (hbelow.mono (hone.trans (zpow_le_zpow_right₀ (by norm_num) (by norm_num))))
  obtain ⟨hfirst, hread⟩ := hbelow.firstReadingBack tie hx hexact (pow_le_coefficient hbelow.pos)
  obtain ⟨hstripped, hvalue⟩ := (hfirst.mono htwo).strip_go _
  refine ⟨hstripped, Eq.trans ?_ hread⟩
  have hnearest := hstripped.isNearest
  rw [hvalue] at hnearest
  exact hnearest.unique (hfirst.mono htwo).isNearest

end SearchSpace.Decimal
