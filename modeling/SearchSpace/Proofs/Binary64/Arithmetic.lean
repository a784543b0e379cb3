import SearchSpace.Proofs.Binary64.Faithful

/-!
# Arithmetic is rounded

The sum, difference, product and quotient of finite numbers approximate those of what the numbers
stand for, as long as the result is moderate, that is, so far from the greatest number that it does
not become infinite. An integer of 64 bits that is made a number is approximated too.
-/

namespace SearchSpace.Binary64

open Float.Model
open Float.Model.UnpackedFloat

variable {x y : Float} {p q : ℚ}

/-- A rational that no rounding makes infinite. -/
def IsModerate (q : ℚ) : Prop :=
  |q| < 2 ^ (1023 : ℤ)

/-- What is below a lesser power of two is moderate. -/
theorem isModerate_of_le {k : Int} (h : |q| ≤ 2 ^ k) (hk : k < 1023) : IsModerate q :=
  h.trans_lt (zpow_lt_zpow_right₀ (by norm_num) hk)

/-- Zero is moderate. -/
theorem isModerate_zero : IsModerate 0 :=
  isModerate_of_le (k := 0) (by norm_num) (by decide)

/-- What is closer to zero is moderate too. -/
theorem IsModerate.mono (h : IsModerate q) (hle : |p| ≤ |q|) : IsModerate p :=
  hle.trans_lt h

/-- The negative of a moderate rational is moderate. -/
theorem IsModerate.neg (h : IsModerate q) : IsModerate (-q) :=
  h.mono (abs_neg q).le

/-- The sign does not matter for being moderate. -/
theorem isModerate_signed {s : Sign} : IsModerate (signed s q) ↔ IsModerate q := by
  cases s with
  | positive => exact Iff.rfl
  | negative => rw [signed, IsModerate, abs_neg, IsModerate]

/-- A moderate rational that is rounded is approximated. -/
theorem Rounds.approximates_of_isModerate {u : UnpackedFloat} (h : Rounds u q)
    (hq : IsModerate q) : Approximates (.ofModel (.pack u)) q :=
  h.approximates ((le_abs_self q).trans_lt hq)

/-! ## Signs -/

/-- The negative of a finite number is unpacked with the other sign. -/
theorem unpack_neg (hx : x.isFinite = true) : (-x).toModel.unpack = x.toModel.unpack.neg := by
  show (Float.Model.pack x.toModel.unpack.neg).unpack = _
  rcases exists_of_isFinite hx with ⟨s, hu⟩ | ⟨s, m, e, hc, hu⟩
  · rw [hu]
    cases s <;> rfl
  · rw [hu]
    exact unpack_pack (-s) hc

/-- The negative of a finite number is finite and stands for the negative. -/
theorem value_neg (hx : x.isFinite = true) : (-x).isFinite = true ∧ value (-x) = -value x := by
  have hneg := unpack_neg hx
  rcases exists_of_isFinite hx with ⟨s, hu⟩ | ⟨s, m, e, hc, hu⟩ <;> rw [hu] at hneg
  · refine ⟨congrArg UnpackedFloat.isFinite hneg, ?_⟩
    rw [value, value, hneg, hu]
    exact neg_zero.symm
  · refine ⟨congrArg UnpackedFloat.isFinite hneg, ?_⟩
    rw [value, value, hneg, hu]
    cases s with
    | positive => rfl
    | negative => exact (neg_neg _).symm

/-- The magnitude of a finite number is finite and stands for the magnitude. -/
theorem value_abs (hx : x.isFinite = true) : x.abs.isFinite = true ∧ value x.abs = |value x| := by
  rcases exists_of_isFinite hx with ⟨s, hu⟩ | ⟨s, m, e, hc, hu⟩
  · have hmagnitude : x.abs = .ofModel (.pack (.zero .positive)) := by
      show Float.ofModel (.pack x.toModel.unpack.abs) = _
      rw [hu]
      rfl
    rw [hmagnitude, value_of_zero hu, abs_zero]
    exact ⟨rfl, rfl⟩
  · have hmagnitude := unpack_abs hu
    refine ⟨isFinite_of_unpack hmagnitude, ?_⟩
    rw [value_of_unpack hmagnitude, value_of_unpack hu]
    cases s with
    | positive => exact (abs_of_pos hc.value_pos).symm
    | negative => exact ((abs_neg _).trans (abs_of_pos hc.value_pos)).symm

/-- The negative of a number approximates the negative. -/
theorem Approximates.neg (h : Approximates x q) : Approximates (-x) (-q) := by
  obtain ⟨hfinite, hvalue⟩ := value_neg h.isFinite
  refine ⟨hfinite, fun y hy hyq => ?_, fun y hy hqy => ?_, ?_⟩
  · obtain ⟨hy', hvalue'⟩ := value_neg hy
    have hle := h.value_le (-y) hy' (by linarith)
    linarith
  · obtain ⟨hy', hvalue'⟩ := value_neg hy
    have hle := h.le_value (-y) hy' (by linarith)
    linarith
  · rw [hvalue, abs_neg, ← neg_sub', abs_neg]
    exact h.error_le

/-- What is rounded with a negative sign is the negative of what is rounded with a positive one. -/
theorem roundWithAccuracy_negative (m : Nat) (e : Int) (a : Accuracy) :
    roundWithAccuracy .binary64 .negative m e a =
      (roundWithAccuracy .binary64 .positive m e a).neg := by
  simp only [roundWithAccuracy]
  split <;> rfl

/-- A moderate rational that is rounded is unpacked as it is packed. -/
theorem Rounds.unpack_eq {u : UnpackedFloat} (h : Rounds u q) (hq : IsModerate q) :
    (Float.ofModel (.pack u)).toModel.unpack = u :=
  (h.approximates_or.resolve_right fun hlarge =>
    ((le_abs_self q).trans_lt hq).not_ge hlarge.1).2

/-- A moderate rational that is rounded with a sign is approximated. -/
theorem approximates_signed {u : Sign → UnpackedFloat} (h : Rounds (u .positive) q)
    (hneg : u .negative = (u .positive).neg) (hq : IsModerate q) (s : Sign) :
    Approximates (.ofModel (.pack (u s))) (signed s q) := by
  have hpositive := h.approximates_of_isModerate hq
  cases s with
  | positive => exact hpositive
  | negative =>
    have hnegative : Float.ofModel (.pack (u .negative)) = -Float.ofModel (.pack (u .positive)) := by
      show _ = Float.ofModel (.pack (Float.ofModel (.pack (u .positive))).toModel.unpack.neg)
      rw [h.unpack_eq hq, hneg]
    rw [hnegative]
    exact hpositive.neg

/-- A zero approximates zero. -/
theorem approximates_zero (s : Sign) : Approximates (.ofModel (.pack (.zero s))) 0 := by
  have hfinite : (Float.ofModel (.pack (.zero s))).isFinite = true := by cases s <;> rfl
  have hvalue : value (Float.ofModel (.pack (.zero s))) = 0 := by cases s <;> rfl
  exact hvalue ▸ approximates_self hfinite

/-! ## Sums and differences -/

/-- A whole number times a power of two is rounded. -/
theorem approximates_normalize {m : Int} {e : Int} (hq : IsModerate (m * 2 ^ e)) :
    Approximates (.ofModel (.pack (UnpackedFloat.normalize .binary64 m e .positive))) (m * 2 ^ e) := by
  have hround : ∀ (s : Sign) {n : Nat}, 0 < n → IsModerate (n * 2 ^ e) →
      Approximates (.ofModel (.pack (UnpackedFloat.round .binary64 s n e))) (signed s (n * 2 ^ e)) :=
    fun s n hn hn' => approximates_signed (u := fun s => UnpackedFloat.round .binary64 s n e)
      (rounds_round hn) (roundWithAccuracy_negative _ _ _) hn' s
  rcases Int.lt_trichotomy m 0 with hlt | rfl | hgt
  · obtain ⟨n, rfl⟩ : ∃ n : Nat, m = -n := ⟨m.natAbs, by omega⟩
    have hcompare : compare (-(n : Int)) 0 = .lt := Int.compare_eq_lt.2 hlt
    have hvalue : ((-(n : Int) : Int) : ℚ) * 2 ^ e = -(n * 2 ^ e) := by push_cast; ring
    have hnat : (- -(n : Int)).toNat = n := by omega
    rw [UnpackedFloat.normalize, hcompare, hnat, hvalue]
    rw [hvalue] at hq
    exact hround .negative (by omega) (by simpa using hq.neg)
  · rw [Int.cast_zero, zero_mul]
    exact approximates_zero .positive
  · obtain ⟨n, rfl⟩ : ∃ n : Nat, m = n := ⟨m.natAbs, by omega⟩
    have hcompare : compare (n : Int) 0 = .gt := Int.compare_eq_gt.2 hgt
    rw [UnpackedFloat.normalize, hcompare, Int.toNat_natCast, Int.cast_natCast]
    rw [Int.cast_natCast] at hq
    exact hround .positive (by omega) hq

/-- A magnitude with a smaller exponent has the same value. -/
theorem cast_apply_shiftLeft (s : Sign) (m : Nat) {e low : Int} (h : low ≤ e) :
    ((s.apply (m <<< (e - low).toNat : Nat) : Int) : ℚ) * 2 ^ low = signed s (m * 2 ^ e) := by
  obtain ⟨i, rfl⟩ := Int.le.dest h
  have hshift : (low + i - low).toNat = i := by omega
  rw [hshift, Nat.shiftLeft_eq, zpow_add₀ (by norm_num), zpow_natCast]
  cases s <;> simp only [Sign.apply, signed] <;> push_cast <;> ring

/-- The sum of two numbers with mantissas is a whole multiple of a power of two that is rounded. -/
theorem exists_add_eq_normalize {s s' : Sign} {m m' : Nat} {e e' : Int} {hm : 0 < m} {hm' : 0 < m'}
    (hu : x.toModel.unpack = .finite s m e hm) (hv : y.toModel.unpack = .finite s' m' e' hm') :
    ∃ n low : Int, value x + value y = n * 2 ^ low ∧
      x + y = .ofModel (.pack (UnpackedFloat.normalize .binary64 n low .positive)) := by
  have hleft := cast_apply_shiftLeft s m (min_le_left e e')
  have hright := cast_apply_shiftLeft s' m' (min_le_right e e')
  refine ⟨s.apply (m <<< (e - min e e').toNat : Nat) + s'.apply (m' <<< (e' - min e e').toNat : Nat),
    min e e', ?_, ?_⟩
  · rw [value_of_unpack hu, value_of_unpack hv, ← hleft, ← hright, Int.cast_add, add_mul]
  · show Float.ofModel (.pack (add .binary64 x.toModel.unpack y.toModel.unpack)) = _
    rw [hu, hv]
    rfl

/-- A sum is rounded. -/
theorem approximates_add (hx : x.isFinite = true) (hy : y.isFinite = true)
    (hq : IsModerate (value x + value y)) : Approximates (x + y) (value x + value y) := by
  have hsum : x + y = .ofModel (.pack (add .binary64 x.toModel.unpack y.toModel.unpack)) := rfl
  rcases exists_of_isFinite hx with ⟨s, hu⟩ | ⟨s, m, e, hc, hu⟩ <;>
    rcases exists_of_isFinite hy with ⟨s', hv⟩ | ⟨s', m', e', hc', hv⟩
  · rw [value_of_zero hu, value_of_zero hv, add_zero, hsum, hu, hv]
    cases s <;> cases s' <;> exact approximates_zero _
  · have hother : x + y = y := by
      rw [hsum, hu, hv]
      exact (eq_ofModel_pack hv).symm
    rw [value_of_zero hu, zero_add, hother]
    exact approximates_self hy
  · have hother : x + y = x := by
      rw [hsum, hu, hv]
      exact (eq_ofModel_pack hu).symm
    rw [value_of_zero hv, add_zero, hother]
    exact approximates_self hx
  · obtain ⟨n, low, hvalue, hround⟩ := exists_add_eq_normalize hu hv
    rw [hvalue] at hq ⊢
    rw [hround]
    exact approximates_normalize hq

/-- A difference is the sum with the negative. -/
theorem sub_eq_add (a b : UnpackedFloat) : sub .binary64 a b = add .binary64 a b.neg := by
  cases a with
  | finite s m e hm =>
    cases b with
    | finite s' m' e' hm' =>
      have happly : ∀ n : Int, (-s').apply n = -s'.apply n := by
        intro n
        cases s' with
        | positive => rfl
        | negative => exact (neg_neg n).symm
      simp only [UnpackedFloat.sub, UnpackedFloat.add, UnpackedFloat.neg, happly, sub_eq_add_neg]
    | _ => rfl
  | _ => cases b <;> rfl

/-- A difference is rounded. -/
theorem approximates_sub (hx : x.isFinite = true) (hy : y.isFinite = true)
    (hq : IsModerate (value x - value y)) : Approximates (x - y) (value x - value y) := by
  obtain ⟨hy', hvalue⟩ := value_neg hy
  have hdifference : x - y = x + -y := by
    show Float.ofModel (.pack (sub .binary64 x.toModel.unpack y.toModel.unpack)) =
      .ofModel (.pack (add .binary64 x.toModel.unpack (-y).toModel.unpack))
    rw [unpack_neg hy, sub_eq_add]
  rw [sub_eq_add_neg, ← hvalue] at hq ⊢
  rw [hdifference]
  exact approximates_add hx hy' hq

/-! ## Products and quotients -/

/-- A product of canonical magnitudes is rounded. -/
theorem rounds_mul_canonical {m m' : Nat} {e e' : Int} (hc : IsCanonical m e)
    (hc' : IsCanonical m' e') :
    Rounds (roundWithAccuracy .binary64 .positive (m * m') (e + e') .exact)
      (m * 2 ^ e * (m' * 2 ^ e')) := by
  refine ⟨m * m', 1, e + e', Nat.one_pos, ?_, ?_, ?_⟩
  · rw [IsFine, Nat.div_one]
    have hpos := hc.pos
    have hpos' := hc'.pos
    rcases hc.full with hleast | hfull
    · rcases hc'.full with hleast' | hfull'
      · left
        omega
      · exact .inr (hfull'.trans (Nat.le_mul_of_pos_left m' hpos))
    · exact .inr (hfull.trans (Nat.le_mul_of_pos_right m hpos'))
  · rw [zpow_add₀ (by norm_num)]
    push_cast
    ring
  · rw [roundRatio, Nat.div_one, Nat.mod_one]
    rfl

/-- The sign of a product. -/
theorem signed_mul (s s' : Sign) (p q : ℚ) :
    signed s p * signed s' q = signed (s * s') (p * q) := by
  cases s with
  | positive =>
    cases s' with
    | positive => rfl
    | negative => exact mul_neg p q
  | negative =>
    cases s' with
    | positive => exact neg_mul p q
    | negative => exact neg_mul_neg p q

/-- The sign of a quotient. -/
theorem signed_div (s s' : Sign) (p q : ℚ) :
    signed s p / signed s' q = signed (s / s') (p / q) := by
  cases s with
  | positive =>
    cases s' with
    | positive => rfl
    | negative => exact div_neg p
  | negative =>
    cases s' with
    | positive => exact neg_div q p
    | negative => exact neg_div_neg_eq p q

/-- A product is rounded. -/
theorem approximates_mul (hx : x.isFinite = true) (hy : y.isFinite = true)
    (hq : IsModerate (value x * value y)) : Approximates (x * y) (value x * value y) := by
  have hproduct : x * y = .ofModel (.pack (mul .binary64 x.toModel.unpack y.toModel.unpack)) := rfl
  rcases exists_of_isFinite hx with ⟨s, hu⟩ | ⟨s, m, e, hc, hu⟩ <;>
    rcases exists_of_isFinite hy with ⟨s', hv⟩ | ⟨s', m', e', hc', hv⟩
  · rw [value_of_zero hu, zero_mul, hproduct, hu, hv]
    exact approximates_zero (s * s')
  · rw [value_of_zero hu, zero_mul, hproduct, hu, hv]
    exact approximates_zero (s * s')
  · rw [value_of_zero hv, mul_zero, hproduct, hu, hv]
    exact approximates_zero (s * s')
  · rw [value_of_unpack hu, value_of_unpack hv, signed_mul] at hq ⊢
    rw [hproduct, hu, hv]
    exact approximates_signed
      (u := fun s => roundWithAccuracy .binary64 s (m * m') (e + e') .exact)
      (rounds_mul_canonical hc hc') (roundWithAccuracy_negative _ _ _) (isModerate_signed.1 hq) _

/-- A quotient is rounded. -/
theorem approximates_div (hx : x.isFinite = true) (hy : y.isFinite = true) (hne : value y ≠ 0)
    (hq : IsModerate (value x / value y)) : Approximates (x / y) (value x / value y) := by
  have hquotient : x / y = .ofModel (.pack (div .binary64 x.toModel.unpack y.toModel.unpack)) := rfl
  rcases exists_of_isFinite hy with ⟨s', hv⟩ | ⟨s', m', e', hc', hv⟩
  · exact absurd (value_of_zero hv) hne
  · rcases exists_of_isFinite hx with ⟨s, hu⟩ | ⟨s, m, e, hc, hu⟩
    · rw [value_of_zero hu, zero_div, hquotient, hu, hv]
      exact approximates_zero (s / s')
    · rw [value_of_unpack hu, value_of_unpack hv, signed_div] at hq ⊢
      rw [hquotient, hu, hv]
      exact approximates_signed
        (u := fun s => roundWithAccuracy .binary64 s (divCore .binary64 m e m' e').1
          (divCore .binary64 m e m' e').2.1 (divCore .binary64 m e m' e').2.2)
        (rounds_div hc.pos hc'.pos) (roundWithAccuracy_negative _ _ _) (isModerate_signed.1 hq) _

/-! ## Integers -/

/-- An integer of 64 bits is rounded. -/
theorem approximates_ofInt64 (n : Int64) : Approximates (ofInt64 n) n.toInt := by
  have hone : (n.toInt : ℚ) = n.toInt * 2 ^ (0 : ℤ) := by rw [zpow_zero, mul_one]
  have hmoderate : IsModerate (n.toInt * 2 ^ (0 : ℤ)) := by
    have hupper : (n.toInt : ℚ) ≤ 2 ^ (63 : ℤ) := by exact_mod_cast n.toInt_lt.le
    have hlower : -2 ^ (63 : ℤ) ≤ (n.toInt : ℚ) := by exact_mod_cast n.le_toInt
    rw [← hone]
    exact isModerate_of_le (abs_le.2 ⟨hlower, hupper⟩) (by decide)
  rw [hone]
  exact approximates_normalize hmoderate

/-! ## Relative errors -/

/-- The value of the least positive number. -/
def leastValue : ℚ :=
  2 ^ (-1074 : ℤ)

/-- A rational is a whole multiple of the least positive number. -/
def IsMultiple (q : ℚ) : Prop :=
  ∃ j : Int, q = j * leastValue

/-- What a finite number stands for is such a multiple. -/
theorem isMultiple_value (hx : x.isFinite = true) : IsMultiple (value x) :=
  (exists_multiple_or_lt hx (-1074)).resolve_right fun h => h.1 rfl

/-- The sum of two multiples is one. -/
theorem IsMultiple.add (hp : IsMultiple p) (hq : IsMultiple q) : IsMultiple (p + q) := by
  obtain ⟨j, rfl⟩ := hp
  obtain ⟨k, rfl⟩ := hq
  exact ⟨j + k, by push_cast; ring⟩

/-- The difference of two multiples is one. -/
theorem IsMultiple.sub (hp : IsMultiple p) (hq : IsMultiple q) : IsMultiple (p - q) := by
  obtain ⟨j, rfl⟩ := hp
  obtain ⟨k, rfl⟩ := hq
  exact ⟨j - k, by push_cast; ring⟩

/-- A whole number of times a multiple is one. -/
theorem IsMultiple.mul (hq : IsMultiple q) (n : Int) : IsMultiple (n * q) := by
  obtain ⟨k, rfl⟩ := hq
  exact ⟨n * k, by push_cast; ring⟩

/-- A whole number of at most 53 bits times the least positive number is a number. -/
theorem exists_value_eq_multiple {j : Int} (h : |j| < 2 ^ 53) :
    ∃ y : Float, y.isFinite = true ∧ value y = j * leastValue := by
  have hcanonical : ∀ n : Nat, 0 < n → n < 2 ^ 53 → IsCanonical n (-1074) := fun n hpos hlt =>
    ⟨hpos, hlt, by decide, by decide, .inl rfl⟩
  obtain ⟨hlower, hupper⟩ := abs_lt.1 h
  rcases Int.lt_trichotomy j 0 with hneg | rfl | hpos
  · obtain ⟨n, rfl⟩ : ∃ n : Nat, j = -n := ⟨j.natAbs, by omega⟩
    have hunpack := unpack_ofModel_pack .negative (hcanonical n (by omega) (by omega))
    refine ⟨_, isFinite_of_unpack hunpack, ?_⟩
    rw [value_of_unpack hunpack, signed, Int.cast_neg, Int.cast_natCast, neg_mul]
    rfl
  · exact ⟨0.0, rfl, by rw [Int.cast_zero, zero_mul]; rfl⟩
  · obtain ⟨n, rfl⟩ : ∃ n : Nat, j = n := ⟨j.natAbs, by omega⟩
    have hunpack := unpack_ofModel_pack .positive (hcanonical n (by omega) (by omega))
    refine ⟨_, isFinite_of_unpack hunpack, ?_⟩
    rw [value_of_unpack hunpack, signed, Int.cast_natCast]
    rfl

/-- The error of a multiple is small in relation to it: a multiple that is so small that the error
need not be is a number itself. -/
theorem Approximates.relative_error_le (h : Approximates x q) (hq : IsMultiple q) :
    |value x - q| ≤ 2 ^ (-53 : ℤ) * |q| := by
  obtain ⟨j, rfl⟩ := hq
  by_cases hsmall : |j| < 2 ^ 53
  · obtain ⟨y, hy, hvalue⟩ := exists_value_eq_multiple hsmall
    rw [← hvalue] at h ⊢
    rw [h.value_eq hy, sub_self, abs_zero]
    positivity
  · refine h.error_le.trans (max_le le_rfl ?_)
    have hj : (2 : ℚ) ^ (53 : ℤ) ≤ |(j : ℚ)| := by exact_mod_cast not_lt.1 hsmall
    have hpos : 0 < leastValue := zpow_pos (by norm_num) _
    have hleast : (2 : ℚ) ^ (-1075 : ℤ) ≤ leastValue :=
      zpow_le_zpow_right₀ (by norm_num) (by norm_num)
    calc (2 : ℚ) ^ (-1075 : ℤ) ≤ 2 ^ (-53 : ℤ) * (2 ^ (53 : ℤ) * leastValue) := by
          rwa [← mul_assoc, ← zpow_add₀ (by norm_num), neg_add_cancel, zpow_zero, one_mul]
      _ ≤ 2 ^ (-53 : ℤ) * |(j : ℚ) * leastValue| := by
          rw [abs_mul, abs_of_pos hpos]
          gcongr

end SearchSpace.Binary64
