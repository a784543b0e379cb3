import SearchSpace.Binary64.Elementary
import SearchSpace.Proofs.Binary64.Order
import SearchSpace.Proofs.Binary64.Packing

/-!
# Numbers without a minus sign

A number is unsigned if it is not-a-number or its sign is positive. Packing keeps the sign of every
number, one that becomes infinite included (`sign?_unpack_pack`), so that the product and the
quotient of unsigned numbers are unsigned, as is an unsigned number that is brought to a whole one.
An exponential is unsigned whatever its argument (`unsigned_exp`), and what is unsigned is not
truncated to a negative integer (`Unsigned.le_truncate`), though it may be to zero or to the
greatest one.
-/

namespace SearchSpace.Binary64

open Float.Model
open Float.Model.UnpackedFloat

/-! ## Signs -/

/-- The sign of an unpacked number. There is none for not-a-number. -/
def sign? : UnpackedFloat → Option Sign
  | .notANumber => none
  | .infinity s | .zero s | .finite s .. => some s

/-- A number is kept with its sign, also where it is too large to be kept as a finite one. -/
theorem sign?_unpack_pack (u : UnpackedFloat) :
    sign? (UnpackedFloat.unpack .binary64 (UnpackedFloat.pack .binary64 u)) = sign? u := by
  cases u with
  | notANumber => rfl
  | infinity s | zero s => cases s <;> rfl
  | finite s m e hm =>
    -- the exponent of a finite number never has all bits set, as that of an infinity has
    have hkept : ∀ (exponent : BitVec 11) (mantissa : BitVec 52), exponent ≠ -1#11 →
        sign? (UnpackedFloat.unpack .binary64 (packComponents .binary64 s exponent mantissa)) =
          some s := by
      intro exponent mantissa hspecial
      rw [unpack_packComponents s exponent mantissa hspecial]
      split
      · split <;> rfl
      · rfl
    rw [pack_finite]
    split
    · cases s <;> rfl
    · next hsmall =>
      split
      · refine hkept _ _ fun heq => ?_
        have hnat := congrArg BitVec.toNat heq
        rw [BitVec.toNat_ofNat, Nat.mod_eq_of_lt (by omega)] at hnat
        have hall : (-1#11).toNat = 2047 := rfl
        omega
      · exact hkept _ _ (by decide)

/-- Rounding keeps the sign. -/
theorem sign?_roundWithAccuracy (s : Sign) (m : Nat) (e : Int) (a : Accuracy) :
    sign? (roundWithAccuracy .binary64 s m e a) = some s := by
  simp only [roundWithAccuracy]
  split <;> rfl

/-- So does rounding with a change of the exponent. -/
@[simp] theorem sign?_round (s : Sign) (m : Nat) (e : Int) :
    sign? (UnpackedFloat.round .binary64 s m e) = some s :=
  sign?_roundWithAccuracy _ _ _ _

/-- The sign of a product is the product of the signs, unless it has none. -/
theorem sign?_mul (u v : UnpackedFloat) :
    sign? (mul .binary64 u v) = none ∨
      ∃ s t, sign? u = some s ∧ sign? v = some t ∧ sign? (mul .binary64 u v) = some (s * t) := by
  rcases u with s | _ | s | ⟨s, m, e, hm⟩ <;> rcases v with t | _ | t | ⟨t, n, d, hn⟩
  case finite.finite => exact .inr ⟨s, t, rfl, rfl, sign?_roundWithAccuracy _ _ _ _⟩
  all_goals first
    | exact .inl rfl
    | exact .inr ⟨_, _, rfl, rfl, rfl⟩

/-- The sign of a quotient is the quotient of the signs, unless it has none. -/
theorem sign?_div (u v : UnpackedFloat) :
    sign? (div .binary64 u v) = none ∨
      ∃ s t, sign? u = some s ∧ sign? v = some t ∧ sign? (div .binary64 u v) = some (s / t) := by
  rcases u with s | _ | s | ⟨s, m, e, hm⟩ <;> rcases v with t | _ | t | ⟨t, n, d, hn⟩
  case finite.finite => exact .inr ⟨s, t, rfl, rfl, sign?_roundWithAccuracy _ _ _ _⟩
  all_goals first
    | exact .inl rfl
    | exact .inr ⟨_, _, rfl, rfl, rfl⟩

/-- What is made of two signs is not negative if what is made of two positive ones is not. -/
theorem ne_negative {op : Sign → Sign → Sign} (hop : op .positive .positive = .positive)
    {p q r : Option Sign}
    (h : r = none ∨ ∃ s t, p = some s ∧ q = some t ∧ r = some (op s t))
    (hp : p ≠ some .negative) (hq : q ≠ some .negative) : r ≠ some .negative := by
  rcases h with rfl | ⟨s, t, rfl, rfl, rfl⟩
  · simp
  · cases s with
    | negative => exact absurd rfl hp
    | positive =>
      cases t with
      | negative => exact absurd rfl hq
      | positive => simp [hop]

/-! ## Unsigned numbers -/

/-- A number has no minus sign: it is not-a-number, or positive, or the positive zero. -/
def Unsigned (x : Float) : Prop :=
  sign? x.toModel.unpack ≠ some .negative

variable {x y : Float}

/-- What is packed without a minus sign is unsigned. -/
theorem unsigned_pack {u : UnpackedFloat} (h : sign? u ≠ some .negative) :
    Unsigned (.ofModel (.pack u)) := by
  have hsign : sign? (Float.ofModel (.pack u)).toModel.unpack = sign? u := sign?_unpack_pack u
  rwa [Unsigned, hsign]

/-- A number above zero is unsigned. -/
theorem unsigned_of_pos (h : 0.0 < x) : Unsigned x := by
  rw [lt_iff, order?] at h
  have hzero : (0.0 : Float).toModel.unpack = .zero .positive := rfl
  rw [hzero] at h
  rw [Unsigned]
  generalize x.toModel.unpack = u at h
  rcases u with s | _ | s | ⟨s, m, e, hm⟩
  case notANumber => simp [sign?]
  all_goals
    cases s with
    | positive => simp [sign?]
    | negative => cases h

/-- A product of unsigned numbers is unsigned. -/
theorem Unsigned.mul (hx : Unsigned x) (hy : Unsigned y) : Unsigned (x * y) :=
  unsigned_pack (ne_negative rfl (sign?_mul x.toModel.unpack y.toModel.unpack) hx hy)

/-- A quotient of unsigned numbers is unsigned. -/
theorem Unsigned.div (hx : Unsigned x) (hy : Unsigned y) : Unsigned (x / y) :=
  unsigned_pack (ne_negative rfl (sign?_div x.toModel.unpack y.toModel.unpack) hx hy)

/-- A word that is made a number is unsigned. -/
theorem unsigned_toFloat (n : UInt64) : Unsigned n.toFloat := by
  refine unsigned_pack (u := UnpackedFloat.normalize .binary64 (n.toNat : Int) 0 .positive) ?_
  rw [UnpackedFloat.normalize]
  split
  · next hcompare => exact absurd (Int.compare_eq_lt.1 hcompare) (by omega)
  · simp [sign?]
  · simp

/-- An unsigned number is brought to an unsigned whole one. -/
theorem Unsigned.toWhole {mode : Sign → Rounding} (hx : Unsigned x) :
    Unsigned (Binary64.toWhole mode x) := by
  rw [Binary64.toWhole]
  split
  · next s m e hm hu =>
    split
    · exact hx
    · cases s with
      | positive => exact unsigned_toFloat _
      | negative =>
        rw [Unsigned, hu] at hx
        exact absurd rfl hx
  · exact hx

/-- So is the nearest whole number. -/
theorem Unsigned.round (hx : Unsigned x) : Unsigned (Binary64.round x) :=
  hx.toWhole

/-- The number nearest to a magnitude is unsigned. -/
theorem unsigned_nearest (m : Nat) (e : Int) : Unsigned (nearest .positive m e) := by
  rw [nearest]
  split
  · exact unsigned_pack (by simp [sign?])
  · exact unsigned_pack (by simp)

/-- An exponential is unsigned. -/
theorem unsigned_exp (x : Float) : Unsigned (exp x) := by
  have hzero : Unsigned 0.0 := unsigned_pack (u := .zero .positive) (by simp [sign?])
  have hone : Unsigned 1.0 := unsigned_of_pos (by decide)
  have hinfinity : Unsigned (1.0 / 0.0) := hone.div hzero
  rw [exp]
  split
  · next hu => simp [Unsigned, hu, sign?]
  · next hu => simp [Unsigned, hu, sign?]
  · exact hzero
  · exact hone
  · split
    · exact hinfinity
    · split
      · exact hzero
      · exact unsigned_nearest _ _

/-! ## Truncation -/

/-- What is unsigned is not truncated to a negative integer. -/
theorem Unsigned.le_truncate (hx : Unsigned x) : 0 ≤ (truncate x).toInt := by
  have hint : 0 ≤ x.toModel.unpack.toInt Int64.minValue.toInt Int64.maxValue.toInt := by
    rw [Unsigned] at hx
    generalize x.toModel.unpack = u at hx
    cases u with
    | notANumber | zero => exact le_rfl
    | infinity s =>
      cases s with
      | positive => decide
      | negative => exact absurd rfl hx
    | finite s m e hm =>
      cases s with
      | positive => exact Int.natCast_nonneg _
      | negative => exact absurd rfl hx
  show 0 ≤ (Int64.ofIntClamp (x.toModel.unpack.toInt _ _)).toInt
  generalize x.toModel.unpack.toInt Int64.minValue.toInt Int64.maxValue.toInt = z at hint
  have hmin : Int64.minValue.toInt ≤ z := le_trans (by decide) hint
  by_cases hmax : z ≤ Int64.maxValue.toInt
  · rwa [Int64.toInt_ofIntClamp hmin hmax]
  · rw [Int64.ofIntClamp, dif_pos hmin, dif_neg hmax]
    decide

end SearchSpace.Binary64
