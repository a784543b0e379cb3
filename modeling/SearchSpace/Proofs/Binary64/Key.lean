import SearchSpace.Proofs.Binary64.Value

/-!
# The order of all numbers

`orderKey` orders numbers by their bits. For finite numbers that is the order of what they stand for
(`orderKey_lt`), but for the zeros, of which the negative one comes first (`orderKey_le`).
-/

namespace SearchSpace.Binary64

open Float.Model
open Float.Model.UnpackedFloat

variable {x y : Float}

/-- The bit of a sign. -/
def signBit : Sign → Nat
  | .negative => 1
  | .positive => 0

/-- The place of a magnitude with a sign among all numbers. -/
def signedKey : Sign → Nat → Int
  | .negative, n => -(n : Int) - 1
  | .positive, n => n

/-- A bit pattern is a sign, an exponent and a mantissa. -/
theorem toNat_packComponents (s : Sign) (e : BitVec 11) (m : BitVec 52) :
    (packComponents .binary64 s e m).toNat =
      signBit s * 2 ^ 63 + (e.toNat * 2 ^ 52 + m.toNat) := by
  have hsign : s.toBitVec.toNat = signBit s := by cases s <;> rfl
  show ((s.toBitVec ++ e) ++ m).toNat = _
  rw [BitVec.toNat_append, ← Nat.shiftLeft_add_eq_or_of_lt m.isLt, BitVec.toNat_append,
    ← Nat.shiftLeft_add_eq_or_of_lt e.isLt, Nat.shiftLeft_eq, Nat.shiftLeft_eq, hsign]
  ring

/-- The bits of a number are those that it is packed to. -/
theorem toNat_toBits (x : Float) :
    x.toBits.toNat = (UnpackedFloat.pack .binary64 x.toModel.unpack).toNat := by
  obtain ⟨⟨⟨b⟩, hvalid⟩⟩ := x
  exact congrArg BitVec.toNat (pack_unpack_of_valid hvalid).symm

/-- The first bit of a number is its sign, and the others are its magnitude. -/
theorem orderKey_of_toBits {s : Sign} {n : Nat} (hn : n < 2 ^ 63)
    (h : x.toBits.toNat = signBit s * 2 ^ 63 + n) : orderKey x = signedKey s n := by
  have hmagnitude : (magnitudeBits x).toNat = n := by
    have hmask : (0x7FFFFFFFFFFFFFFF : UInt64).toNat = 2 ^ 63 - 1 := rfl
    rw [magnitudeBits, UInt64.toNat_and, hmask, Nat.and_two_pow_sub_one_eq_mod, h,
      Nat.mul_add_mod', Nat.mod_eq_of_lt hn]
  have hbit : signBit s < 2 := by cases s <;> decide
  have hsign : isNegative x = decide (signBit s = 1) := by
    rw [isNegative, Bool.eq_iff_iff, beq_iff_eq, decide_eq_true_eq, ← UInt64.toNat_inj,
      UInt64.toNat_shiftRight, h]
    show _ >>> 63 = 1 ↔ _
    rw [Nat.shiftRight_eq_div_pow]
    omega
  rw [orderKey, hsign, hmagnitude]
  cases s <;> rfl

/-- The key of a zero. -/
theorem orderKey_of_zero {s : Sign} (h : x.toModel.unpack = .zero s) :
    orderKey x = signedKey s 0 := by
  refine orderKey_of_toBits (by decide) ?_
  rw [toNat_toBits, h]
  exact toNat_packComponents s 0#11 0#52

/-- The key of a finite number that is no zero. -/
theorem orderKey_of_unpack {s : Sign} {m : Nat} {e : Int} {hm : 0 < m}
    (h : x.toModel.unpack = .finite s m e hm) :
    orderKey x = signedKey s ((e + 1074).toNat * 2 ^ 52 + m) := by
  have hc := isCanonical_of_unpack h
  have hlt := hc.lt
  have hleast := hc.least_le
  have hgreatest := hc.le_greatest
  refine orderKey_of_toBits (by omega) ?_
  rw [toNat_toBits, h]
  by_cases hlog : m.log2 = 52
  · have hfull : 2 ^ 52 ≤ m := (Nat.le_log2 hm.ne').1 hlog.ge
    rw [pack_normal s hlog hgreatest, toNat_packComponents, BitVec.toNat_ofNat,
      BitVec.toNat_ofNat]
    omega
  · have hsmall : m < 2 ^ 52 := by
      by_contra hfull
      have hlog' := (Nat.le_log2 hm.ne').2 (Nat.not_lt.1 hfull)
      have hlog'' := (Nat.log2_lt hm.ne').2 hlt
      omega
    have hexponent : e = -1074 := hc.full.resolve_right (Nat.not_le.2 hsmall)
    have hmantissa : (BitVec.ofNat 52 m).toNat = m := by
      rw [BitVec.toNat_ofNat, Nat.mod_eq_of_lt hsmall]
    rw [pack_subnormal s hlog hgreatest, toNat_packComponents, hmantissa, hexponent]
    rfl

/-- A lesser magnitude has a lesser place. -/
theorem IsCanonical.key_lt {m m' : Nat} {e e' : Int} (h : IsCanonical m e)
    (h' : IsCanonical m' e') (hlt : (m : ℚ) * 2 ^ e < m' * 2 ^ e') :
    (e + 1074).toNat * 2 ^ 52 + m < (e' + 1074).toNat * 2 ^ 52 + m' := by
  have horder : e < e' ∨ e = e' ∧ m < m' := by
    by_contra hnot
    rcases Int.lt_trichotomy e e' with hlt' | heq | hgt
    · exact hnot (.inl hlt')
    · rcases Nat.lt_trichotomy m m' with hm | hm | hm
      · exact hnot (.inr ⟨heq, hm⟩)
      · exact hlt.ne (by rw [heq, hm])
      · exact hlt.not_gt (h'.value_lt h (.inr ⟨heq.symm, hm⟩))
    · exact hlt.not_gt (h'.value_lt h (.inl hgt))
  have hleast := h.least_le
  have hm := h.lt
  rcases horder with he | ⟨rfl, hlt⟩
  · have hfull := h'.full.resolve_left (by omega)
    omega
  · omega

/-- A finite number that stands for less comes before. -/
theorem orderKey_lt (hx : x.isFinite = true) (hy : y.isFinite = true) (h : value x < value y) :
    orderKey x < orderKey y := by
  rw [value, value] at h
  rcases exists_of_isFinite hx with ⟨s, hu⟩ | ⟨s, m, e, hc, hu⟩ <;>
    rcases exists_of_isFinite hy with ⟨s', hv⟩ | ⟨s', m', e', hc', hv⟩ <;> rw [hu, hv] at h
  · exact absurd h (lt_irrefl _)
  · have hpos := hc'.pos
    rw [orderKey_of_zero hu, orderKey_of_unpack hv]
    cases s' with
    | positive => cases s <;> simp only [signedKey] <;> omega
    | negative => exact absurd h (neg_neg_of_pos hc'.value_pos).not_gt
  · have hpos := hc.pos
    rw [orderKey_of_unpack hu, orderKey_of_zero hv]
    cases s with
    | positive => exact absurd h hc.value_pos.not_gt
    | negative => cases s' <;> simp only [signedKey] <;> omega
  · rw [orderKey_of_unpack hu, orderKey_of_unpack hv]
    cases s with
    | positive =>
      cases s' with
      | positive => exact Int.ofNat_lt.2 (hc.key_lt hc' h)
      | negative => exact absurd h ((neg_neg_of_pos hc'.value_pos).trans hc.value_pos).not_gt
    | negative =>
      cases s' with
      | positive =>
        simp only [signedKey]
        omega
      | negative =>
        have hkey := hc'.key_lt hc (neg_lt_neg_iff.1 h)
        simp only [signedKey]
        omega

/-- A finite number that stands for no more comes before or has the same place, unless it is the
positive zero and the other one is the negative. -/
theorem orderKey_le (hx : x.isFinite = true) (hy : y.isFinite = true) (h : value x ≤ value y)
    (hzero : x = 0.0 → y ≠ -0.0) : orderKey x ≤ orderKey y := by
  rcases h.lt_or_eq with hlt | heq
  · exact (orderKey_lt hx hy hlt).le
  · by_cases hne : value x = 0
    · rcases eq_zero_of_value_eq_zero hx hne with rfl | rfl <;>
        rcases eq_zero_of_value_eq_zero hy (heq.symm.trans hne) with rfl | rfl
      · exact le_rfl
      · exact absurd rfl (hzero rfl)
      · decide
      · exact le_rfl
    · rw [eq_of_value_eq hx hy heq hne]

end SearchSpace.Binary64
