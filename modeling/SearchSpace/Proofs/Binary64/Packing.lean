import Mathlib
import SearchSpace.Proofs.Binary64.Rounds

/-!
# Packed and unpacked numbers

A number of binary64 is kept as its bits, and unpacked before it is computed with. What is unpacked
is canonical (`isCanonical_of_unpack`), unpacking undoes the packing of what is canonical
(`unpack_pack`), and packing undoes unpacking (`eq_ofModel_pack`). What holds of every format is
known already (`Float.Model.UnpackedFloat.pack_unpack_of_valid`); it comes with Mathlib as a whole
and with no part of it.
-/

namespace SearchSpace.Binary64

open Float.Model
open Float.Model.UnpackedFloat

/-! ## Unpacking -/

/-- An exponent is kept as the sum of it and this number. -/
theorem bias_eq : ((Format.binary64.exponentBias : Int) +
    Format.binary64.mantissaBitsWithoutImplicit) = 1075 := by
  decide

/-- A mantissa with the bit in front of it that is not kept. -/
theorem toNat_implicit (m : BitVec Format.binary64.mantissaBitsWithoutImplicit) :
    (1#1 ++ m).toNat = 2 ^ 52 + m.toNat := by
  rw [BitVec.toNat_append, ← Nat.shiftLeft_add_eq_or_of_lt m.isLt]
  rfl

/-- What is unpacked is canonical. -/
theorem isCanonical_of_unpack {b : BitVec Format.binary64.numBits} {s : Sign} {m : Nat} {e : Int}
    {hm : 0 < m} (h : UnpackedFloat.unpack .binary64 b = .finite s m e hm) : IsCanonical m e := by
  have hmantissa : (unpackMantissa b).toNat < 2 ^ 52 := (unpackMantissa b).isLt
  have hexponent : (unpackExponent b).toNat < 2 ^ 11 := (unpackExponent b).isLt
  rw [UnpackedFloat.unpack, bias_eq] at h
  split at h
  · split at h <;> cases h
  · next hspecial =>
    split at h
    · next hzero =>
      split at h
      · cases h
      · cases h
        rw [hzero]
        exact ⟨hm, by omega, by decide, by decide, .inl (by decide)⟩
    · next hzero =>
      cases h
      have hpos : (unpackExponent b).toNat ≠ 0 := fun heq => hzero (BitVec.eq_of_toNat_eq heq)
      have hlt : (unpackExponent b).toNat ≠ 2047 := fun heq => hspecial (BitVec.eq_of_toNat_eq heq)
      rw [toNat_implicit] at hm ⊢
      exact ⟨hm, by omega, by omega, by omega, .inr (by omega)⟩

/-! ## Packing -/

/-- How a finite number is packed. -/
theorem pack_finite (s : Sign) {m : Nat} {e : Int} {hm : 0 < m} :
    UnpackedFloat.pack .binary64 (.finite s m e hm) =
      if 2 ^ 11 ≤ (e + 1075).toNat + 1 then packedInfinity .binary64 s
      else if m.log2 + 1 = 53 then
        packComponents .binary64 s (BitVec.ofNat 11 (e + 1075).toNat) (BitVec.ofNat 52 m)
      else packComponents .binary64 s 0#11 (BitVec.ofNat 52 m) := by
  have hbias : e + Format.binary64.exponentBias + Format.binary64.mantissaBitsWithoutImplicit =
      e + 1075 := by
    rw [Int.add_assoc]
    rfl
  rw [← hbias]
  rfl

/-- A mantissa of 53 bits is packed with its exponent. -/
theorem pack_normal (s : Sign) {m : Nat} {e : Int} {hm : 0 < m} (hlog : m.log2 = 52)
    (he : e ≤ 971) : UnpackedFloat.pack .binary64 (.finite s m e hm) =
      packComponents .binary64 s (BitVec.ofNat 11 (e + 1075).toNat) (BitVec.ofNat 52 m) := by
  rw [pack_finite, if_neg (by omega), if_pos (by omega)]

/-- A mantissa of fewer bits is packed without its exponent. -/
theorem pack_subnormal (s : Sign) {m : Nat} {e : Int} {hm : 0 < m} (hlog : m.log2 ≠ 52)
    (he : e ≤ 971) : UnpackedFloat.pack .binary64 (.finite s m e hm) =
      packComponents .binary64 s 0#11 (BitVec.ofNat 52 m) := by
  rw [pack_finite, if_neg (by omega), if_neg (by omega)]

/-- A finite number is given by its sign, its mantissa and its exponent. -/
theorem finite_congr {s : Sign} {m m' : Nat} {e e' : Int} {hm : 0 < m} {hm' : 0 < m'}
    (h : m = m') (he : e = e') : UnpackedFloat.finite s m e hm = .finite s m' e' hm' := by
  subst h
  subst he
  rfl

/-- How a bit pattern is unpacked that is neither infinite nor not-a-number. -/
theorem unpack_packComponents (s : Sign) (e : BitVec 11) (m : BitVec 52) (he : e ≠ -1#11) :
    UnpackedFloat.unpack .binary64 (packComponents .binary64 s e m) =
      if e = 0#11 then
        if h : m = 0#52 then .zero s
        else .finite s m.toNat (-1074) (by simpa [BitVec.toNat_pos, BitVec.pos_iff_ne_zero] using h)
      else .finite s (2 ^ 52 + m.toNat) (e.toNat - 1075) (by omega) := by
  rw [UnpackedFloat.unpack, bias_eq]
  simp only [unpackSign_packComponents, unpackExponent_packComponents,
    unpackMantissa_packComponents, Sign.ofBitVec_toBitVec]
  rw [if_neg he]
  split
  · next hzero =>
    split
    · rfl
    · refine finite_congr rfl ?_
      rw [hzero]
      rfl
  · exact finite_congr (toNat_implicit m) rfl

/-- Unpacking undoes the packing of a canonical number. -/
theorem unpack_pack (s : Sign) {m : Nat} {e : Int} (h : IsCanonical m e) :
    UnpackedFloat.unpack .binary64 (UnpackedFloat.pack .binary64 (.finite s m e h.pos)) =
      .finite s m e h.pos := by
  have hleast := h.least_le
  have hgreatest := h.le_greatest
  have hpos := h.pos
  have hlt := h.lt
  by_cases hlog : m.log2 = 52
  · have hfull : 2 ^ 52 ≤ m := (Nat.le_log2 h.pos.ne').1 hlog.ge
    have hexponent : (BitVec.ofNat 11 (e + 1075).toNat).toNat = (e + 1075).toNat := by
      rw [BitVec.toNat_ofNat, Nat.mod_eq_of_lt (by omega)]
    have hspecial : BitVec.ofNat 11 (e + 1075).toNat ≠ -1#11 := by
      intro heq
      have hnat : (e + 1075).toNat = 2047 := hexponent ▸ congrArg BitVec.toNat heq
      omega
    have hzero : BitVec.ofNat 11 (e + 1075).toNat ≠ 0#11 := by
      intro heq
      have hnat : (e + 1075).toNat = 0 := hexponent ▸ congrArg BitVec.toNat heq
      omega
    rw [pack_normal s hlog hgreatest, unpack_packComponents _ _ _ hspecial, if_neg hzero]
    refine finite_congr ?_ ?_
    · rw [BitVec.toNat_ofNat]
      omega
    · rw [hexponent]
      omega
  · have hlt : m < 2 ^ 52 := by
      by_contra hfull
      have hlog' := (Nat.le_log2 h.pos.ne').2 (Nat.not_lt.1 hfull)
      have hlog'' := (Nat.log2_lt h.pos.ne').2 h.lt
      omega
    have hmantissa : (BitVec.ofNat 52 m).toNat = m := by
      rw [BitVec.toNat_ofNat, Nat.mod_eq_of_lt hlt]
    have hne : BitVec.ofNat 52 m ≠ 0#52 := by
      intro heq
      have hnat : m = 0 := hmantissa ▸ congrArg BitVec.toNat heq
      omega
    rw [pack_subnormal s hlog hgreatest, unpack_packComponents _ _ _ (by decide), if_pos rfl,
      dif_neg hne]
    exact finite_congr hmantissa (h.full.resolve_right (Nat.not_le.2 hlt)).symm

/-- A number is packed from what it is unpacked to. -/
theorem eq_ofModel_pack {x : Float} {u : UnpackedFloat} (h : x.toModel.unpack = u) :
    x = .ofModel (.pack u) := by
  obtain ⟨⟨⟨b⟩, hvalid⟩⟩ := x
  rw [← h]
  show _ = Float.ofModel
    ⟨.ofBitVec (UnpackedFloat.pack .binary64 (UnpackedFloat.unpack .binary64 b)), _⟩
  congr
  exact (pack_unpack_of_valid hvalid).symm

/-- The magnitude of a number with a mantissa is unpacked with a positive sign. -/
theorem unpack_abs {x : Float} {s : Sign} {m : Nat} {e : Int} {hm : 0 < m}
    (h : x.toModel.unpack = .finite s m e hm) :
    x.abs.toModel.unpack = .finite .positive m e hm := by
  show (Float.Model.pack x.toModel.unpack.abs).unpack = _
  rw [h]
  exact unpack_pack .positive (isCanonical_of_unpack h)

end SearchSpace.Binary64
