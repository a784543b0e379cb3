import SearchSpace.Proofs.Binary64.Packing

/-!
# The nearest number

`IsNearest x q` says that `x` is the rational `q` rounded to binary64. There is one such `x`, and a
positive finite number is the one nearest to its own value (`isNearest_of_unpack`). Products and
quotients of numbers, and whole numbers made numbers, are the nearest to what they stand for.
-/

namespace SearchSpace.Binary64

open Float.Model
open Float.Model.UnpackedFloat

/-- A number is the one nearest to a rational. -/
def IsNearest (x : Float) (q : ℚ) : Prop :=
  ∃ u, Rounds u q ∧ x = .ofModel (.pack u)

/-- There is one nearest number. -/
theorem IsNearest.unique {x y : Float} {q : ℚ} (hx : IsNearest x q) (hy : IsNearest y q) :
    x = y := by
  obtain ⟨u, hu, rfl⟩ := hx
  obtain ⟨v, hv, rfl⟩ := hy
  rw [hu.unique hv]

/-- A positive number is the one nearest to its value. -/
theorem isNearest_of_unpack {x : Float} {m : Nat} {e : Int} {hm : 0 < m}
    (h : x.toModel.unpack = .finite .positive m e hm) : IsNearest x (m * 2 ^ e) :=
  ⟨_, (isCanonical_of_unpack h).rounds, eq_ofModel_pack h⟩

/-- The number nearest to a canonical one is that one. -/
theorem IsNearest.unpack_eq {x : Float} {q : ℚ} {m : Nat} {e : Int} (h : IsNearest x q)
    (hcanonical : IsCanonical m e) (hq : (m : ℚ) * 2 ^ e = q) :
    x.toModel.unpack = .finite .positive m e hcanonical.pos := by
  obtain ⟨u, hu, rfl⟩ := h
  rw [hu.unique (hq ▸ hcanonical.rounds)]
  exact unpack_pack .positive hcanonical

/-- What compares equal to a positive number is that number. -/
theorem eq_of_beq_finite {x y : Float} {m : Nat} {e : Int} {hm : 0 < m}
    (hy : y.toModel.unpack = .finite .positive m e hm) (h : (x == y) = true) : x = y := by
  have hbeq : x.toModel.unpack.beq (.finite .positive m e hm) = true := by
    rw [← hy]
    exact h
  rcases (beq_iff_ne_notANumber_and_eq _ _).1 hbeq with ⟨-, -, hx | ⟨-, hzero⟩ | ⟨-, hzero⟩⟩
  · exact (eq_ofModel_pack hx).trans (eq_ofModel_pack hy).symm
  · cases hzero
  · cases hzero

/-! ## Whole numbers -/

/-- A whole number of at most 53 bits times a power of two has a canonical form with 53 bits. -/
theorem exists_full {c : Nat} {k : Int} (hpos : 0 < c) (hlt : c < 2 ^ 53) (hk : -1022 ≤ k)
    (hk' : k ≤ 971) :
    ∃ m e, IsCanonical m e ∧ 2 ^ 52 ≤ m ∧ (m : ℚ) * 2 ^ e = c * 2 ^ k := by
  have hlog : c.log2 < 53 := (Nat.log2_lt hpos.ne').2 hlt
  obtain ⟨s, hs⟩ : ∃ s, c.log2 + s = 52 := ⟨52 - c.log2, by omega⟩
  have hfull : 2 ^ 52 ≤ c <<< s := le_shiftLeft hpos (by omega)
  have hbits : c <<< s < 2 ^ 53 := by
    calc c <<< s = c * 2 ^ s := Nat.shiftLeft_eq c s
      _ < 2 ^ (c.log2 + 1) * 2 ^ s := Nat.mul_lt_mul_of_pos_right Nat.lt_log2_self (by positivity)
      _ = 2 ^ 53 := by rw [← Nat.pow_add, Nat.add_right_comm, hs]
  refine ⟨c <<< s, k - s, ⟨by omega, hbits, by omega, by omega, .inr hfull⟩, hfull, ?_⟩
  rw [Nat.shiftLeft_eq, zpow_sub₀ (by norm_num), zpow_natCast]
  push_cast
  field_simp

/-- Such a number is unpacked to that form. -/
theorem unpack_round {c : Nat} {k : Int} (hpos : 0 < c) (hlt : c < 2 ^ 53) (hk : -1022 ≤ k)
    (hk' : k ≤ 971) :
    ∃ (m : Nat) (e : Int) (hm : 0 < m), 2 ^ 52 ≤ m ∧ (m : ℚ) * 2 ^ e = c * 2 ^ k ∧
      (Float.ofModel (.pack (UnpackedFloat.round .binary64 .positive c k))).toModel.unpack =
        .finite .positive m e hm := by
  obtain ⟨m, e, hcanonical, hfull, hvalue⟩ := exists_full hpos hlt hk hk'
  have hnearest : IsNearest (.ofModel (.pack (UnpackedFloat.round .binary64 .positive c k)))
      (c * 2 ^ k) := ⟨_, rounds_round hpos, rfl⟩
  exact ⟨m, e, hcanonical.pos, hfull, hvalue, hnearest.unpack_eq hcanonical hvalue⟩

/-- A whole number is made a number by rounding it. -/
theorem toFloat_toUInt64 {n : Nat} (hpos : 0 < n) (hlt : n < 2 ^ 64) :
    n.toUInt64.toFloat = .ofModel (.pack (UnpackedFloat.round .binary64 .positive n 0)) := by
  have hn : n.toUInt64.toNat = n := by
    show (UInt64.ofNat n).toNat = n
    rw [UInt64.toNat_ofNat', Nat.mod_eq_of_lt hlt]
  have hcompare : compare (n : Int) 0 = .gt := Int.compare_eq_gt.2 (by omega)
  show Float.ofModel (.pack
    (UnpackedFloat.normalize .binary64 (n.toUInt64.toNat : Int) 0 .positive)) = _
  rw [hn, UnpackedFloat.normalize, hcompare]
  rfl

/-! ## Products and quotients -/

/-- A product with enough bits is the number nearest to the product of the values. -/
theorem isNearest_mul {x y : Float} {m m' : Nat} {e e' : Int} {hm : 0 < m} {hm' : 0 < m'}
    (hx : x.toModel.unpack = .finite .positive m e hm)
    (hy : y.toModel.unpack = .finite .positive m' e' hm') (h : 2 ^ 52 ≤ m * m') :
    IsNearest (x * y) (m * 2 ^ e * (m' * 2 ^ e')) := by
  refine ⟨_, rounds_mul hm hm' h, ?_⟩
  rw [← hx, ← hy]
  rfl

/-- A quotient is the number nearest to the quotient of the values. -/
theorem isNearest_div {x y : Float} {m m' : Nat} {e e' : Int} {hm : 0 < m} {hm' : 0 < m'}
    (hx : x.toModel.unpack = .finite .positive m e hm)
    (hy : y.toModel.unpack = .finite .positive m' e' hm') :
    IsNearest (x / y) (m * 2 ^ e / (m' * 2 ^ e')) := by
  refine ⟨_, rounds_div hm hm', ?_⟩
  rw [← hx, ← hy]
  rfl

end SearchSpace.Binary64
