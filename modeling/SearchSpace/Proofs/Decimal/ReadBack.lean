import SearchSpace.Proofs.Decimal.Nearest

/-!
# Numbers read back

The text of a finite number is read as the number (`Layout.exists_signed_numeral`): the numeral that
it is written with, after a minus sign for a negative one, denotes a decimal whose nearest number is
the magnitude of the given one.
-/

namespace SearchSpace.Layout

open Float.Model (UnpackedFloat)
open Binary64

/-! ## Signs -/

/-- A positive number is its magnitude. -/
theorem abs_of_positive {x : Float} {m : Nat} {e : Int} {hm : 0 < m}
    (h : x.toModel.unpack = .finite .positive m e hm) : x.abs = x := by
  rw [eq_ofModel_pack (unpack_abs h)]
  exact (eq_ofModel_pack h).symm

/-- A negative number is its magnitude negated. -/
theorem neg_abs_of_negative {x : Float} {m : Nat} {e : Int} {hm : 0 < m}
    (h : x.toModel.unpack = .finite .negative m e hm) : -x.abs = x := by
  show Float.ofModel (.pack x.abs.toModel.unpack.neg) = x
  rw [unpack_abs h]
  exact (eq_ofModel_pack h).symm

/-! ## Texts -/

/-- The numeral of a zero. -/
def zeroNumeral : Decimal.Numeral := ⟨['0'], some ['0'], none⟩

/-- The numeral of a zero denotes it. -/
theorem toFloat_zeroNumeral :
    zeroNumeral.toDecimal.toFloat = .ofModel (.pack (.zero .positive)) := by
  decide +kernel

/-- The text of a finite number is a numeral with a fraction or an exponent, after a minus sign if
it is negative, and the number that is read from it is the same one. -/
theorem exists_signed_numeral {x : Float} (h : x.isFinite = true) :
    ∃ (negative : Bool) (n : Decimal.Numeral), n.WellFormed ∧
      (n.fraction.isSome = true ∨ n.exponent.isSome = true) ∧
      literal.chars x = (if negative then '-' :: n.chars else n.chars) ∧
      n.toDecimal.toFloat.isFinite = true ∧
      (if negative then -n.toDecimal.toFloat else n.toDecimal.toFloat) = x := by
  have hfinite : x.toModel.unpack.isFinite = true := h
  cases hunpack : x.toModel.unpack with
  | notANumber => rw [hunpack] at hfinite; cases hfinite
  | infinity s => rw [hunpack] at hfinite; cases hfinite
  | zero s =>
    have hzero : zeroNumeral.WellFormed := by
      refine ⟨List.forall_mem_singleton.2 rfl, List.cons_ne_nil _ _, fun cs hcs => ?_⟩
      cases hcs
      exact List.forall_mem_singleton.2 rfl
    have hfinite : zeroNumeral.toDecimal.toFloat.isFinite = true := by
      rw [toFloat_zeroNumeral]
      rfl
    cases s
    · refine ⟨true, zeroNumeral, hzero, .inl rfl, ?_, hfinite, ?_⟩
      · rw [chars, hunpack]
        rfl
      · rw [toFloat_zeroNumeral, eq_ofModel_pack hunpack]
        rfl
    · refine ⟨false, zeroNumeral, hzero, .inl rfl, ?_, hfinite, ?_⟩
      · rw [chars, hunpack]
        rfl
      · rw [toFloat_zeroNumeral, eq_ofModel_pack hunpack]
        rfl
  | finite s m e hm =>
    have habs := unpack_abs hunpack
    obtain ⟨hbelow, hread⟩ := Decimal.shortest_spec .up habs
    obtain ⟨n, hn, hpoint, ⟨k, hk, hvalue⟩, hchars⟩ := exists_numeral (.shortest .up x.abs m e)
    have hfloat : n.toDecimal.toFloat = x.abs := by
      rw [hvalue, hbelow.toFloat_scale hk, hread]
    have hfinite : x.abs.isFinite = true := by
      show x.abs.toModel.unpack.isFinite = true
      rw [habs]
      rfl
    cases s
    · refine ⟨true, n, hn, hpoint, ?_, ?_, ?_⟩
      · rw [chars, hunpack]
        exact congrArg ('-' :: ·) hchars
      · rw [hfloat]
        exact hfinite
      · rw [hfloat]
        exact neg_abs_of_negative hunpack
    · refine ⟨false, n, hn, hpoint, ?_, ?_, ?_⟩
      · rw [chars, hunpack]
        exact hchars
      · rw [hfloat]
        exact hfinite
      · rw [hfloat]
        exact abs_of_positive hunpack

end SearchSpace.Layout
