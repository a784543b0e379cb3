import SearchSpace.Comparison
import SearchSpace.Proofs.Outcome
import SearchSpace.Proofs.Binary64.Extended
import SearchSpace.Proofs.Binary64.Whole

/-!
# Comparing values

Two values that cannot be compared in one order cannot be in the other. Where they can, equality is
the same (`Value.equals_comm`) and the order is the other way round (`Value.compare_swap`). The
errors differ: each names the kinds of the values from left to right.

Not-a-number has no order (`Value.isNaN_of_compare`). Other numbers of one kind compare as what they
denote (`Value.compare_eq_cmp`), and two of them that compare as equal are the same or the two zeros
(`Value.eq_or_areZeros_of_compare`).
-/

namespace SearchSpace.Value

/-- Equality of values does not depend on the side. -/
theorem equals_comm (v w : Value) : (w.equals v).toOption = (v.equals w).toOption := by
  cases v <;> cases w <;> first
    | rfl
    | exact congrArg some (BEq.comm ..)

/-- Numbers in the other order compare the other way round. -/
theorem compareFloats_swap (x y : Float) :
    (compareFloats y x).toOption = (compareFloats x y).toOption.map Ordering.swap := by
  have hswap := Binary64.order?_swap x y
  simp only [compareFloats, Binary64.lt_iff, Binary64.beq_iff, hswap]
  cases Binary64.order? x y with
  | none => rfl
  | some o => cases o <;> rfl

/-- Numbers have the order of the comparison. -/
theorem compareFloats_eq_ok_iff {x y : Float} {o : Ordering} :
    compareFloats x y = .ok o ↔ Binary64.order? x y = some o := by
  have hswap := Binary64.order?_swap x y
  simp only [compareFloats, Binary64.lt_iff, Binary64.beq_iff, hswap]
  cases Binary64.order? x y with
  | none => simp
  | some o' => cases o' <;> simp

/-- Two numbers that are not not-a-number have an order. -/
theorem exists_compareFloats {x y : Float} (hx : x.isNaN = false) (hy : y.isNaN = false) :
    ∃ o, compareFloats x y = .ok o := by
  obtain ⟨o, ho⟩ := Binary64.exists_order? hx hy
  exact ⟨o, compareFloats_eq_ok_iff.2 ho⟩

/-- Values in the other order compare the other way round. -/
theorem compare_swap (v w : Value) :
    (w.compare v).toOption = (v.compare w).toOption.map Ordering.swap := by
  cases v <;> cases w <;> first
    | rfl
    | exact congrArg some Std.OrientedCmp.eq_swap
    | exact compareFloats_swap _ _

/-! ## Not-a-number -/

/-- Whether a value is not-a-number. -/
def isNaN : Value → Bool
  | .float x => x.toFloat.isNaN
  | _ => false

/-- The number of a value that is not not-a-number is not not-a-number either. -/
theorem isNaN_toFloat {v : Value} {x : Scalar} (h : v.scalar? = some x) (hv : v.isNaN = false) :
    x.toFloat.isNaN = false := by
  cases v with
  | int n =>
    cases h
    exact Binary64.isNaN_of_isFinite (Binary64.isFinite_ofInt64 n)
  | float y =>
    cases h
    exact hv
  | none | bool b | string s | object key | inactive => cases h

/-- A number has an order with the values that are numbers. -/
theorem exists_compare_iff {v w : Value} (hnumeric : v.isNumeric = true) (hv : v.isNaN = false)
    (hw : w.isNaN = false) : (∃ o, v.compare w = .ok o) ↔ w.isNumeric = true := by
  have hnumbers : ∀ {x y : Scalar}, v.scalar? = some x → w.scalar? = some y →
      ∃ o, compareFloats x.toFloat y.toFloat = .ok o := fun hx hy =>
    exists_compareFloats (isNaN_toFloat hx hv) (isNaN_toFloat hy hw)
  cases v with
  | int n =>
    cases w with
    | int m => exact iff_of_true ⟨_, rfl⟩ rfl
    | float y => exact iff_of_true (hnumbers rfl rfl) rfl
    | none | bool b | string s | object key | inactive =>
      exact iff_of_false (fun ⟨_, h⟩ => nomatch h) Bool.false_ne_true
  | float x =>
    cases w with
    | int m => exact iff_of_true (hnumbers rfl rfl) rfl
    | float y => exact iff_of_true (hnumbers rfl rfl) rfl
    | none | bool b | string s | object key | inactive =>
      exact iff_of_false (fun ⟨_, h⟩ => nomatch h) Bool.false_ne_true
  | none | bool b | string s | object key | inactive => cases hnumeric

/-- Values that have an order are not not-a-number. -/
theorem isNaN_of_compare {v w : Value} {o : Ordering} (h : v.compare w = .ok o) :
    v.isNaN = false ∧ w.isNaN = false := by
  have hfloats : ∀ {x y : Float}, compareFloats x y = .ok o →
      x.isNaN = false ∧ y.isNaN = false := fun h =>
    Binary64.isNaN_of_order? (compareFloats_eq_ok_iff.1 h)
  cases v with
  | int n =>
    cases w with
    | int m => exact ⟨rfl, rfl⟩
    | float y => exact ⟨rfl, (hfloats h).2⟩
    | none | bool b | string s | object key | inactive => cases h
  | float x =>
    cases w with
    | int m => exact ⟨(hfloats h).1, rfl⟩
    | float y => exact hfloats h
    | none | bool b | string s | object key | inactive => cases h
  | string s =>
    cases w with
    | string t => exact ⟨rfl, rfl⟩
    | none | bool b | int m | float y | object key | inactive => cases h
  | none | bool b | object key | inactive => cases w <;> cases h

/-! ## Numbers of one kind -/

/-- What a number denotes that is not not-a-number. -/
def extended : Value → WithBot (WithTop ℚ)
  | .int n => ((n.toInt : ℚ) : WithTop ℚ)
  | .float x => Binary64.extended x.toFloat
  | _ => ⊥

/-- The two zeros, one after the other. -/
def AreZeros (v w : Value) : Prop :=
  v = .float (.ofFloat 0.0) ∧ w = .float (.ofFloat (-0.0)) ∨
    v = .float (.ofFloat (-0.0)) ∧ w = .float (.ofFloat 0.0)

/-- The two zeros may stand in the other order. -/
theorem AreZeros.symm {v w : Value} (h : v.AreZeros w) : w.AreZeros v :=
  (Or.symm h).imp And.symm And.symm

/-- The two zeros compare as equal. -/
theorem AreZeros.compare {v w : Value} (h : v.AreZeros w) : v.compare w = .ok .eq := by
  rcases h with ⟨rfl, rfl⟩ | ⟨rfl, rfl⟩ <;> decide

/-- The two zeros are two values. -/
theorem AreZeros.ne {v w : Value} (h : v.AreZeros w) : v ≠ w := by
  rcases h with ⟨rfl, rfl⟩ | ⟨rfl, rfl⟩ <;> decide

/-- Numbers of one kind compare as what they denote. -/
theorem compare_eq_cmp {v w : Value} (hnumeric : v.isNumeric = true) (htype : v.type = w.type)
    (hv : v.isNaN = false) (hw : w.isNaN = false) :
    v.compare w = .ok (cmp v.extended w.extended) := by
  cases v with
  | int n =>
    cases w with
    | int m =>
      have hmono : StrictMono fun z : Int => (((z : ℚ) : WithTop ℚ) : WithBot (WithTop ℚ)) :=
        WithBot.coe_strictMono.comp (WithTop.coe_strictMono.comp Int.cast_strictMono)
      exact congrArg Except.ok
        ((cmp_eq_compare n.toInt m.toInt).symm.trans (hmono.cmp_map_eq _ _).symm)
    | none | bool b | float y | string s | object key | inactive => cases htype
  | float x =>
    cases w with
    | float y => exact compareFloats_eq_ok_iff.2 (Binary64.order?_eq_cmp_extended hv hw)
    | none | bool b | int m | string s | object key | inactive => cases htype
  | none | bool b | string s | object key | inactive => cases hnumeric

/-- Numbers of one kind that compare as equal are the same, or the two zeros. -/
theorem eq_or_areZeros_of_compare {v w : Value} (hnumeric : v.isNumeric = true)
    (htype : v.type = w.type) (h : v.compare w = .ok .eq) : v = w ∨ AreZeros v w := by
  cases v with
  | int n =>
    cases w with
    | int m => exact .inl (congrArg _ (Int64.toInt_inj.1 (Int.compare_eq_eq.1 (Except.ok.inj h))))
    | none | bool b | float y | string s | object key | inactive => cases htype
  | float x =>
    cases w with
    | float y =>
      obtain ⟨hx, hy⟩ := isNaN_of_compare h
      have horder : Binary64.order? x.toFloat y.toFloat = some .eq := compareFloats_eq_ok_iff.1 h
      rw [← SignedFloat.ofFloat_toFloat hx, ← SignedFloat.ofFloat_toFloat hy]
      rcases Binary64.eq_or_zeros_of_order? horder with heq | ⟨hx, hy⟩ | ⟨hx, hy⟩
      · exact .inl (by rw [heq])
      · exact .inr (.inl (by rw [hx, hy]; exact ⟨rfl, rfl⟩))
      · exact .inr (.inr (by rw [hx, hy]; exact ⟨rfl, rfl⟩))
    | none | bool b | int m | string s | object key | inactive => cases htype
  | none | bool b | string s | object key | inactive => cases hnumeric

end SearchSpace.Value
