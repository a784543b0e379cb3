import SearchSpace.Binary64.SignedFloat
import SearchSpace.Proofs.Binary64.Value

/-!
# Numbers and the two infinities

Every number but not-a-number stands for a rational or for one of the two infinities
(`extended`), and numbers compare as these do (`order?_eq_cmp_extended`). Two numbers that compare
as equal are the same or the two zeros (`eq_or_zeros_of_order?`).
-/

namespace SearchSpace.Binary64

open Float.Model
open Float.Model.UnpackedFloat

/-- What a number stands for that is not not-a-number. -/
def extended (x : Float) : WithBot (WithTop ℚ) :=
  match x.toModel.unpack with
  | .infinity .negative => ⊥
  | .infinity .positive => ((⊤ : WithTop ℚ) : WithBot (WithTop ℚ))
  | _ => ((value x : WithTop ℚ) : WithBot (WithTop ℚ))

variable {x y : Float}

/-- A finite number stands for its value. -/
theorem extended_of_isFinite (h : x.isFinite = true) :
    extended x = ((value x : WithTop ℚ) : WithBot (WithTop ℚ)) := by
  rw [extended]
  rcases exists_of_isFinite h with ⟨s, hu⟩ | ⟨s, m, e, hc, hu⟩ <;> rw [hu]

/-- A number is finite, an infinity, or not-a-number. -/
theorem isFinite_or_exists_infinity (h : x.isNaN = false) :
    x.isFinite = true ∨ ∃ s, x.toModel.unpack = .infinity s := by
  have hnan : x.toModel.unpack.isNaN = false := h
  show x.toModel.unpack.isFinite = true ∨ _
  cases hu : x.toModel.unpack with
  | zero s | finite s m e hm => exact .inl rfl
  | infinity s => exact .inr ⟨s, rfl⟩
  | notANumber =>
    rw [hu] at hnan
    cases hnan

/-- A finite number and an infinity compare as what they stand for. -/
theorem order?_infinity {t : Sign} (hx : x.isFinite = true)
    (hy : y.toModel.unpack = .infinity t) :
    order? x y = some (cmp (extended x) (extended y)) := by
  have hvalue := extended_of_isFinite hx
  rw [hvalue, order?, extended, hy]
  cases t with
  | positive =>
    rw [(cmp_eq_lt_iff _ _).2 (WithBot.coe_lt_coe.2 (WithTop.coe_lt_top _))]
    rcases exists_of_isFinite hx with ⟨s, hu⟩ | ⟨s, m, e, hc, hu⟩ <;> rw [hu] <;> rfl
  | negative =>
    rw [(cmp_eq_gt_iff _ _).2 (WithBot.bot_lt_coe _)]
    rcases exists_of_isFinite hx with ⟨s, hu⟩ | ⟨s, m, e, hc, hu⟩ <;> rw [hu] <;> rfl

/-- Numbers compare as what they stand for. -/
theorem order?_eq_cmp_extended (hx : x.isNaN = false) (hy : y.isNaN = false) :
    order? x y = some (cmp (extended x) (extended y)) := by
  rcases isFinite_or_exists_infinity hx with hfx | ⟨s, hu⟩ <;>
    rcases isFinite_or_exists_infinity hy with hfy | ⟨t, hv⟩
  · have hmono : StrictMono fun q : ℚ => ((q : WithTop ℚ) : WithBot (WithTop ℚ)) :=
      WithBot.coe_strictMono.comp WithTop.coe_strictMono
    rw [order?_eq_cmp hfx hfy, extended_of_isFinite hfx, extended_of_isFinite hfy]
    exact congrArg some (hmono.cmp_map_eq _ _).symm
  · exact order?_infinity hfx hv
  · rw [order?_swap y x, order?_infinity hfy hu, Option.map_some, cmp_swap]
  · rw [order?, extended, extended, hu, hv]
    cases s <;> cases t <;> rfl

/-- Numbers that have an order are not not-a-number. -/
theorem isNaN_of_order? {o : Ordering} (h : order? x y = some o) :
    x.isNaN = false ∧ y.isNaN = false := by
  show x.toModel.unpack.isNaN = false ∧ y.toModel.unpack.isNaN = false
  rw [order?] at h
  generalize x.toModel.unpack = u at h
  generalize y.toModel.unpack = v at h
  cases u <;> cases v <;> first | exact ⟨rfl, rfl⟩ | cases h

/-- Two numbers that compare as equal are the same, or the two zeros. -/
theorem eq_or_zeros_of_order? (h : order? x y = some .eq) :
    x = y ∨ (x = 0.0 ∧ y = -0.0) ∨ (x = -0.0 ∧ y = 0.0) := by
  rcases (beq_iff_ne_notANumber_and_eq _ _).1 (beq_iff.2 h) with
    ⟨-, -, hu | ⟨hu, hv⟩ | ⟨hu, hv⟩⟩
  · exact .inl ((eq_ofModel_pack hu).trans (eq_ofModel_pack rfl).symm)
  · exact .inr (.inl ⟨eq_ofModel_pack hu, eq_ofModel_pack hv⟩)
  · exact .inr (.inr ⟨eq_ofModel_pack hu, eq_ofModel_pack hv⟩)

end SearchSpace.Binary64

/-- A number that is not not-a-number has no other sign than its own. -/
theorem SearchSpace.SignedFloat.ofFloat_toFloat {x : SignedFloat} (h : x.toFloat.isNaN = false) :
    ofFloat x.toFloat = x := by
  obtain ⟨x, negative, hvalid⟩ := x
  cases negative with
  | false => rfl
  | true => exact absurd ((hvalid rfl).symm.trans h) (by decide)
