import SearchSpace.Binary64.Rounding

/-!
# Comparing numbers of binary64

Each of `<`, `≤` and `==` reads one outcome off the comparison of two numbers, and of two numbers in
the other order the outcome is the other way round (`compare_swap`).
-/

namespace SearchSpace.Binary64

open Float.Model

/-- The outcome of comparing two numbers; there is none with not-a-number. -/
def order? (x y : Float) : Option Ordering :=
  x.toModel.unpack.compare y.toModel.unpack

/-- A number is less than another one if the comparison says so. -/
theorem lt_iff {x y : Float} : x < y ↔ order? x y = some .lt := by
  show decide (x.toModel < y.toModel) = true ↔ _
  rw [decide_eq_true_iff]
  show (order? x y == some .lt) = true ↔ _
  exact beq_iff_eq

/-- A number is at most another one if the comparison says so. -/
theorem le_iff {x y : Float} : x ≤ y ↔ order? x y = some .lt ∨ order? x y = some .eq := by
  show decide (x.toModel ≤ y.toModel) = true ↔ _
  rw [decide_eq_true_iff]
  show (order? x y).any (·.isLE) = true ↔ _
  cases order? x y with
  | none => simp
  | some o => cases o <;> simp

/-- Two numbers are equal if the comparison says so. -/
theorem beq_iff {x y : Float} : (x == y) = true ↔ order? x y = some .eq := by
  show (order? x y == some .eq) = true ↔ _
  exact beq_iff_eq

/-- In the other order the outcome is the other way round. -/
theorem order?_swap (x y : Float) : order? y x = (order? x y).map Ordering.swap := by
  simp only [order?]
  rcases x.toModel.unpack with s | _ | s | ⟨s, m, e, hm⟩ <;>
    rcases y.toModel.unpack with t | _ | t | ⟨t, n, d, hn⟩ <;> try cases s <;> try cases t
  all_goals try rfl
  all_goals
    dsimp only [UnpackedFloat.compare]
    simp only [Option.map_some, Ordering.swap_then, Int.compare_swap, Nat.compare_swap]

/-- Numbers that are not not-a-number have an order. -/
theorem exists_order? {x y : Float} (hx : x.isNaN = false) (hy : y.isNaN = false) :
    ∃ o, order? x y = some o := by
  have hx' : x.toModel.unpack.isNaN = false := hx
  have hy' : y.toModel.unpack.isNaN = false := hy
  simp only [order?]
  generalize x.toModel.unpack = u at hx'
  generalize y.toModel.unpack = v at hy'
  cases u with
  | notANumber => cases hx'
  | infinity s | zero s | finite s m e hm =>
    cases v with
    | notANumber => cases hy'
    | infinity t | zero t | finite t n d hn => cases s <;> cases t <;> exact ⟨_, rfl⟩

/-- A number that is not greater is less or equal. -/
theorem le_of_not_lt {x y : Float} (hx : x.isNaN = false) (hy : y.isNaN = false) (h : ¬y < x) :
    x ≤ y := by
  obtain ⟨o, ho⟩ := exists_order? hx hy
  rw [lt_iff, order?_swap x y, ho] at h
  rw [le_iff, ho]
  cases o with
  | lt => exact .inl rfl
  | eq => exact .inr rfl
  | gt => exact absurd rfl h

end SearchSpace.Binary64
