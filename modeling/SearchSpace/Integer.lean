/-!
# Integers of 64 bits

Arithmetic on integers is done on `Int`, where nothing overflows, and the result is then brought
back to 64 bits. `Integer.fit?` refuses a result that has no 64-bit form.
-/

namespace SearchSpace.Integer

/-- The 64-bit integer that denotes `z`, when there is one. -/
def fit? (z : Int) : Option Int64 :=
  if Int64.minValue.toInt ≤ z ∧ z ≤ Int64.maxValue.toInt then some (Int64.ofInt z) else none

/-- What `fit?` returns denotes the number it was given. -/
theorem toInt_of_fit? {z : Int} {n : Int64} (h : fit? z = some n) : n.toInt = z := by
  unfold fit? at h
  split at h
  · next hz =>
    cases h
    have hmax : Int64.maxValue.toInt = 2 ^ 63 - 1 := by decide
    have hmin : Int64.minValue.toInt = -2 ^ 63 := by decide
    exact Int64.toInt_ofInt_of_le (by omega) (by omega)
  · cases h

/-- A number that some 64-bit integer denotes is never refused. -/
@[simp] theorem fit?_toInt (n : Int64) : fit? n.toInt = some n := by
  rw [fit?, if_pos ⟨n.minValue_le_toInt, n.toInt_le⟩, Int64.ofInt_toInt]

/-- `fit?` succeeds exactly on the numbers that 64-bit integers denote. -/
theorem fit?_eq_some_iff {z : Int} {n : Int64} : fit? z = some n ↔ n.toInt = z :=
  ⟨toInt_of_fit?, fun h => h ▸ fit?_toInt n⟩

end SearchSpace.Integer
