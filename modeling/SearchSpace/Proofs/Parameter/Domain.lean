import Mathlib.Data.List.Nodup
import SearchSpace.Parameter.Domain
import SearchSpace.Proofs.Interval

/-!
# Values of a domain

No domain admits the mark of an inactive parameter (`Domain.not_admits_inactive`), so that a value
of a domain and the mark cannot be mistaken for each other. A listed domain holds each value in a
form that it keeps (`Domain.canonical?_canonical?`). An integer is on the grid of a range if the
distance between points divides that from the lower bound (`IntRange.onGrid_iff`). An integer that is
drawn for a range or a listed set gives an admitted value or that mark (`Domain.ofScalar_admits`),
also where the check against the domain is skipped because the bounds of the draw lie inside it.
-/

namespace SearchSpace

/-- No member of a list in which nothing is wrong is the mark of an inactive parameter. -/
theorem ValueSet.not_mem_of_firstFault? {values before : List Value}
    (h : firstFault? before values = none) : Value.inactive ∉ values := by
  induction values generalizing before with
  | nil => exact List.not_mem_nil
  | cons v values ih =>
    unfold firstFault? at h
    split at h
    · cases h
    · next hv =>
      split at h
      · cases h
      · intro hmem
        rcases List.mem_cons.1 hmem with rfl | hmem
        · exact hv rfl
        · exact ih h hmem

/-- In a list in which nothing is wrong no value stands twice, nor stands before. -/
theorem ValueSet.nodup_of_firstFault? {values before : List Value}
    (h : firstFault? before values = none) : values.Nodup ∧ ∀ v ∈ values, v ∉ before := by
  induction values generalizing before with
  | nil => exact ⟨List.nodup_nil, fun v hv => absurd hv List.not_mem_nil⟩
  | cons v values ih =>
    unfold firstFault? at h
    split at h
    · cases h
    · split at h
      · cases h
      · next hbefore =>
        obtain ⟨hnodup, hnew⟩ := ih h
        refine ⟨List.nodup_cons.2 ⟨fun hv => hnew v hv List.mem_cons_self, hnodup⟩, ?_⟩
        intro w hw
        rcases List.mem_cons.1 hw with rfl | hw
        · exact hbefore
        · exact fun hmem => hnew w hw (List.mem_cons_of_mem v hmem)

/-- Nothing is wrong in the list of a set. -/
theorem ValueSet.firstFault?_values (s : ValueSet) : firstFault? [] s.values = none := by
  have h := s.valid
  unfold fault? at h
  split at h
  · cases h
  · split at h
    · cases h
    · assumption

/-- The mark of an inactive parameter is in no listed set. -/
@[simp] theorem ValueSet.position?_inactive (s : ValueSet) : s.position? .inactive = none := by
  have hnot := not_mem_of_firstFault? s.firstFault?_values
  rw [position?, List.findIdx?_eq_none_iff]
  intro v hv
  exact decide_eq_false fun heq => hnot (heq ▸ hv)

/-- The place of a value is the one at which it stands. -/
theorem ValueSet.position?_eq_some_iff {s : ValueSet} {v : Value} {i : Nat} :
    s.position? v = some i ↔ s.values[i]? = some v := by
  have hnodup := (nodup_of_firstFault? s.firstFault?_values).1
  rw [position?, List.findIdx?_eq_some_iff_getElem, List.getElem?_eq_some_iff]
  constructor
  · rintro ⟨hi, hv, -⟩
    exact ⟨hi, of_decide_eq_true hv⟩
  · rintro ⟨hi, rfl⟩
    refine ⟨hi, decide_eq_true rfl, fun j hj => ?_⟩
    rw [decide_eq_true_eq, List.Nodup.getElem_inj_iff hnodup]
    exact Nat.ne_of_lt hj

/-- A member of a set stands in its list. -/
theorem ValueSet.mem_of_position? {s : ValueSet} {v : Value} (h : (s.position? v).isSome = true) :
    v ∈ s.values := by
  obtain ⟨i, hi⟩ := Option.isSome_iff_exists.1 h
  exact List.mem_of_getElem? (position?_eq_some_iff.1 hi)

/-- A member of a set of numbers is a number. -/
theorem NumberSet.isNumeric_of_mem {s : NumberSet} {v : Value} (h : v ∈ s.values) :
    v.isNumeric = true := by
  have hone := s.one_type
  rw [areNumbersOfOneType, List.all_eq_true] at hone
  exact (Bool.and_eq_true_iff.1 (hone v h)).1

/-- Two values have the same place in a set if they are the same. -/
theorem ValueSet.position?_inj {s : ValueSet} {v w : Value} {i j : Nat}
    (hv : s.position? v = some i) (hw : s.position? w = some j) : i = j ↔ v = w := by
  constructor
  · rintro rfl
    rw [position?_eq_some_iff] at hv hw
    exact Option.some.inj (hv.symm.trans hw)
  · rintro rfl
    exact Option.some.inj (hv.symm.trans hw)

/-- No domain admits the mark of an inactive parameter. -/
@[simp] theorem Domain.not_admits_inactive (d : Domain) : d.admits .inactive = false := by
  cases d with
  | categorical s | ordinal s => simp only [admits, s.position?_inactive]; rfl
  | discrete s => simp only [admits, s.toValueSet.position?_inactive]; rfl
  | ints | floats | text => rfl

/-! ## Listed domains -/

/-- The form in which a listed domain holds a value is a member, which it holds as it is. -/
theorem Domain.canonical?_canonical? {d : Domain} {s : ValueSet} {v w : Value}
    (hset : d.set? = some s) (h : d.canonical? v = some w) :
    (s.position? w).isSome = true ∧ d.canonical? w = some w := by
  cases d with
  | ints r | floats r | text => cases hset
  | categorical s' | ordinal s' =>
    cases hset
    obtain ⟨i, hi, rfl⟩ := Option.map_eq_some_iff.1 h
    simp only [canonical?, hi]
    exact ⟨rfl, rfl⟩
  | discrete s' =>
    cases hset
    have hmember : (s'.position? w).isSome = true := by
      simp only [canonical?] at h
      split at h
      · next hv =>
        cases h
        exact hv
      · obtain ⟨u, -, hu⟩ := Option.bind_eq_some_iff.1 h
        obtain ⟨i, hi, rfl⟩ := Option.map_eq_some_iff.1 hu
        rw [hi]
        rfl
    refine ⟨hmember, ?_⟩
    simp only [canonical?, hmember, reduceIte]

/-- The place of a value in a listed domain is that of the form in which the domain holds it. -/
theorem Domain.indexOf?_eq {d : Domain} {s : ValueSet} (hset : d.set? = some s) (v : Value) :
    d.indexOf? v = (d.canonical? v).bind s.position? := by
  simp only [indexOf?, hset]
  rfl

/-- A ranked domain holds its values as they are. -/
theorem Domain.indexOf?_ordinal (s : ValueSet) (v : Value) :
    (ordinal s).indexOf? v = s.position? v := by
  rw [indexOf?_eq rfl, canonical?]
  cases h : s.position? v with
  | none => rfl
  | some i => exact h

/-! ## Drawn numbers -/

namespace IntRange

variable {r : IntRange} {n : Int64}

/-- How far a point of the grid of a range is from the next. -/
def gap (r : IntRange) : Int :=
  max r.step.toInt 1

/-- A point of the grid is not the next. -/
theorem gap_pos (r : IntRange) : 0 < r.gap := by
  rw [gap]
  omega

/-- An integer is on the grid if the distance between points divides that from the lower bound. -/
theorem onGrid_iff : r.onGrid n = true ↔ r.gap ∣ n.toInt - r.lower.toInt := by
  rw [onGrid, Bool.or_eq_true, decide_eq_true_eq, beq_iff_eq, Int64.le_iff_toInt_le,
    ← Int.dvd_iff_tmod_eq_zero]
  have hone : (1 : Int64).toInt = 1 := by decide
  rw [hone]
  by_cases hsmall : r.step.toInt ≤ 1
  · have hgap : r.gap = 1 := by
      rw [gap]
      omega
    rw [hgap]
    exact iff_of_true (.inl hsmall) (Int.one_dvd _)
  · have hgap : r.gap = r.step.toInt := by
      rw [gap]
      omega
    rw [hgap]
    exact or_iff_right hsmall

/-- An integer of a range is brought down to one that the range admits. -/
theorem snap?_admits (h : r.interval.contains (.int n) = true) :
    ∃ m, r.snap? (.int n) = some m ∧ r.admits m = true := by
  obtain ⟨hlower, hupper⟩ := Interval.contains_ints.1 h
  have hgap := r.gap_pos
  have hmul := Int.ediv_mul_le (n.toInt - r.lower.toInt) (Int.ne_of_gt hgap)
  have hnonneg : 0 ≤ (n.toInt - r.lower.toInt) / r.gap * r.gap :=
    Int.mul_nonneg (Int.ediv_nonneg (by omega) (by omega)) (by omega)
  have hfits : r.lower.toInt + (n.toInt - r.lower.toInt) / r.gap * r.gap < r.upper.toInt := by omega
  obtain ⟨m, hm⟩ : ∃ m : Int64, m.toInt =
      r.lower.toInt + (n.toInt - r.lower.toInt) / r.gap * r.gap :=
    ⟨_, @Integer.toInt_ofInt_of_between r.lower r.upper _ (by omega) hfits⟩
  refine ⟨m, Integer.fit?_eq_some_iff.2 hm, ?_⟩
  rw [admits, Bool.and_eq_true, onGrid_iff]
  refine ⟨Interval.contains_ints.2 ⟨by omega, by omega⟩, (n.toInt - r.lower.toInt) / r.gap, ?_⟩
  rw [Int.mul_comm, hm]
  omega

/-- An integer that a range admits is brought down to itself. -/
theorem snap?_of_admits (h : r.admits n = true) : r.snap? (.int n) = some n := by
  rw [admits, Bool.and_eq_true, onGrid_iff] at h
  refine Integer.fit?_eq_some_iff.2 ?_
  show n.toInt = r.lower.toInt + (n.toInt - r.lower.toInt) / r.gap * r.gap
  rw [Int.ediv_mul_cancel h.2]
  omega

end IntRange

/-- The member of a set at a drawn place is one that the set has a position for. -/
theorem ValueSet.position?_of_get? {s : ValueSet} {x : Scalar} {v : Value}
    (h : s.get? x = some v) : (s.position? v).isSome = true := by
  obtain ⟨place, -, hplace⟩ := Option.bind_eq_some_iff.1 h
  rw [position?, List.findIdx?_isSome, List.any_eq_true]
  exact ⟨v, List.mem_of_getElem? hplace, decide_eq_true rfl⟩

/-- An integer that is drawn within some bounds gives an admitted value or none, if it is checked
against the domain where the bounds exceed that. -/
theorem Domain.ofScalar_admits {d : Domain} {bound : Interval} {x : Scalar}
    (hx : bound.ContainsInt x) (hd : ∀ r, d ≠ .floats r) :
    d.ofScalar (d.isExceededBy bound) x = .inactive ∨
      d.admits (d.ofScalar (d.isExceededBy bound) x) = true := by
  obtain ⟨n, rfl, hn⟩ := hx
  have hset : ∀ s : ValueSet, (s.get? (.int n)).getD .inactive = .inactive ∨
      (s.position? ((s.get? (.int n)).getD .inactive)).isSome = true := by
    intro s
    cases hget : s.get? (.int n) with
    | none => exact .inl rfl
    | some v => exact .inr (ValueSet.position?_of_get? hget)
  cases d with
  | floats r => exact absurd rfl (hd r)
  | categorical s | ordinal s => exact hset s
  | discrete s => exact hset s.toValueSet
  | text => exact .inl rfl
  | ints r =>
    by_cases hcovers : r.interval.contains (.int n) = true
    · obtain ⟨m, hm, hadmits⟩ := r.snap?_admits hcovers
      right
      simp only [ofScalar, IntRange.covers, hcovers, hm, Bool.not_true, Bool.and_false]
      exact hadmits
    · -- the check is skipped only where every number of the bounds lies in the range
      left
      have hexceeded : (Domain.ints r).isExceededBy bound = true := by
        cases hincludes : r.interval.includes bound with
        | true => exact absurd (Interval.contains_of_includes hincludes hn) hcovers
        | false => simp [isExceededBy, interval?, hincludes]
      simp [ofScalar, IntRange.covers, hcovers, hexceeded]

end SearchSpace
