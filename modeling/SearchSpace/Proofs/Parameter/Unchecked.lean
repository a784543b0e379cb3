import SearchSpace.Proofs.Parameter.Domain

/-!
# Draws that need no check

Draws are checked against a domain only if the bounds within which they lie reach outside it. Where
they do not, the check has nothing to find: an integer within the bounds is a number of the range or
the place of a member (`Domain.exists_interval_of_not_isExceededBy`), so that it stands for a value
of the domain, with the check and without (`Domain.ofScalars_unchecked`). For a range that value is
the greatest one up to the integer (`IntRange.snap?_greatest`).
-/

namespace SearchSpace

/-- An integer of a range is brought down to the greatest integer up to it that the range admits. -/
theorem IntRange.snap?_greatest {r : IntRange} {n : Int64}
    (h : r.interval.contains (.int n) = true) :
    ∃ m, r.snap? (.int n) = some m ∧ r.admits m = true ∧ m ≤ n ∧
      ∀ k, r.admits k = true → k ≤ n → k ≤ m := by
  obtain ⟨m, hm, hadmits⟩ := r.snap?_admits h
  have hgap := r.gap_pos
  have hvalue : m.toInt = r.lower.toInt + (n.toInt - r.lower.toInt) / r.gap * r.gap :=
    Integer.fit?_eq_some_iff.1 hm
  have hdown := Int.ediv_mul_le (n.toInt - r.lower.toInt) (Int.ne_of_gt hgap)
  refine ⟨m, hm, hadmits, Int64.le_iff_toInt_le.2 (by omega), fun k hk hkn => ?_⟩
  rw [admits, Bool.and_eq_true, onGrid_iff] at hk
  rw [Int64.le_iff_toInt_le] at hkn ⊢
  obtain ⟨steps, hsteps⟩ := hk.2
  rw [Int.mul_comm] at hsteps
  have hle : steps ≤ (n.toInt - r.lower.toInt) / r.gap :=
    (Int.le_ediv_iff_mul_le hgap).2 (by omega)
  have hmul := Int.mul_le_mul_of_nonneg_right hle (Int.le_of_lt hgap)
  omega

/-- There is a member at every place of a set. -/
theorem ValueSet.exists_get? {s : ValueSet} {n : Int64}
    (h : s.interval.contains (.int n) = true) : ∃ v, s.get? (.int n) = some v := by
  obtain ⟨hnonneg, hlt⟩ := Interval.contains_ints.1 h
  rw [size, s.length_fits.2] at hlt
  have hzero : (0 : Int64).toInt = 0 := by decide
  have hplace : n.toInt.toNat < s.values.length := by omega
  refine ⟨s.values[n.toInt.toNat], ?_⟩
  simp only [get?, if_pos (Int64.le_iff_toInt_le.2 hnonneg), Option.bind_some,
    List.getElem?_eq_getElem hplace]

namespace Domain

variable {d : Domain} {bound : Interval} {n : Int64}

/-- An integer within bounds that do not reach outside a domain stands for a value of it. -/
theorem exists_interval_of_not_isExceededBy (h : d.isExceededBy bound = false)
    (hn : bound.contains (.int n) = true) :
    ∃ i, d.interval? = some i ∧ i.contains (.int n) = true := by
  rw [isExceededBy, Bool.not_eq_false', Option.any_eq_true] at h
  obtain ⟨i, hi, hincludes⟩ := h
  exact ⟨i, hi, Interval.contains_of_includes hincludes hn⟩

/-- A member of a listed set that stands for a number is a value of the set. -/
theorem exists_value_of_get? {s : ValueSet} (h : s.interval.contains (.int n) = true) :
    (s.position? ((s.get? (.int n)).getD .inactive)).isSome = true := by
  obtain ⟨v, hv⟩ := s.exists_get? h
  rw [hv]
  exact ValueSet.position?_of_get? hv

/-- An integer within bounds that do not reach outside a domain becomes the same value with and
without the check. The domain admits it, and for a range it is the greatest value up to the
integer. -/
theorem ofScalars_unchecked (h : d.isExceededBy bound = false)
    (hn : bound.contains (.int n) = true) :
    d.ofScalars false [.int n] = d.ofScalars true [.int n] ∧
      ∃ v, d.ofScalars false [.int n] = [v] ∧ v ≠ .inactive ∧ d.admits v = true ∧
        ∀ r, d = .ints r → ∃ m, v = .int m ∧ m ≤ n ∧
          ∀ k, d.admits (.int k) = true → k ≤ n → k ≤ m := by
  obtain ⟨i, hi, hcontains⟩ := exists_interval_of_not_isExceededBy h hn
  have hproper : ∀ v, d.admits v = true → v ≠ .inactive := by
    rintro v hv rfl
    rw [d.not_admits_inactive] at hv
    cases hv
  cases d with
  | ints r =>
    cases hi
    obtain ⟨m, hm, hadmits, hle, hgreatest⟩ := r.snap?_greatest hcontains
    have hvalue : ∀ checked, (ints r).ofScalar checked (.int n) = .int m := by
      intro checked
      simp only [ofScalar, IntRange.covers, hcontains, hm, Bool.not_true, Bool.and_false,
        Bool.false_eq_true, reduceIte]
    refine ⟨?_, .int m, ?_, hproper _ hadmits, hadmits, fun _ _ => ⟨m, rfl, hle, hgreatest⟩⟩
    · rw [ofScalars, ofScalars, List.map_singleton, List.map_singleton, hvalue, hvalue]
    · rw [ofScalars, List.map_singleton, hvalue]
  | floats r =>
    cases hi
    cases hcontains
  | categorical s | ordinal s =>
    cases hi
    have hadmits := exists_value_of_get? hcontains
    exact ⟨rfl, _, rfl, hproper _ hadmits, hadmits, fun _ hr => by cases hr⟩
  | discrete s =>
    cases hi
    have hadmits := exists_value_of_get? hcontains
    exact ⟨rfl, _, rfl, hproper _ hadmits, hadmits, fun _ hr => by cases hr⟩
  | text => cases hi

end Domain

/-- The integers from the least one of 64 bits up to eleven, in steps of six. -/
def IntRange.sixes : IntRange :=
  ⟨Int64.minValue, 12, 6, by decide, by decide⟩

/-- A draw between two points, within bounds of which neither belongs to them. -/
theorem Domain.ofScalars_unchecked_sixes :
    let d := Domain.ints .sixes
    let bound := Interval.int ⟨Int64.minValue, 12, false, false⟩
    d.isExceededBy bound = false ∧ bound.contains (.int 7) = true ∧
      d.ofScalars false [.int 7] = [.int 4] ∧ d.ofScalars true [.int 7] = [.int 4] ∧
      d.admits (.int 4) = true ∧ ∀ k, d.admits (.int k) = true → k ≤ 7 → k ≤ 4 := by
  intro d bound
  have hwithin : d.isExceededBy bound = false := by decide
  have hn : bound.contains (.int 7) = true := by decide
  obtain ⟨hsame, v, hv, -, hadmits, hrange⟩ := ofScalars_unchecked hwithin hn
  have hpoint : d.ofScalars false [.int 7] = [.int 4] := by decide
  cases hpoint.symm.trans hv
  obtain ⟨m, hm, -, hgreatest⟩ := hrange _ rfl
  cases hm
  exact ⟨hwithin, hn, hpoint, hsame ▸ hpoint, hadmits, hgreatest⟩

end SearchSpace
