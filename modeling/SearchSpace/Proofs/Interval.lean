import SearchSpace.Interval
import SearchSpace.Integer

/-!
# Intervals as sets of numbers

Inclusion and union of intervals agree with membership: a number in an interval of integers that is
included in another lies in that one too (`Interval.contains_of_includes`), and a number in one of
two intervals lies in their union (`Interval.contains_union`).
-/

namespace SearchSpace

/-- An integer between two of 64 bits is one of 64 bits. -/
theorem Integer.toInt_ofInt_of_between {lower upper : Int64} {z : Int} (hlower : lower.toInt ≤ z)
    (hupper : z < upper.toInt) : (Int64.ofInt z).toInt = z := by
  have := lower.le_toInt
  have := upper.toInt_lt
  exact Int64.toInt_ofInt_of_le (by omega) (by omega)

namespace Span

/-! ## Hulls -/

section Hull

variable {α : Type} {key : α → Int} {s t : Span α} {v : α}

/-- A value lies in a span if it is above the lower bound and below the upper bound, or is a bound
that belongs to the span. -/
theorem contains_iff : s.contains key v = true ↔
    (key s.lower < key v ∨ s.lowerIncluded = true ∧ key s.lower = key v) ∧
      (key v < key s.upper ∨ s.upperIncluded = true ∧ key v = key s.upper) := by
  simp only [contains, Bool.and_eq_true, Bool.or_eq_true, decide_eq_true_eq, beq_iff_eq]

/-- The lower bound of a hull is the lesser one, and it belongs to the hull if it belongs to a span
of which it is the lower bound. -/
theorem hull_lower : key (s.hull key t).lower = min (key s.lower) (key t.lower) ∧
    ((s.hull key t).lowerIncluded = true ↔
      s.lowerIncluded = true ∧ key s.lower ≤ key t.lower ∨
        t.lowerIncluded = true ∧ key t.lower ≤ key s.lower) := by
  rcases Int.lt_trichotomy (key s.lower) (key t.lower) with hlt | heq | hgt
  · simp only [hull, Int.compare_eq_lt.2 hlt]
    exact ⟨by omega, by grind⟩
  · simp only [hull, Int.compare_eq_eq.2 heq]
    exact ⟨by omega, by grind⟩
  · simp only [hull, Int.compare_eq_gt.2 hgt]
    exact ⟨by omega, by grind⟩

/-- The upper bound of a hull is the greater one, and it belongs to the hull if it belongs to a span
of which it is the upper bound. -/
theorem hull_upper : key (s.hull key t).upper = max (key s.upper) (key t.upper) ∧
    ((s.hull key t).upperIncluded = true ↔
      s.upperIncluded = true ∧ key t.upper ≤ key s.upper ∨
        t.upperIncluded = true ∧ key s.upper ≤ key t.upper) := by
  rcases Int.lt_trichotomy (key s.upper) (key t.upper) with hlt | heq | hgt
  · simp only [hull, Int.compare_eq_lt.2 hlt]
    exact ⟨by omega, by grind⟩
  · simp only [hull, Int.compare_eq_eq.2 heq]
    exact ⟨by omega, by grind⟩
  · simp only [hull, Int.compare_eq_gt.2 hgt]
    exact ⟨by omega, by grind⟩

/-- The values of two spans lie in their hull. -/
theorem contains_hull (h : s.contains key v = true ∨ t.contains key v = true) :
    (s.hull key t).contains key v = true := by
  obtain ⟨hlower, hlowerIncluded⟩ := @hull_lower α key s t
  obtain ⟨hupper, hupperIncluded⟩ := @hull_upper α key s t
  rw [contains_iff, hlower, hupper, hlowerIncluded, hupperIncluded]
  rcases h with h | h <;> rw [contains_iff] at h <;> grind

end Hull

/-! ## Spans of integers -/

/-- An integer lies in a span of integers if it lies between the closed bounds. -/
theorem contains_iff_closed {s : Span Int64} {n : Int64} :
    s.contains Int64.toInt n = true ↔ s.closed.1 ≤ n.toInt ∧ n.toInt ≤ s.closed.2 := by
  rw [contains_iff, closed]
  cases s.lowerIncluded <;> cases s.upperIncluded <;> simp <;> omega

/-- No integer lies in an empty span. -/
theorem not_contains_of_isEmptyInt {s : Span Int64} (h : s.isEmptyInt = true) (n : Int64) :
    s.contains Int64.toInt n = false := by
  rw [isEmptyInt, decide_eq_true_eq] at h
  rw [Bool.eq_false_iff, ne_eq, contains_iff_closed]
  omega

/-- No number lies in an empty span of binary64 numbers. -/
theorem not_contains_of_isEmptyFloat {s : Span Float} (h : s.isEmptyFloat = true) (x : Float) :
    s.contains Binary64.orderKey x = false := by
  rw [Bool.eq_false_iff, ne_eq, contains_iff]
  rcases Int.lt_trichotomy (Binary64.orderKey s.lower) (Binary64.orderKey s.upper) with
    hlt | heq | hgt
  · simp only [isEmptyFloat, Int.compare_eq_lt.2 hlt] at h
    cases h
  · simp only [isEmptyFloat, Int.compare_eq_eq.2 heq] at h
    grind
  · omega

end Span

namespace Interval

variable {i j u : Interval} {x : Scalar}

/-- The integers from a lower bound on and below an upper one. -/
theorem contains_ints {lower upper n : Int64} : (ints lower upper).contains (.int n) = true ↔
    lower.toInt ≤ n.toInt ∧ n.toInt < upper.toInt := by
  rw [ints, contains, Span.contains_iff_closed]
  exact and_congr_right fun _ => Int.le_sub_one_iff

/-- A number is an integer in an interval. -/
def ContainsInt (i : Interval) (x : Scalar) : Prop :=
  ∃ n, x = .int n ∧ i.contains (.int n) = true

/-- No number lies in an empty interval. -/
theorem not_contains_of_isEmpty (h : i.isEmpty = true) : i.contains x = false := by
  cases i with
  | int s =>
    cases x with
    | int n => exact Span.not_contains_of_isEmptyInt h n
    | float x => rfl
  | float s =>
    cases x with
    | int n => rfl
    | float x => rw [contains, Span.not_contains_of_isEmptyFloat h x, Bool.and_false]

/-- Intervals of the same kind have a union, of that kind. -/
theorem exists_union (h : i.type = j.type) : ∃ u, i.union j = .ok u ∧ u.type = i.type := by
  cases i with
  | int s =>
    cases j with
    | int t =>
      refine ⟨_, rfl, ?_⟩
      split
      · rfl
      · split <;> rfl
    | float t => cases h
  | float s =>
    cases j with
    | int t => cases h
    | float t =>
      refine ⟨_, rfl, ?_⟩
      split
      · rfl
      · split <;> rfl

/-- A number in one of two intervals lies in their union. -/
theorem contains_union (hunion : i.union j = .ok u)
    (h : i.contains x = true ∨ j.contains x = true) : u.contains x = true := by
  have hi : i.isEmpty = true → j.contains x = true := fun hempty =>
    h.resolve_left fun hx => Bool.false_ne_true ((not_contains_of_isEmpty hempty).symm.trans hx)
  have hj : j.isEmpty = true → i.contains x = true := fun hempty =>
    h.resolve_right fun hx => Bool.false_ne_true ((not_contains_of_isEmpty hempty).symm.trans hx)
  cases i with
  | int s =>
    cases j with
    | int t =>
      cases hunion
      split
      · next hempty => exact hi hempty
      · split
        · next hempty => exact hj hempty
        · cases x with
          | int n => exact Span.contains_hull h
          | float x => exact h.elim id id
    | float t => cases hunion
  | float s =>
    cases j with
    | int t => cases hunion
    | float t =>
      cases hunion
      split
      · next hempty => exact hi hempty
      · split
        · next hempty => exact hj hempty
        · cases x with
          | int n => exact h.elim id id
          | float x =>
            simp only [contains, Bool.and_eq_true] at h ⊢
            exact ⟨h.elim And.left And.left, Span.contains_hull (h.imp And.right And.right)⟩

/-- An integer in an interval that is included in another lies in that one too. -/
theorem contains_of_includes {n : Int64} (h : i.includes j = true)
    (hn : j.contains (.int n) = true) : i.contains (.int n) = true := by
  unfold includes at h
  split at h
  · next hempty =>
    rw [not_contains_of_isEmpty hempty] at hn
    cases hn
  · split at h
    · cases h
    · cases j with
      | float t => cases hn
      | int t =>
        cases i with
        | float s => cases h
        | int s =>
          simp only [Span.coversInt, Bool.and_eq_true, decide_eq_true_eq] at h
          obtain ⟨hlower, hupper⟩ := Span.contains_iff_closed.1 hn
          exact Span.contains_iff_closed.2 ⟨by omega, by omega⟩

end Interval

end SearchSpace
