import SearchSpace.Proofs.Interval

/-!
# Operations on intervals as operations on sets

`contains` tells which numbers an interval has, and the operations are those on the sets of these
numbers (`Interval.operations_as_sets`): the overlap has what both have, and the union is the least
interval around both. A span of integers has the integers between its closed bounds, so that it is
empty if it has none and includes another one if it has all of its integers. Between two bounds of
binary64 numbers there may be no number, so that there inclusion of the bounds says more than
inclusion of the numbers.
-/

namespace SearchSpace

namespace Span

section Key

variable {α : Type} {key : α → Int} {c s t : Span α} {v : α}

/-! ## Overlaps -/

/-- The lower bound of an overlap is the greater one, and it belongs to the overlap if it belongs to
each span of which it is the lower bound. -/
theorem overlap_lower : key (s.overlap key t).lower = max (key s.lower) (key t.lower) ∧
    ((s.overlap key t).lowerIncluded = true ↔
      (s.lowerIncluded = true ∨ key s.lower < key t.lower) ∧
        (t.lowerIncluded = true ∨ key t.lower < key s.lower)) := by
  rcases Int.lt_trichotomy (key s.lower) (key t.lower) with hlt | heq | hgt
  · simp only [overlap, Int.compare_eq_lt.2 hlt]
    exact ⟨by omega, by grind⟩
  · simp only [overlap, Int.compare_eq_eq.2 heq]
    exact ⟨by omega, by grind⟩
  · simp only [overlap, Int.compare_eq_gt.2 hgt]
    exact ⟨by omega, by grind⟩

/-- The upper bound of an overlap is the lesser one, and it belongs to the overlap if it belongs to
each span of which it is the upper bound. -/
theorem overlap_upper : key (s.overlap key t).upper = min (key s.upper) (key t.upper) ∧
    ((s.overlap key t).upperIncluded = true ↔
      (s.upperIncluded = true ∨ key t.upper < key s.upper) ∧
        (t.upperIncluded = true ∨ key s.upper < key t.upper)) := by
  rcases Int.lt_trichotomy (key s.upper) (key t.upper) with hlt | heq | hgt
  · simp only [overlap, Int.compare_eq_lt.2 hlt]
    exact ⟨by omega, by grind⟩
  · simp only [overlap, Int.compare_eq_eq.2 heq]
    exact ⟨by omega, by grind⟩
  · simp only [overlap, Int.compare_eq_gt.2 hgt]
    exact ⟨by omega, by grind⟩

/-- The values of an overlap are those that lie in both spans. -/
theorem contains_overlap : (s.overlap key t).contains key v = true ↔
    s.contains key v = true ∧ t.contains key v = true := by
  obtain ⟨hlower, hlowerIncluded⟩ := @overlap_lower α key s t
  obtain ⟨hupper, hupperIncluded⟩ := @overlap_upper α key s t
  rw [contains_iff, contains_iff, contains_iff, hlower, hupper, hlowerIncluded, hupperIncluded]
  grind

/-! ## Bounds within bounds -/

/-- A span covers another one if each bound of that one lies within its own, or is its own and
belongs to it if it belongs to that one. -/
theorem covers_iff : s.covers key t = true ↔
    (key s.lower < key t.lower ∨
        key s.lower = key t.lower ∧ (t.lowerIncluded = true → s.lowerIncluded = true)) ∧
      (key t.upper < key s.upper ∨
        key t.upper = key s.upper ∧ (t.upperIncluded = true → s.upperIncluded = true)) := by
  have himp : ∀ a b : Bool, (a || !b) = true ↔ (b = true → a = true) := by decide
  simp only [covers, Bool.and_eq_true, Bool.or_eq_true (decide _), decide_eq_true_eq, beq_iff_eq,
    himp]

/-- A span has the values of every span that it covers. -/
theorem contains_of_covers (h : s.covers key t = true) (hv : t.contains key v = true) :
    s.contains key v = true := by
  rw [covers_iff] at h
  rw [contains_iff] at hv ⊢
  grind

/-- A hull covers both spans. -/
theorem hull_covers : (s.hull key t).covers key s = true ∧ (s.hull key t).covers key t = true := by
  obtain ⟨hlower, hlowerIncluded⟩ := @hull_lower α key s t
  obtain ⟨hupper, hupperIncluded⟩ := @hull_upper α key s t
  rw [covers_iff, covers_iff, hlower, hupper, hlowerIncluded, hupperIncluded]
  grind

/-- What covers two spans covers their hull. -/
theorem covers_hull (hs : c.covers key s = true) (ht : c.covers key t = true) :
    c.covers key (s.hull key t) = true := by
  obtain ⟨hlower, hlowerIncluded⟩ := @hull_lower α key s t
  obtain ⟨hupper, hupperIncluded⟩ := @hull_upper α key s t
  rw [covers_iff] at hs ht
  rw [covers_iff, hlower, hupper, hlowerIncluded, hupperIncluded]
  grind

end Key

/-! ## Spans of integers -/

section Integers

variable {s t : Span Int64}

/-- A span of integers that is not empty has its least closed bound and its greatest. -/
theorem contains_closed (h : s.isEmptyInt = false) :
    ∃ l u : Int64, l.toInt = s.closed.1 ∧ u.toInt = s.closed.2 ∧
      s.contains Int64.toInt l = true ∧ s.contains Int64.toInt u = true := by
  rw [isEmptyInt, decide_eq_false_iff_not] at h
  have hlower : s.lower.toInt ≤ s.closed.1 := by
    simp only [closed]
    split <;> omega
  have hupper : s.closed.2 ≤ s.upper.toInt := by
    simp only [closed]
    split <;> omega
  have hleast := s.lower.le_toInt
  have hgreatest := s.upper.toInt_lt
  obtain ⟨l, hl⟩ : ∃ l : Int64, l.toInt = s.closed.1 :=
    ⟨_, Int64.toInt_ofInt_of_le (by omega) (by omega)⟩
  obtain ⟨u, hu⟩ : ∃ u : Int64, u.toInt = s.closed.2 :=
    ⟨_, Int64.toInt_ofInt_of_le (by omega) (by omega)⟩
  exact ⟨l, u, hl, hu, contains_iff_closed.2 (by omega), contains_iff_closed.2 (by omega)⟩

/-- A span of integers is empty if it has no integer. -/
theorem isEmptyInt_iff : s.isEmptyInt = true ↔ ∀ n, s.contains Int64.toInt n = false := by
  refine ⟨not_contains_of_isEmptyInt, fun h => ?_⟩
  cases hempty : s.isEmptyInt with
  | true => rfl
  | false =>
    obtain ⟨l, -, -, -, hl, -⟩ := contains_closed hempty
    exact (h l).symm.trans hl

/-- A span of integers includes another one by their closed bounds. -/
theorem coversInt_iff_closed : s.coversInt t = true ↔
    s.closed.1 ≤ t.closed.1 ∧ t.closed.2 ≤ s.closed.2 := by
  rw [coversInt, Bool.and_eq_true, decide_eq_true_eq, decide_eq_true_eq]

/-- A span of integers includes one that is not empty if it has all of its integers. -/
theorem coversInt_iff (h : t.isEmptyInt = false) : s.coversInt t = true ↔
    ∀ n, t.contains Int64.toInt n = true → s.contains Int64.toInt n = true := by
  rw [coversInt_iff_closed]
  constructor
  · intro hcovers n hn
    rw [contains_iff_closed] at hn ⊢
    omega
  · intro hall
    obtain ⟨l, u, hl, hu, hlower, hupper⟩ := contains_closed h
    have hleast := contains_iff_closed.1 (hall l hlower)
    have hgreatest := contains_iff_closed.1 (hall u hupper)
    omega

/-- The closed bounds of a hull are the lesser lower one and the greater upper one. -/
theorem closed_hull : (s.hull Int64.toInt t).closed.1 = min s.closed.1 t.closed.1 ∧
    (s.hull Int64.toInt t).closed.2 = max s.closed.2 t.closed.2 := by
  obtain ⟨hlower, hlowerIncluded⟩ := @hull_lower Int64 Int64.toInt s t
  obtain ⟨hupper, hupperIncluded⟩ := @hull_upper Int64 Int64.toInt s t
  simp only [closed, hlower, hupper, hlowerIncluded, hupperIncluded]
  grind

end Integers

/-- A span of binary64 numbers is not empty if its bounds are in order, and belong to it where they
are the same. -/
theorem isEmptyFloat_eq_false {s : Span Float} : s.isEmptyFloat = false ↔
    Binary64.orderKey s.lower < Binary64.orderKey s.upper ∨
      Binary64.orderKey s.lower = Binary64.orderKey s.upper ∧
        s.lowerIncluded = true ∧ s.upperIncluded = true := by
  rcases Int.lt_trichotomy (Binary64.orderKey s.lower) (Binary64.orderKey s.upper) with
    hlt | heq | hgt
  · simp only [isEmptyFloat, Int.compare_eq_lt.2 hlt, hlt, true_or]
  · simp only [isEmptyFloat, Int.compare_eq_eq.2 heq, Bool.not_eq_false', Bool.and_eq_true]
    exact ⟨fun h => .inr ⟨heq, h⟩, fun h => (h.resolve_left (by omega)).2⟩
  · simp only [isEmptyFloat, Int.compare_eq_gt.2 hgt, Bool.true_eq_false, false_iff]
    omega

/-- The hull of a span of binary64 numbers that is not empty is not empty either. -/
theorem isEmptyFloat_of_covers {s t : Span Float} (h : s.covers Binary64.orderKey t = true)
    (ht : t.isEmptyFloat = false) : s.isEmptyFloat = false := by
  rw [covers_iff] at h
  rw [isEmptyFloat_eq_false] at ht ⊢
  grind

end Span

namespace Interval

variable {a b c : Interval}

/-! ## Inclusion -/

/-- An interval of integers includes another one if that one is empty or has its closed bounds
within those of the interval. -/
theorem includes_int_iff {s t : Span Int64} : (int s).includes (int t) = true ↔
    t.isEmptyInt = true ∨ s.coversInt t = true := by
  unfold includes
  by_cases ht : (int t).isEmpty = true
  · rw [if_pos ht]
    exact iff_of_true rfl (.inl ht)
  · rw [if_neg ht]
    by_cases hs : (int s).isEmpty = true
    · rw [if_pos hs]
      simp only [isEmpty, Span.isEmptyInt, decide_eq_true_eq] at hs ht
      simp only [Span.isEmptyInt, Span.coversInt, Bool.and_eq_true, decide_eq_true_eq,
        Bool.false_eq_true, false_iff]
      omega
    · rw [if_neg hs]
      exact (or_iff_right ht).symm

/-- An interval of binary64 numbers includes another one if that one is empty or has its bounds
within those of the interval. -/
theorem includes_float_iff {s t : Span Float} : (float s).includes (float t) = true ↔
    t.isEmptyFloat = true ∨ s.covers Binary64.orderKey t = true := by
  unfold includes
  by_cases ht : (float t).isEmpty = true
  · rw [if_pos ht]
    exact iff_of_true rfl (.inl ht)
  · rw [if_neg ht]
    by_cases hs : (float s).isEmpty = true
    · rw [if_pos hs]
      refine iff_of_false Bool.false_ne_true fun h => ?_
      have hcovers := h.resolve_left ht
      have hnot := Span.isEmptyFloat_of_covers hcovers (Bool.eq_false_iff.2 ht)
      exact Bool.false_ne_true (hnot.symm.trans hs)
    · rw [if_neg hs]
      exact (or_iff_right ht).symm

/-- An interval includes every empty one. -/
theorem includes_of_isEmpty (h : b.isEmpty = true) : a.includes b = true :=
  if_pos h

/-- An interval includes itself. -/
theorem includes_self (a : Interval) : a.includes a = true := by
  cases a with
  | int s =>
    exact includes_int_iff.2 (.inr (Span.coversInt_iff_closed.2 ⟨Int.le_refl _, Int.le_refl _⟩))
  | float s => exact includes_float_iff.2 (.inr (Span.covers_iff.2 ⟨.inr ⟨rfl, id⟩, .inr ⟨rfl, id⟩⟩))

/-- An interval that includes one that is not empty is of its kind. -/
theorem type_eq_of_includes (h : a.includes b = true) (hb : b.isEmpty = false) :
    a.type = b.type := by
  unfold includes at h
  rw [if_neg (Bool.eq_false_iff.1 hb)] at h
  split at h
  · cases h
  · cases a <;> cases b <;> first | rfl | cases h

/-- An interval has the numbers of every interval that it includes. -/
theorem contains_of_mem_included {x : Scalar} (h : a.includes b = true)
    (hx : b.contains x = true) : a.contains x = true := by
  have hb : b.isEmpty = false := by
    cases hempty : b.isEmpty with
    | false => rfl
    | true => exact hx.symm.trans (not_contains_of_isEmpty hempty)
  have htype := type_eq_of_includes h hb
  cases b with
  | int t =>
    cases x with
    | int n => exact contains_of_includes h hx
    | float x => cases hx
  | float t =>
    cases a with
    | int s => cases htype
    | float s =>
      cases x with
      | int n => cases hx
      | float x =>
        have hcovers := (includes_float_iff.1 h).resolve_left (Bool.eq_false_iff.1 hb)
        rw [contains, Bool.and_eq_true] at hx ⊢
        exact ⟨hx.1, Span.contains_of_covers hcovers hx.2⟩

/-- An interval of integers includes another one if it has all of its integers. -/
theorem includes_of_contains (ha : a.type = .int) (hb : b.type = .int)
    (h : ∀ x, b.contains x = true → a.contains x = true) : a.includes b = true := by
  cases a with
  | float s => cases ha
  | int s =>
    cases b with
    | float t => cases hb
    | int t =>
      cases ht : t.isEmptyInt with
      | true => exact includes_of_isEmpty ht
      | false => exact includes_int_iff.2 (.inr ((Span.coversInt_iff ht).2 fun n => h (.int n)))

/-- An interval of integers is empty if it has none. -/
theorem isEmpty_iff (h : a.type = .int) : a.isEmpty = true ↔ ∀ x, a.contains x = false := by
  refine ⟨fun hempty x => not_contains_of_isEmpty hempty, fun hall => ?_⟩
  cases a with
  | float s => cases h
  | int s => exact Span.isEmptyInt_iff.2 fun n => hall (.int n)

/-! ## Overlaps and unions -/

/-- The overlap of two intervals of one kind has the numbers that both have. -/
theorem exists_intersect (h : a.type = b.type) : ∃ i, a.intersect b = .ok i ∧
    ∀ x, i.contains x = true ↔ a.contains x = true ∧ b.contains x = true := by
  cases a with
  | int s =>
    cases b with
    | float t => cases h
    | int t =>
      refine ⟨_, rfl, fun x => ?_⟩
      cases x with
      | int n => exact Span.contains_overlap
      | float x => exact iff_of_false Bool.false_ne_true fun hx => Bool.false_ne_true hx.1
  | float s =>
    cases b with
    | int t => cases h
    | float t =>
      refine ⟨_, rfl, fun x => ?_⟩
      cases x with
      | int n => exact iff_of_false Bool.false_ne_true fun hx => Bool.false_ne_true hx.1
      | float x =>
        simp only [contains, Bool.and_eq_true, Span.contains_overlap]
        exact ⟨fun hx => ⟨⟨hx.1, hx.2.1⟩, hx.1, hx.2.2⟩, fun hx => ⟨hx.1.1, hx.1.2, hx.2.2⟩⟩

/-- The union of two intervals that are not empty includes both, and what includes both includes
it. -/
theorem exists_hull (h : a.type = b.type) (ha : a.isEmpty = false) (hb : b.isEmpty = false) :
    ∃ u, a.union b = .ok u ∧ u.includes a = true ∧ u.includes b = true ∧
      ∀ c : Interval, c.includes a = true → c.includes b = true → c.includes u = true := by
  cases a with
  | int s =>
    cases b with
    | float t => cases h
    | int t =>
      obtain ⟨hlower, hupper⟩ := @Span.closed_hull s t
      refine ⟨int (s.hull Int64.toInt t), ?_, ?_, ?_, fun c hs ht => ?_⟩
      · simp only [union, ha, hb, Bool.false_eq_true, reduceIte]
      · exact includes_int_iff.2 (.inr (Span.coversInt_iff_closed.2 (by omega)))
      · exact includes_int_iff.2 (.inr (Span.coversInt_iff_closed.2 (by omega)))
      · cases c with
        | float c => cases type_eq_of_includes hs ha
        | int c =>
          have hs := Span.coversInt_iff_closed.1
            ((includes_int_iff.1 hs).resolve_left (Bool.eq_false_iff.1 ha))
          have ht := Span.coversInt_iff_closed.1
            ((includes_int_iff.1 ht).resolve_left (Bool.eq_false_iff.1 hb))
          exact includes_int_iff.2 (.inr (Span.coversInt_iff_closed.2 (by omega)))
  | float s =>
    cases b with
    | int t => cases h
    | float t =>
      obtain ⟨hcoversLeft, hcoversRight⟩ := @Span.hull_covers Float Binary64.orderKey s t
      refine ⟨float (s.hull Binary64.orderKey t), ?_, ?_, ?_, fun c hs ht => ?_⟩
      · simp only [union, ha, hb, Bool.false_eq_true, reduceIte]
      · exact includes_float_iff.2 (.inr hcoversLeft)
      · exact includes_float_iff.2 (.inr hcoversRight)
      · cases c with
        | int c => cases type_eq_of_includes hs ha
        | float c =>
          have hs := (includes_float_iff.1 hs).resolve_left (Bool.eq_false_iff.1 ha)
          have ht := (includes_float_iff.1 ht).resolve_left (Bool.eq_false_iff.1 hb)
          exact includes_float_iff.2 (.inr (Span.covers_hull hs ht))

/-- An empty interval adds nothing to a union. -/
theorem union_of_isEmpty (h : a.type = b.type) :
    (a.isEmpty = true → a.union b = .ok b) ∧
      (a.isEmpty = false → b.isEmpty = true → a.union b = .ok a) := by
  cases a <;> cases b
  case int.float | float.int => cases h
  all_goals
    refine ⟨fun ha => congrArg Except.ok (if_pos ha), fun ha hb => congrArg Except.ok ?_⟩
    rw [if_neg (Bool.eq_false_iff.1 ha), if_pos hb]

/-- The union of two intervals of one kind includes both, and what includes both includes it. -/
theorem exists_least_union (h : a.type = b.type) :
    ∃ u, a.union b = .ok u ∧ u.includes a = true ∧ u.includes b = true ∧
      ∀ c : Interval, c.includes a = true → c.includes b = true → c.includes u = true := by
  obtain ⟨hleft, hright⟩ := union_of_isEmpty h
  cases ha : a.isEmpty with
  | true => exact ⟨b, hleft ha, includes_of_isEmpty ha, b.includes_self, fun _ _ hc => hc⟩
  | false =>
    cases hb : b.isEmpty with
    | true => exact ⟨a, hright ha hb, a.includes_self, includes_of_isEmpty hb, fun _ hc _ => hc⟩
    | false => exact exists_hull h ha hb

/-- The operations on intervals of one kind are those on the sets of their numbers. Intervals of
integers differ by their integers alone, so that for them emptiness and inclusion are those of the
sets too. -/
theorem operations_as_sets (h : a.type = b.type) :
    (a.type = .int → (a.isEmpty = true ↔ ∀ x, a.contains x = false)) ∧
      (a.includes b = true → ∀ x, b.contains x = true → a.contains x = true) ∧
      (a.type = .int → (∀ x, b.contains x = true → a.contains x = true) → a.includes b = true) ∧
      (∃ i, a.intersect b = .ok i ∧
        ∀ x, i.contains x = true ↔ a.contains x = true ∧ b.contains x = true) ∧
      ∃ u, a.union b = .ok u ∧ u.includes a = true ∧ u.includes b = true ∧
        ∀ c : Interval, c.includes a = true → c.includes b = true → c.includes u = true := by
  refine ⟨isEmpty_iff, fun hincludes x => contains_of_mem_included hincludes, fun ha => ?_,
    exists_intersect h, exists_least_union h⟩
  exact includes_of_contains ha (h.symm.trans ha)

/-- Two intervals with other bounds and the same integers, of which the closed one includes the open
one. -/
theorem operations_as_sets_closed :
    let a := int ⟨4, 8, true, true⟩
    let b := int ⟨3, 9, false, false⟩
    a.type = b.type ∧ a.includes b = true ∧
      (∀ x, b.contains x = true → a.contains x = true) ∧
      ∃ u, a.union b = .ok u ∧ u.includes a = true ∧ u.includes b = true ∧
        ∀ c : Interval, c.includes a = true → c.includes b = true → c.includes u = true := by
  intro a b
  obtain ⟨-, hsubset, -, -, hunion⟩ := @operations_as_sets a b rfl
  exact ⟨rfl, by decide, hsubset (by decide), hunion⟩

end Interval

end SearchSpace
