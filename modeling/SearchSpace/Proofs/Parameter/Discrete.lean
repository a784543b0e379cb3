import SearchSpace.Parameter.Basic
import SearchSpace.Proofs.Comparison
import SearchSpace.Proofs.Outcome
import SearchSpace.Proofs.Parameter.Domain

/-!
# Sets of numbers

The numbers of a discrete parameter are put in order and then ranked by their places, so that they
are ranked by value. Two things are in the way, since numbers are told apart by their encoding.
Not-a-number has no order with any number, so that the numbers on its two sides may never be
compared; and the two zeros are two members of one value. The set has the numbers of its
description, and the default is the one that is described. It is strictly increasing, and the
parameter compares its members as numbers, except for these two (`Parameter.discrete_ranks`).
-/

namespace SearchSpace

/-- The two zeros are among some values. -/
def HasBothZeros (values : List Value) : Prop :=
  .float (.ofFloat 0.0) ∈ values ∧ .float (.ofFloat (-0.0)) ∈ values

/-- Two zeros among some values are both of them. -/
theorem HasBothZeros.of_areZeros {values : List Value} {v w : Value} (h : v.AreZeros w)
    (hv : v ∈ values) (hw : w ∈ values) : HasBothZeros values := by
  rcases h with ⟨rfl, rfl⟩ | ⟨rfl, rfl⟩
  · exact ⟨hv, hw⟩
  · exact ⟨hw, hv⟩

/-- Whether both zeros are among some values does not depend on the order of these. -/
theorem HasBothZeros.congr {values ws : List Value} (h : values.Perm ws) :
    HasBothZeros values ↔ HasBothZeros ws :=
  and_congr h.mem_iff h.mem_iff

namespace Parameter

/-! ## Sorting -/

section Sorting

variable {v : Value} {ws values sorted : List Value}

/-- A value that is put among others is added to them. -/
theorem insertLast_perm (v : Value) (ws : List Value) : (insertLast v ws).Perm (v :: ws) := by
  induction ws with
  | nil => exact .refl _
  | cons w ws ih =>
    rw [insertLast]
    split
    · exact (ih.cons w).trans (.swap v w ws)
    · exact .refl _

/-- A value that is put among others in order leaves them in order. -/
theorem insertLast_pairwise
    (hv : ∀ w ∈ ws, v.compare w = .ok (cmp v.extended w.extended))
    (h : ws.Pairwise fun a b => b.extended ≤ a.extended) :
    (insertLast v ws).Pairwise fun a b => b.extended ≤ a.extended := by
  induction ws with
  | nil => exact List.pairwise_singleton _ v
  | cons w ws ih =>
    obtain ⟨hw, hws⟩ := List.forall_mem_cons.1 hv
    obtain ⟨hfirst, hrest⟩ := List.pairwise_cons.1 h
    rw [insertLast, hw]
    split
    · next hlt =>
      have hle : v.extended ≤ w.extended := ((cmp_eq_lt_iff _ _).1 (Except.ok.inj hlt)).le
      refine List.pairwise_cons.2 ⟨fun u hu => ?_, ih hws hrest⟩
      rcases List.mem_cons.1 ((insertLast_perm v ws).mem_iff.1 hu) with rfl | hu
      · exact hle
      · exact hfirst u hu
    · next hnot =>
      have hle : w.extended ≤ v.extended := by
        refine not_lt.1 fun hlt => hnot ?_
        rw [(cmp_eq_lt_iff _ _).2 hlt]
      refine List.pairwise_cons.2 ⟨List.forall_mem_cons.2 ⟨hle, fun u hu => ?_⟩, h⟩
      exact (hfirst u hu).trans hle

/-- Values that are put among others one by one are added to them. -/
theorem foldl_insertLast_perm (values sorted : List Value) :
    (values.foldl (fun sorted v => insertLast v sorted) sorted).Perm (sorted ++ values) := by
  induction values generalizing sorted with
  | nil => rw [List.append_nil]; exact .refl _
  | cons v values ih =>
    have hinsert := (insertLast_perm v sorted).append_right values
    exact ((ih _).trans hinsert).trans List.perm_middle.symm

/-- Values that are put among others in order one by one leave them in order. -/
theorem foldl_insertLast_pairwise
    (hcompare : ∀ v ∈ sorted ++ values, ∀ w ∈ sorted ++ values,
      v.compare w = .ok (cmp v.extended w.extended))
    (h : sorted.Pairwise fun a b => b.extended ≤ a.extended) :
    (values.foldl (fun sorted v => insertLast v sorted) sorted).Pairwise
      fun a b => b.extended ≤ a.extended := by
  induction values generalizing sorted with
  | nil => exact h
  | cons v values ih =>
    have hmem : ∀ u ∈ insertLast v sorted ++ values, u ∈ sorted ++ v :: values := fun u hu =>
      (((insertLast_perm v sorted).append_right values).trans List.perm_middle.symm).mem_iff.1 hu
    refine ih (fun u hu w hw => hcompare u (hmem u hu) w (hmem w hw)) (insertLast_pairwise ?_ h)
    intro w hw
    exact hcompare v (List.mem_append_right _ List.mem_cons_self) w (List.mem_append_left _ hw)

/-- Sorting keeps the values. -/
theorem sortValues_perm (values : List Value) : (sortValues values).Perm values :=
  (List.reverse_perm _).trans (foldl_insertLast_perm values [])

/-- Values that compare as what they denote are sorted by that. -/
theorem sortValues_pairwise
    (h : ∀ v ∈ values, ∀ w ∈ values, v.compare w = .ok (cmp v.extended w.extended)) :
    (sortValues values).Pairwise fun a b => a.extended ≤ b.extended :=
  List.pairwise_reverse.2 (foldl_insertLast_pairwise h .nil)

end Sorting

/-! ## Members and their places -/

/-- The members of a set of numbers are of one kind. -/
theorem type_eq_of_mem {s : NumberSet} {v w : Value} (hv : v ∈ s.values) (hw : w ∈ s.values) :
    v.type = w.type := by
  have hone := s.one_type
  rw [areNumbersOfOneType, List.all_eq_true] at hone
  have hhead : ∀ u ∈ s.values, ∃ first, s.values.head? = some first ∧ u.type = first.type := by
    intro u hu
    obtain ⟨first, hfirst, htype⟩ :=
      Option.any_eq_true _ _ |>.1 (Bool.and_eq_true_iff.1 (hone u hu)).2
    exact ⟨first, hfirst, of_decide_eq_true htype⟩
  obtain ⟨first, hfirst, hvfirst⟩ := hhead v hv
  obtain ⟨first', hfirst', hwfirst⟩ := hhead w hw
  cases hfirst.symm.trans hfirst'
  exact hvfirst.trans hwfirst.symm

/-- What a description of a set of numbers becomes. -/
theorem exists_of_build {id : Nat} {name : String} {values : List Value} {index : Nat}
    {p : Parameter} (h : build id name (.discrete values index) = .ok p) :
    ∃ s : NumberSet, p.domain = .discrete s ∧ s.values = sortValues values ∧
      values[index]? = some p.defaultValue := by
  obtain ⟨⟨domain, default⟩, hresolve, hbuilt⟩ := bind_eq_ok.1 h
  obtain ⟨hdomain, hdefault⟩ : p.domain = domain ∧ p.defaultValue = default := by
    dsimp only at hbuilt
    split at hbuilt
    · split at hbuilt
      · cases hbuilt
        exact ⟨rfl, rfl⟩
      · cases hbuilt
    · cases hbuilt
  simp only [Description.resolve] at hresolve
  split at hresolve
  · cases hresolve
  · split at hresolve
    · next hone =>
      obtain ⟨member, hmember, hset⟩ := bind_eq_ok.1 hresolve
      have hplace : values[index]? = some member := by
        unfold defaultMember at hmember
        split at hmember
        · next hat => cases hmember; exact hat
        · cases hmember
      split at hset
      · cases hset
        exact ⟨_, hdomain, rfl, hdefault ▸ hplace⟩
      · cases hset
    · cases hresolve

/-- A parameter with a set of numbers compares its members by their places. -/
theorem compareValues_discrete {p : Parameter} {s : NumberSet} (h : p.domain = .discrete s)
    {v w : Value} {i j : Nat} (hv : s.values[i]? = some v) (hw : s.values[j]? = some w) :
    p.compareValues v w = .ok (compare i j) := by
  have hrank : ∀ {u : Value} {k : Nat}, s.values[k]? = some u →
      (Domain.discrete s).rankOf? u = some k := by
    intro u k hu
    have hplace := ValueSet.position?_eq_some_iff.2 hu
    have hindex := @Domain.indexOf?_eq (.discrete s) s.toValueSet rfl u
    simp only [Domain.canonical?, hplace, Option.isSome_some, reduceIte, Option.bind_some] at hindex
    exact hindex
  simp only [compareValues, h, hrank hv, hrank hw]
  rfl

/-! ## Ranks and order -/

section Ranks

variable {p : Parameter} {s : NumberSet} {values : List Value} {v w : Value} {i j : Nat}

/-- The members of a set of numbers compare as what they denote. -/
theorem compare_eq_cmp_of_mem (hnan : ∀ v ∈ s.values, v.isNaN = false) (hv : v ∈ s.values)
    (hw : w ∈ s.values) : v.compare w = .ok (cmp v.extended w.extended) :=
  Value.compare_eq_cmp (s.isNumeric_of_mem hv) (type_eq_of_mem hv hw) (hnan v hv) (hnan w hw)

/-- Of two members of a sorted set of numbers, the one at the lesser place is less, or they are the
two zeros. -/
theorem extended_lt_or_areZeros (hsorted : s.values = sortValues values)
    (hnan : ∀ v ∈ s.values, v.isNaN = false) (hv : s.values[i]? = some v)
    (hw : s.values[j]? = some w) (hij : i < j) :
    v.extended < w.extended ∨ v.AreZeros w := by
  have hvmem := List.mem_of_getElem? hv
  have hwmem := List.mem_of_getElem? hw
  have hascending : s.values.Pairwise fun a b => a.extended ≤ b.extended := by
    have hmem : ∀ {v}, v ∈ values → v ∈ s.values := fun hv =>
      hsorted ▸ (sortValues_perm values).mem_iff.2 hv
    rw [hsorted]
    exact sortValues_pairwise fun v hv w hw => compare_eq_cmp_of_mem hnan (hmem hv) (hmem hw)
  have hle : v.extended ≤ w.extended := by
    obtain ⟨hi, rfl⟩ := List.getElem?_eq_some_iff.1 hv
    obtain ⟨hj, rfl⟩ := List.getElem?_eq_some_iff.1 hw
    exact List.pairwise_iff_getElem.1 hascending i j hi hj hij
  refine hle.lt_or_eq.imp_right fun heq => ?_
  have hequal : v.compare w = .ok .eq := by
    rw [compare_eq_cmp_of_mem hnan hvmem hwmem, (cmp_eq_eq_iff _ _).2 heq]
  refine (Value.eq_or_areZeros_of_compare (s.isNumeric_of_mem hvmem)
    (type_eq_of_mem hvmem hwmem) hequal).resolve_left fun hsame => ?_
  -- A member stands at one place only.
  have hplace := ValueSet.position?_eq_some_iff.2 hv
  rw [hsame, ValueSet.position?_eq_some_iff.2 hw] at hplace
  exact Nat.ne_of_gt hij (Option.some.inj hplace)

/-- A sorted set of numbers is strictly increasing if neither not-a-number nor both zeros are
members. -/
theorem pairwise_compare (hsorted : s.values = sortValues values)
    (hnan : ∀ v ∈ s.values, v.isNaN = false) (hzeros : ¬HasBothZeros s.values) :
    s.values.Pairwise fun a b => a.compare b = .ok .lt := by
  refine List.pairwise_iff_getElem.2 fun i j hi hj hij => ?_
  have hv := List.getElem?_eq_getElem hi
  have hw := List.getElem?_eq_getElem hj
  have hvmem := List.mem_of_getElem? hv
  have hwmem := List.mem_of_getElem? hw
  rcases extended_lt_or_areZeros hsorted hnan hv hw hij with hlt | hareZeros
  · rw [compare_eq_cmp_of_mem hnan hvmem hwmem, (cmp_eq_lt_iff _ _).2 hlt]
  · exact absurd (.of_areZeros hareZeros hvmem hwmem) hzeros

/-- Two members of a strictly increasing set have an order, in which they are not equal. -/
theorem exists_compare_of_pairwise (h : s.values.Pairwise fun a b => a.compare b = .ok .lt)
    (hv : v ∈ s.values) (hw : w ∈ s.values) (hne : v ≠ w) :
    v.compare w = .ok .lt ∨ w.compare v = .ok .lt := by
  obtain ⟨i, hi, rfl⟩ := List.mem_iff_getElem.1 hv
  obtain ⟨j, hj, rfl⟩ := List.mem_iff_getElem.1 hw
  rw [List.pairwise_iff_getElem] at h
  rcases Nat.lt_trichotomy i j with hij | rfl | hij
  · exact .inl (h i j hi hj hij)
  · exact absurd rfl hne
  · exact .inr (h j i hj hi hij)

/-- In a strictly increasing set not-a-number is not among others. -/
theorem isNaN_of_pairwise (h : s.values.Pairwise fun a b => a.compare b = .ok .lt) :
    s.values.length = 1 ∨ ∀ v ∈ s.values, v.isNaN = false := by
  refine or_iff_not_imp_left.2 fun hlength v hv => ?_
  have hnodup := (ValueSet.nodup_of_firstFault? s.firstFault?_values).1
  obtain ⟨w, hw, hne⟩ : ∃ w ∈ s.values, w ≠ v := by
    by_contra! hall
    rw [List.eq_replicate_length.2 hall, List.nodup_replicate] at hnodup
    exact hlength (hnodup.antisymm s.length_fits.1)
  rcases exists_compare_of_pairwise h hv hw hne.symm with hlt | hlt
  · exact (Value.isNaN_of_compare hlt).1
  · exact (Value.isNaN_of_compare hlt).2

/-- A strictly increasing set does not have both zeros. -/
theorem not_hasBothZeros_of_pairwise (h : s.values.Pairwise fun a b => a.compare b = .ok .lt) :
    ¬HasBothZeros s.values := by
  rintro ⟨hzero, hnegative⟩
  have hzeros : Value.AreZeros (.float (.ofFloat 0.0)) (.float (.ofFloat (-0.0))) :=
    .inl ⟨rfl, rfl⟩
  rcases exists_compare_of_pairwise h hzero hnegative hzeros.ne with hlt | hlt
  · cases hlt.symm.trans hzeros.compare
  · cases hlt.symm.trans hzeros.symm.compare

/-- Two members of a sorted set of numbers are compared as numbers, or are the two zeros. -/
theorem compareValues_eq_or_areZeros (hp : p.domain = .discrete s)
    (hsorted : s.values = sortValues values) (hnan : ∀ v ∈ s.values, v.isNaN = false)
    (hv : v ∈ s.values) (hw : w ∈ s.values) :
    p.compareValues v w = v.compare w ∨ v.AreZeros w := by
  obtain ⟨i, hi⟩ := List.mem_iff_getElem?.1 hv
  obtain ⟨j, hj⟩ := List.mem_iff_getElem?.1 hw
  rw [compareValues_discrete hp hi hj, compare_eq_cmp_of_mem hnan hv hw]
  rcases Nat.lt_trichotomy i j with hij | rfl | hij
  · refine (extended_lt_or_areZeros hsorted hnan hi hj hij).imp_left fun hlt => ?_
    rw [(cmp_eq_lt_iff _ _).2 hlt, Nat.compare_eq_lt.2 hij]
  · rw [hi] at hj
    cases hj
    rw [cmp_self_eq_eq, Nat.compare_eq_eq.2 rfl]
    exact .inl rfl
  · refine (extended_lt_or_areZeros hsorted hnan hj hi hij).imp (fun hlt => ?_) (·.symm)
    rw [(cmp_eq_gt_iff _ _).2 hlt, Nat.compare_eq_gt.2 hij]

/-- Not-a-number is not in a set whose members are compared as numbers. -/
theorem isNaN_of_compareValues (hp : p.domain = .discrete s) (hv : v ∈ s.values)
    (h : p.compareValues v v = v.compare v) : v.isNaN = false := by
  obtain ⟨i, hi⟩ := List.mem_iff_getElem?.1 hv
  rw [compareValues_discrete hp hi hi] at h
  exact (Value.isNaN_of_compare h.symm).1

/-- The two zeros are compared by their places, and as numbers they are equal. -/
theorem compareValues_ne_of_areZeros (hp : p.domain = .discrete s) (hv : v ∈ s.values)
    (hw : w ∈ s.values) (hzeros : v.AreZeros w) : p.compareValues v w ≠ v.compare w := by
  obtain ⟨i, hi⟩ := List.mem_iff_getElem?.1 hv
  obtain ⟨j, hj⟩ := List.mem_iff_getElem?.1 hw
  intro h
  rw [compareValues_discrete hp hi hj, hzeros.compare, Except.ok.injEq, Nat.compare_eq_eq] at h
  rw [h, hj] at hi
  exact hzeros.ne (Option.some.inj hi).symm

end Ranks

/-- The numbers of a discrete parameter are those described, and the default value is the one at the
described place. The numbers are strictly increasing unless not-a-number is among others or both
zeros are among them; the parameter compares its members as numbers unless not-a-number is among
them or both zeros are. Without not-a-number only the zeros are compared in another way. -/
theorem discrete_ranks {id : Nat} {name : String} {values : List Value} {index : Nat}
    {p : Parameter} (h : build id name (.discrete values index) = .ok p) :
    ∃ s : NumberSet, p.domain = .discrete s ∧ s.values.Perm values ∧
      values[index]? = some p.defaultValue ∧
      (s.values.Pairwise (fun a b => a.compare b = .ok .lt) ↔
        (values.length = 1 ∨ ∀ v ∈ values, v.isNaN = false) ∧ ¬HasBothZeros values) ∧
      ((∀ a ∈ s.values, ∀ b ∈ s.values, p.compareValues a b = a.compare b) ↔
        (∀ v ∈ values, v.isNaN = false) ∧ ¬HasBothZeros values) ∧
      ((∀ v ∈ values, v.isNaN = false) → ∀ a ∈ s.values, ∀ b ∈ s.values,
        p.compareValues a b = a.compare b ∨ a.AreZeros b) := by
  obtain ⟨s, hp, hsorted, hdefault⟩ := exists_of_build h
  have hperm : s.values.Perm values := hsorted ▸ sortValues_perm values
  refine ⟨s, hp, hperm, hdefault, ?_⟩
  have hnan : (∀ v ∈ values, v.isNaN = false) ↔ ∀ v ∈ s.values, v.isNaN = false :=
    forall_congr' fun v => imp_congr_left hperm.mem_iff.symm
  rw [hnan, ← hperm.length_eq, ← HasBothZeros.congr hperm]
  refine ⟨⟨fun hpairwise => ?_, ?_⟩, ⟨fun hall => ?_, ?_⟩, fun hnumbers a ha b hb => ?_⟩
  · exact ⟨isNaN_of_pairwise hpairwise, not_hasBothZeros_of_pairwise hpairwise⟩
  · rintro ⟨hone | hnumbers, hzeros⟩
    · obtain ⟨v, hv⟩ := List.length_eq_one_iff.1 hone
      rw [hv]
      exact List.pairwise_singleton _ v
    · exact pairwise_compare hsorted hnumbers hzeros
  · refine ⟨fun v hv => isNaN_of_compareValues hp hv (hall v hv v hv), ?_⟩
    rintro ⟨hzero, hnegative⟩
    exact compareValues_ne_of_areZeros hp hzero hnegative (.inl ⟨rfl, rfl⟩)
      (hall _ hzero _ hnegative)
  · rintro ⟨hnumbers, hzeros⟩ a ha b hb
    refine (compareValues_eq_or_areZeros hp hsorted hnumbers ha hb).resolve_right fun hboth => ?_
    exact hzeros (.of_areZeros hboth ha hb)
  · exact compareValues_eq_or_areZeros hp hsorted hnumbers ha hb

/-- Three numbers that are described out of order. -/
def unsorted : List Value :=
  [.float (.ofFloat 2.5), .float (.ofFloat (-1.0)), .float (.ofFloat 1.0)]

/-- The three numbers are put in their order, and ranked by it. -/
theorem discrete_ranks_unsorted : ∃ p s, build 0 "x" (.discrete unsorted 1) = .ok p ∧
    p.domain = .discrete s ∧ s.values.Perm unsorted ∧
    p.defaultValue = .float (.ofFloat (-1.0)) ∧
    s.values.Pairwise (fun a b => a.compare b = .ok .lt) ∧
    ∀ a ∈ s.values, ∀ b ∈ s.values, p.compareValues a b = a.compare b := by
  have hbuilds : (build 0 "x" (.discrete unsorted 1)).toOption.any (fun _ => true) = true := by
    decide +kernel
  obtain ⟨p, hp, -⟩ := exists_ok_of_any hbuilds
  have hordered : (∀ v ∈ unsorted, v.isNaN = false) ∧ ¬HasBothZeros unsorted :=
    ⟨by decide, by rw [HasBothZeros]; decide⟩
  obtain ⟨s, hs, hperm, hdefault, hincreasing, hranks, -⟩ := discrete_ranks hp
  refine ⟨p, s, hp, hs, hperm, (Option.some.inj hdefault).symm, ?_, hranks.2 hordered⟩
  exact hincreasing.2 ⟨.inr hordered.1, hordered.2⟩

/-- The numbers on the two sides of one that has no order are not compared, so that the greater may
be ranked below the lesser. -/
theorem discrete_ranks_not_sorted : ¬∀ (id : Nat) (name : String) (values : List Value)
    (index : Nat) (p : Parameter), build id name (.discrete values index) = .ok p →
      ∃ s : NumberSet, p.domain = .discrete s ∧ s.values.Perm values ∧
        s.values.Pairwise (fun a b => a.compare b = .ok .lt) ∧
        values[index]? = some p.defaultValue ∧
        ∀ a ∈ s.values, ∀ b ∈ s.values, p.compareValues a b = a.compare b := by
  intro h
  let one : Value := .float (.ofFloat 1.0)
  let two : Value := .float (.ofFloat 2.0)
  have hbuilds : (build 0 "x" (.discrete [two, .float (.ofFloat (0.0 / 0.0)), one] 0)).toOption.any
      (fun p => p.compareValues one two = .ok .gt) = true := by
    decide +kernel
  obtain ⟨p, hp, hgreater⟩ := exists_ok_of_any hbuilds
  obtain ⟨s, -, hperm, -, -, hcompare⟩ := h _ _ _ _ _ hp
  have hless := hcompare one (hperm.mem_iff.2 (by decide)) two (hperm.mem_iff.2 (by decide))
  rw [of_decide_eq_true hgreater] at hless
  exact absurd hless (by decide)

end Parameter

end SearchSpace
