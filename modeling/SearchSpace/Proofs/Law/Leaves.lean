import Mathlib.Data.List.Forall2
import SearchSpace.Law.Sampling
import SearchSpace.Proofs.Generator
import SearchSpace.Proofs.Interval
import SearchSpace.Proofs.Weights
import SearchSpace.Proofs.Law.Shape

/-!
# The leaves of a law

A law is put together from laws of one number, its leaves, and a draw from it is put together from
draws of leaves. `Law.leafDraws` is the same draw with the leaf beside each number
(`map_leafDraws`, `always_leafDraws`). If each number lies within the bounds of the leaf that drew
it, the numbers lie within the bounds of the whole law (`Made.always_keepsLeafBounds`): a joint law
puts bounds and numbers side by side, and a mixture has bounds around those of each part.
-/

namespace SearchSpace

/-- An index by weight is that of a weight, whatever the generator. -/
theorem WeightTable.always_draw (table : WeightTable) :
    Draw.Always table.draw (· < table.weights.length) :=
  Draw.always_bind fun r => Draw.always_pure (table.index_lt r)

namespace Law

/-! ## Leaves -/

mutual
/-- The laws of one number from which a law is put together, at any depth. -/
def leaves : Law → List Law
  | mixture parts _ _ _ => allLeaves parts
  | joint parts => allLeaves parts
  | law => [law]

/-- The laws of one number from which some laws are put together. -/
def allLeaves : List Law → List Law
  | [] => []
  | law :: laws => law.leaves ++ allLeaves laws
end

/-- The leaves of one of some laws are leaves of them. -/
theorem leaves_subset_allLeaves {law : Law} {laws : List Law} (h : law ∈ laws) :
    law.leaves ⊆ allLeaves laws := by
  induction laws with
  | nil => cases h
  | cons first laws ih =>
    rw [allLeaves]
    rcases List.mem_cons.1 h with rfl | h
    · exact List.subset_append_left _ _
    · exact fun leaf hleaf => List.mem_append_right _ (ih h hleaf)

/-- A leaf of some laws is a leaf of one of them. -/
theorem exists_of_mem_allLeaves {leaf : Law} {laws : List Law} (h : leaf ∈ allLeaves laws) :
    ∃ law ∈ laws, leaf ∈ law.leaves := by
  induction laws with
  | nil => cases h
  | cons first laws ih =>
    rcases List.mem_append.1 h with h | h
    · exact ⟨first, .head laws, h⟩
    · obtain ⟨law, hlaw, hleaf⟩ := ih h
      exact ⟨law, .tail first hlaw, hleaf⟩

/-! ## Draws with their leaves -/

mutual
/-- One draw, with the leaf that drew it beside each number. -/
def leafDraws : Law → Draw (List (Law × Scalar))
  | mixture parts table _ _ => do partLeafDraws parts (← table.draw)
  | joint parts => allLeafDraws parts
  | law => List.map (Prod.mk law) <$> law.draw

/-- A draw from the part at an index. -/
def partLeafDraws : List Law → Nat → Draw (List (Law × Scalar))
  | [], _ => pure []
  | law :: _, 0 => law.leafDraws
  | _ :: laws, i + 1 => partLeafDraws laws i

/-- A draw from each part, in order. -/
def allLeafDraws : List Law → Draw (List (Law × Scalar))
  | [] => pure []
  | law :: laws => do
    let front ← law.leafDraws
    let back ← allLeafDraws laws
    pure (front ++ back)
end

/-- Numbers are what they were before their leaf was put beside them. -/
theorem map_snd_map_mk (leaf : Law) (x : Draw (List Scalar)) :
    List.map Prod.snd <$> List.map (Prod.mk leaf) <$> x = x := by
  have hid : List.map Prod.snd ∘ List.map (Prod.mk leaf) = @id (List Scalar) := by
    funext row
    exact (List.map_map ..).trans (List.map_id row)
  rw [← comp_map, hid, id_map]

mutual
/-- Without the leaves, the numbers are those of a draw. -/
theorem map_leafDraws : ∀ law : Law, List.map Prod.snd <$> law.leafDraws = law.draw
  | uniformInt law => map_snd_map_mk _ _
  | uniformFloat law => map_snd_map_mk _ _
  | normal law => map_snd_map_mk _ _
  | roulette table => map_snd_map_mk _ _
  | mixture parts table types bounds => by
    rw [leafDraws, draw, map_bind]
    exact bind_congr fun i => map_partLeafDraws parts i
  | joint parts => by
    rw [leafDraws, draw]
    exact map_allLeafDraws parts

/-- The same of the part at an index. -/
theorem map_partLeafDraws : ∀ (laws : List Law) (i : Nat),
    List.map Prod.snd <$> partLeafDraws laws i = drawPart laws i
  | [], _ => rfl
  | law :: _, 0 => map_leafDraws law
  | _ :: laws, i + 1 => map_partLeafDraws laws i

/-- The same of some laws, one after the other. -/
theorem map_allLeafDraws : ∀ laws : List Law,
    List.map Prod.snd <$> allLeafDraws laws = drawAll laws
  | [] => rfl
  | law :: laws => by
    rw [drawAll, ← map_leafDraws law, ← map_allLeafDraws laws]
    simp [allLeafDraws]
end

/-- A draw from the part at an index is a draw from a part. -/
theorem exists_partLeafDraws_eq : ∀ {parts : List Law} {i : Nat}, i < parts.length →
    ∃ part ∈ parts, partLeafDraws parts i = part.leafDraws
  | part :: parts, 0, _ => ⟨part, .head parts, rfl⟩
  | part :: parts, i + 1, hi => by
    obtain ⟨other, hother, heq⟩ := exists_partLeafDraws_eq (Nat.lt_of_succ_lt_succ hi)
    exact ⟨other, .tail part hother, heq⟩

/-- A number that stands beside a leaf of the law, and which that leaf draws from some generator. -/
def IsLeafDraw (law : Law) (p : Law × Scalar) : Prop :=
  p.1 ∈ law.leaves ∧ ∃ g : Generator, (p.1.draw.run g).1 = [p.2]

/-- A law of one number is its own leaf, and draws one number. -/
theorem always_map_mk {leaf : Law} (hleaves : leaf.leaves = [leaf])
    (hone : Draw.Always leaf.draw fun row => ∃ x, row = [x]) :
    Draw.Always (List.map (Prod.mk leaf) <$> leaf.draw) fun drawn =>
      ∀ p ∈ drawn, leaf.IsLeafDraw p := by
  intro g
  obtain ⟨x, hx⟩ := hone g
  intro p hp
  have hp : p ∈ List.map (Prod.mk leaf) (leaf.draw.run g).1 := hp
  rw [hx, List.map_singleton, List.mem_singleton] at hp
  subst hp
  exact ⟨hleaves ▸ List.mem_singleton_self leaf, g, hx⟩

mutual
/-- Each number of a draw is drawn by the leaf beside it. -/
theorem always_leafDraws : ∀ law : Law,
    Draw.Always law.leafDraws fun drawn => ∀ p ∈ drawn, law.IsLeafDraw p
  | uniformInt law => always_map_mk rfl (Draw.always_bind fun _ => Draw.always_pure ⟨_, rfl⟩)
  | uniformFloat law => always_map_mk rfl (Draw.always_bind fun _ => Draw.always_pure ⟨_, rfl⟩)
  | normal law => always_map_mk rfl (Draw.always_bind fun _ => Draw.always_pure ⟨_, rfl⟩)
  | roulette table => always_map_mk rfl (Draw.always_bind fun _ => Draw.always_pure ⟨_, rfl⟩)
  | mixture parts table types bounds => by
    rw [leafDraws]
    exact Draw.always_bind fun i => always_partLeafDraws parts i
  | joint parts => by
    rw [leafDraws]
    exact always_allLeafDraws parts

/-- The same of the part at an index. -/
theorem always_partLeafDraws : ∀ (laws : List Law) (i : Nat),
    Draw.Always (partLeafDraws laws i) fun drawn => ∀ p ∈ drawn, (joint laws).IsLeafDraw p
  | [], _ => Draw.always_pure fun _ h => nomatch h
  | law :: laws, 0 => (always_leafDraws law).imp fun _ h p hp =>
    (h p hp).imp_left fun hleaf => leaves_subset_allLeaves (.head laws) hleaf
  | law :: laws, i + 1 => (always_partLeafDraws laws i).imp fun _ h p hp =>
    (h p hp).imp_left fun hleaf => List.mem_append_right law.leaves hleaf

/-- The same of some laws, one after the other. -/
theorem always_allLeafDraws : ∀ laws : List Law,
    Draw.Always (allLeafDraws laws) fun drawn => ∀ p ∈ drawn, (joint laws).IsLeafDraw p
  | [] => Draw.always_pure fun _ h => nomatch h
  | law :: laws => by
    rw [allLeafDraws]
    refine (always_leafDraws law).bind fun front hfront =>
      (always_allLeafDraws laws).bind fun back hback => Draw.always_pure fun p hp => ?_
    rcases List.mem_append.1 hp with hp | hp
    · exact (hfront p hp).imp_left fun hleaf => List.mem_append_left _ hleaf
    · exact (hback p hp).imp_left fun hleaf => List.mem_append_right law.leaves hleaf
end

/-! ## Bounds -/

/-- Each number lies within its bounds. -/
abbrev Within : List Interval → List Scalar → Prop :=
  List.Forall₂ fun bound x => bound.contains x = true

/-- Numbers within the bounds of either of two lists are within the united ones. -/
theorem within_uniteBounds : ∀ {is js bounds : List Interval} {row : List Scalar},
    uniteBounds is js = .ok bounds → is.length = js.length → Within is row ∨ Within js row →
      Within bounds row
  | [], [], _, _, hunite, _, h => by
    cases hunite
    exact h.elim id id
  | i :: is, j :: js, bounds, row, hunite, hlength, h => by
    obtain ⟨bound, hbound, hunite⟩ := bind_eq_ok.1 hunite
    obtain ⟨rest, hrest, hunite⟩ := bind_eq_ok.1 hunite
    cases hunite
    have hlength := Nat.succ.inj hlength
    rcases h with h | h <;> obtain ⟨hx, h⟩ | ⟨hx, h⟩ := h
    · exact .cons (Interval.contains_union hbound (.inl hx))
        (within_uniteBounds hrest hlength (.inl h))
    · exact .cons (Interval.contains_union hbound (.inr hx))
        (within_uniteBounds hrest hlength (.inr h))

/-- Numbers within the bounds of a part are within those of the mixture. -/
theorem within_mixtureBounds {types : List ScalarType} {found bounds : List Interval}
    {laws : List Law} {row : List Scalar} (h : mixtureBounds types found laws = .ok bounds)
    (hlength : ∀ law ∈ laws, law.bounds.length = found.length)
    (hrow : Within found row ∨ ∃ law ∈ laws, Within law.bounds row) : Within bounds row := by
  induction laws generalizing found with
  | nil =>
    cases h
    obtain hrow | ⟨law, hlaw, -⟩ := hrow
    · exact hrow
    · cases hlaw
  | cons law laws ih =>
    obtain ⟨_, _, united, hunited, hrest⟩ := mixtureBounds_cons h
    obtain ⟨hlaw, hlaws⟩ := List.forall_mem_cons.1 hlength
    have hsame := length_uniteBounds hunited
    refine ih hrest (fun law hlaw => (hlaws law hlaw).trans hsame.symm) ?_
    rcases hrow with hrow | ⟨part, hpart, hrow⟩
    · exact .inl (within_uniteBounds hunited hlaw.symm (.inl hrow))
    · rcases List.mem_cons.1 hpart with rfl | hpart
      · exact .inl (within_uniteBounds hunited hlaw.symm (.inr hrow))
      · exact .inr ⟨part, hpart, hrow⟩

/-- If each number lies within the bounds of the leaf beside it, the numbers lie within some
bounds. -/
def KeepsLeafBounds (bounds : List Interval) (drawn : List (Law × Scalar)) : Prop :=
  (∀ p ∈ drawn, Within p.1.bounds [p.2]) → Within bounds (drawn.map Prod.snd)

/-- The bounds of a law of one number are those of its leaf. -/
theorem always_keepsLeafBounds_map_mk {leaf : Law}
    (hone : Draw.Always leaf.draw fun row => ∃ x, row = [x]) :
    Draw.Always (List.map (Prod.mk leaf) <$> leaf.draw) (KeepsLeafBounds leaf.bounds) := by
  intro g
  obtain ⟨x, hx⟩ := hone g
  show KeepsLeafBounds leaf.bounds (List.map (Prod.mk leaf) (leaf.draw.run g).1)
  rw [hx]
  exact fun h => h (leaf, x) (List.mem_singleton_self _)

/-- Bounds that are kept by each of some laws are kept by these, one after the other. -/
theorem always_keepsLeafBounds_allLeafDraws {laws : List Law}
    (h : ∀ law ∈ laws, Draw.Always law.leafDraws (KeepsLeafBounds law.bounds)) :
    Draw.Always (allLeafDraws laws) (KeepsLeafBounds (allBounds laws)) := by
  induction laws with
  | nil => exact Draw.always_pure fun _ => .nil
  | cons law laws ih =>
    obtain ⟨hlaw, hlaws⟩ := List.forall_mem_cons.1 h
    rw [allLeafDraws, allBounds]
    refine hlaw.bind fun front hfront => (ih hlaws).bind fun back hback =>
      Draw.always_pure fun hleaves => ?_
    obtain ⟨hleft, hright⟩ := List.forall_mem_append.1 hleaves
    rw [List.map_append]
    exact List.rel_append (hfront hleft) (hback hright)

/-- The numbers of a law that is made lie within its bounds if each lies within the bounds of the
leaf that drew it. -/
theorem Made.always_keepsLeafBounds {law : Law} (h : law.Made) :
    Draw.Always law.leafDraws (KeepsLeafBounds law.bounds) := by
  induction h with
  | uniformInt | uniformFloat | normal | roulette =>
    exact always_keepsLeafBounds_map_mk (Draw.always_bind fun _ => Draw.always_pure ⟨_, rfl⟩)
  | @mixture parts weights _ hmade hlaw ih =>
    obtain ⟨first, rest, table, bounds, rfl, hlength, htable, hbounds, rfl⟩ := ofMixture_eq_ok hlaw
    have hcount : ∀ law ∈ rest, law.bounds.length = first.bounds.length := by
      intro law hlaw
      have hmember := hmade law (List.mem_cons_of_mem first hlaw)
      have hfirst := hmade first List.mem_cons_self
      rw [hmember.length_bounds, ← hmember.length_types, hfirst.length_bounds,
        ← hfirst.length_types, types_of_mixtureBounds hbounds law hlaw]
    rw [leafDraws]
    refine table.always_draw.bind fun i hi => ?_
    rw [weights_of_ofWeights htable, ← hlength] at hi
    obtain ⟨part, hpart, heq⟩ := exists_partLeafDraws_eq hi
    rw [heq]
    refine (ih part hpart).imp fun drawn hkeeps hleaves => ?_
    refine within_mixtureBounds hbounds hcount ?_
    rcases List.mem_cons.1 hpart with rfl | hpart
    · exact .inl (hkeeps hleaves)
    · exact .inr ⟨part, hpart, hkeeps hleaves⟩
  | joint _ hlaw ih =>
    obtain ⟨_, rfl⟩ := ofJoint_eq_ok hlaw
    exact always_keepsLeafBounds_allLeafDraws ih

end Law

end SearchSpace
