import SearchSpace.Law.Basic
import SearchSpace.Proofs.Interval
import SearchSpace.Proofs.Outcome

/-!
# The shape of a law

A law is made by the constructors `Law.ofUniformInt`, `Law.ofUniformFloat`, `Law.ofNormal`,
`Law.ofWeights`, `Law.ofMixture` and `Law.ofJoint`, parts before the whole (`Law.Made`). What such a
law says about its draws fits together: there is at least one number (`Law.Made.dimension_pos`), and
a kind and bounds for each (`Law.Made.length_types`, `Law.Made.length_bounds`). A law that is put
together without the constructors need not have these, so every statement about assignments and
draws asks for `Made`.
-/

namespace SearchSpace.Law

/-! ## Laws that are made -/

/-- The laws that the constructors make. The laws of one number carry the proof that theirs accepted
them. -/
inductive Made : Law → Prop where
  | uniformInt (law : UniformInt) : Made (.uniformInt law)
  | uniformFloat (law : UniformFloat) : Made (.uniformFloat law)
  | normal (law : Normal) : Made (.normal law)
  | roulette (table : WeightTable) : Made (.roulette table)
  | mixture {parts : List Law} {weights : List Float} {law : Law} :
      (∀ part ∈ parts, Made part) → ofMixture parts weights = .ok law → Made law
  | joint {parts : List Law} {law : Law} :
      (∀ part ∈ parts, Made part) → ofJoint parts = .ok law → Made law

/-! ## Joint laws -/

/-- Lists that are as long as the dimensions of some laws are together as long as the dimension of
their joint law. -/
theorem length_flatMap_eq_totalDimension {α : Type} {f : Law → List α} {laws : List Law}
    (h : ∀ law ∈ laws, (f law).length = law.dimension) :
    (laws.flatMap f).length = totalDimension laws := by
  induction laws with
  | nil => rfl
  | cons law laws ih =>
    obtain ⟨hlaw, hlaws⟩ := List.forall_mem_cons.1 h
    rw [List.flatMap_cons, List.length_append, hlaw, ih hlaws, totalDimension]

/-- The kinds of a joint law are those of its parts, in order. -/
theorem allTypes_eq_flatMap (laws : List Law) : allTypes laws = laws.flatMap types := by
  induction laws with
  | nil => rfl
  | cons law laws ih => rw [allTypes, ih, List.flatMap_cons]

/-- The bounds of a joint law are those of its parts, in order. -/
theorem allBounds_eq_flatMap (laws : List Law) : allBounds laws = laws.flatMap bounds := by
  induction laws with
  | nil => rfl
  | cons law laws ih => rw [allBounds, ih, List.flatMap_cons]

/-- A joint law has a part. -/
theorem ofJoint_eq_ok {parts : List Law} {law : Law} (h : ofJoint parts = .ok law) :
    parts ≠ [] ∧ law = .joint parts := by
  cases parts with
  | nil => cases h
  | cons part parts =>
    cases h
    exact ⟨List.cons_ne_nil part parts, rfl⟩

/-! ## Mixtures -/

/-- Uniting bounds one by one keeps their number. -/
theorem length_uniteBounds : ∀ {is js bounds : List Interval},
    uniteBounds is js = .ok bounds → bounds.length = is.length
  | [], _, _, h => by cases h; rfl
  | _ :: _, [], _, h => by cases h; rfl
  | i :: is, j :: js, bounds, h => by
    obtain ⟨bound, -, h⟩ := bind_eq_ok.1 h
    obtain ⟨rest, hrest, h⟩ := bind_eq_ok.1 h
    cases h
    simp only [List.length_cons, length_uniteBounds hrest]

/-- Each further part of a mixture draws numbers of the given kinds, and its bounds are united with
those found so far. -/
theorem mixtureBounds_cons {types : List ScalarType} {found bounds : List Interval} {law : Law}
    {laws : List Law} (h : mixtureBounds types found (law :: laws) = .ok bounds) :
    law.dimension = types.length ∧ law.types = types ∧
      ∃ united, uniteBounds found law.bounds = .ok united ∧
        mixtureBounds types united laws = .ok bounds := by
  rw [mixtureBounds] at h
  split at h
  · cases h
  · next hdimension =>
    split at h
    · cases h
    · next htypes =>
      obtain ⟨united, hunited, h⟩ := bind_eq_ok.1 h
      exact ⟨Decidable.not_not.1 hdimension, Decidable.not_not.1 htypes, united, hunited, h⟩

/-- The bounds of a mixture are as many as those of its first part. -/
theorem length_mixtureBounds {types : List ScalarType} {found bounds : List Interval}
    {laws : List Law} (h : mixtureBounds types found laws = .ok bounds) :
    bounds.length = found.length := by
  induction laws generalizing found with
  | nil => cases h; rfl
  | cons law laws ih =>
    obtain ⟨_, _, united, hunited, hrest⟩ := mixtureBounds_cons h
    rw [ih hrest, length_uniteBounds hunited]

/-- Every further part of a mixture draws numbers of the given kinds. -/
theorem types_of_mixtureBounds {types : List ScalarType} {found bounds : List Interval}
    {laws : List Law} (h : mixtureBounds types found laws = .ok bounds) :
    ∀ law ∈ laws, law.types = types := by
  induction laws generalizing found with
  | nil => simp
  | cons law laws ih =>
    obtain ⟨_, htypes, united, _, hrest⟩ := mixtureBounds_cons h
    exact List.forall_mem_cons.2 ⟨htypes, ih hrest⟩

/-- All parts of a mixture draw numbers of the kinds of the first. -/
theorem types_of_mem_mixture {first : Law} {rest : List Law} {found bounds : List Interval}
    (h : mixtureBounds first.types found rest = .ok bounds) :
    ∀ part ∈ first :: rest, part.types = first.types :=
  List.forall_mem_cons.2 ⟨rfl, types_of_mixtureBounds h⟩

/-- A table has the weights it is made of. -/
theorem weights_of_ofWeights {weights : List Float} {table : WeightTable}
    (h : WeightTable.ofWeights weights = .ok table) : table.weights = weights := by
  unfold WeightTable.ofWeights at h
  split at h
  · cases h
    rfl
  · cases h

/-- What a mixture is made of: the kinds of its first part, and the bounds around all parts. -/
theorem ofMixture_eq_ok {parts : List Law} {weights : List Float} {law : Law}
    (h : ofMixture parts weights = .ok law) :
    ∃ first rest table bounds, parts = first :: rest ∧ parts.length = weights.length ∧
      WeightTable.ofWeights weights = .ok table ∧
      mixtureBounds first.types first.bounds rest = .ok bounds ∧
      law = .mixture parts table first.types bounds := by
  cases parts with
  | nil => cases h
  | cons first rest =>
    rw [ofMixture] at h
    split at h
    · cases h
    · next hlength =>
      obtain ⟨table, htable, h⟩ := bind_eq_ok.1 h
      obtain ⟨bounds, hbounds, h⟩ := bind_eq_ok.1 h
      cases h
      exact ⟨first, rest, table, bounds, rfl, Decidable.not_not.1 hlength, htable, hbounds, rfl⟩

/-! ## Shape -/

/-- A law that is made has a kind for each number of a draw. -/
theorem Made.length_types {law : Law} (h : law.Made) : law.types.length = law.dimension := by
  induction h with
  | uniformInt | uniformFloat | normal | roulette => rfl
  | mixture _ hlaw _ =>
    obtain ⟨first, rest, table, bounds, rfl, _, _, _, rfl⟩ := ofMixture_eq_ok hlaw
    rfl
  | joint _ hlaw ih =>
    obtain ⟨_, rfl⟩ := ofJoint_eq_ok hlaw
    rw [types, dimension, allTypes_eq_flatMap, length_flatMap_eq_totalDimension ih]

/-- A law that is made has bounds for each number of a draw. -/
theorem Made.length_bounds {law : Law} (h : law.Made) : law.bounds.length = law.dimension := by
  induction h with
  | uniformInt | uniformFloat | normal | roulette => rfl
  | mixture hmade hlaw ih =>
    obtain ⟨first, rest, table, bounds, rfl, _, _, hbounds, rfl⟩ := ofMixture_eq_ok hlaw
    have hfirst := hmade first List.mem_cons_self
    show bounds.length = first.types.length
    rw [length_mixtureBounds hbounds, ih first List.mem_cons_self, hfirst.length_types]
  | joint _ hlaw ih =>
    obtain ⟨_, rfl⟩ := ofJoint_eq_ok hlaw
    rw [bounds, dimension, allBounds_eq_flatMap, length_flatMap_eq_totalDimension ih]

/-- A law that is made draws at least one number. -/
theorem Made.dimension_pos {law : Law} (h : law.Made) : 0 < law.dimension := by
  induction h with
  | uniformInt | uniformFloat | normal | roulette => exact Nat.one_pos
  | mixture hmade hlaw ih =>
    obtain ⟨first, rest, table, bounds, rfl, _, _, _, rfl⟩ := ofMixture_eq_ok hlaw
    show 0 < first.types.length
    rw [(hmade first List.mem_cons_self).length_types]
    exact ih first List.mem_cons_self
  | @joint parts _ _ hlaw ih =>
    obtain ⟨hne, rfl⟩ := ofJoint_eq_ok hlaw
    cases parts with
    | nil => exact absurd rfl hne
    | cons part parts =>
      have := ih part List.mem_cons_self
      rw [dimension, totalDimension]
      omega

/-! ## Kinds of bounds -/

/-- Bounds of the same kinds are united without a failure, to bounds of these kinds. -/
theorem exists_uniteBounds : ∀ {is js : List Interval},
    is.map Interval.type = js.map Interval.type →
      ∃ bounds, uniteBounds is js = .ok bounds ∧
        bounds.map Interval.type = is.map Interval.type
  | [], _, _ => ⟨[], rfl, rfl⟩
  | i :: is, [], h => nomatch h
  | i :: is, j :: js, h => by
    rw [List.map_cons, List.map_cons] at h
    obtain ⟨hi, his⟩ := List.cons.inj h
    obtain ⟨bound, hbound, htype⟩ := Interval.exists_union hi
    obtain ⟨bounds, hbounds, htypes⟩ := exists_uniteBounds his
    refine ⟨bound :: bounds, bind_eq_ok.2 ⟨bound, hbound, bind_eq_ok.2 ⟨bounds, hbounds, rfl⟩⟩, ?_⟩
    rw [List.map_cons, List.map_cons, htype, htypes]

/-- An error that is not about bounds that have no union. -/
def IsNotOfUnion (e : Error) : Prop :=
  e ≠ .invalidValue .unionTypes

/-- Weights are refused for reasons of their own. -/
theorem lands_ofWeights (weights : List Float) :
    Lands (fun _ => True) IsNotOfUnion (WeightTable.ofWeights weights) := by
  unfold WeightTable.ofWeights
  split
  · trivial
  · next fault hfault =>
    unfold WeightTable.fault? at hfault
    rintro ⟨rfl⟩
    split at hfault
    · cases hfault
    · split at hfault
      · cases hfault
      · simp only at hfault
        split at hfault <;> cases hfault

/-- The bounds of parts that have bounds of the kinds of their numbers are of these kinds, and they
are united without a failure. -/
theorem lands_mixtureBounds {types : List ScalarType} {found : List Interval} {laws : List Law}
    (hfound : found.map Interval.type = types)
    (hlaws : ∀ law ∈ laws, law.bounds.map Interval.type = law.types) :
    Lands (fun bounds => bounds.map Interval.type = types) IsNotOfUnion
      (mixtureBounds types found laws) := by
  induction laws generalizing found with
  | nil => exact hfound
  | cons law laws ih =>
    obtain ⟨hlaw, hlaws⟩ := List.forall_mem_cons.1 hlaws
    rw [mixtureBounds]
    split
    · exact fun h => nomatch h
    · split
      · exact fun h => nomatch h
      · next htypes =>
        have hsame : found.map Interval.type = law.bounds.map Interval.type := by
          rw [hfound, hlaw, Decidable.not_not.1 htypes]
        obtain ⟨united, hunited, hkinds⟩ := exists_uniteBounds hsame
        rw [hunited]
        exact ih (hkinds.trans hfound) hlaws

/-- So are those of a mixture of such parts. -/
theorem lands_ofMixture {parts : List Law} (weights : List Float)
    (hparts : ∀ part ∈ parts, part.bounds.map Interval.type = part.types) :
    Lands (fun law => law.bounds.map Interval.type = law.types) IsNotOfUnion
      (ofMixture parts weights) := by
  cases parts with
  | nil => exact fun h => nomatch h
  | cons first rest =>
    obtain ⟨hfirst, hrest⟩ := List.forall_mem_cons.1 hparts
    rw [ofMixture]
    split
    · exact fun h => nomatch h
    · exact (lands_ofWeights weights).bind fun _ _ =>
        (lands_mixtureBounds hfirst hrest).bind fun _ hbounds => hbounds

/-- The bounds of a law that is made are of the kinds of its numbers. -/
theorem Made.map_type_bounds {law : Law} (h : law.Made) :
    law.bounds.map Interval.type = law.types := by
  induction h with
  | uniformInt | uniformFloat | roulette => rfl
  | normal law =>
    rw [bounds, types, List.map_singleton, Normal.bounds]
    cases law.type <;> cases law.scale <;> rfl
  | @mixture parts weights law _ hlaw ih =>
    have hkinds := lands_ofMixture weights ih
    rw [hlaw] at hkinds
    exact hkinds
  | joint _ hlaw ih =>
    obtain ⟨_, rfl⟩ := ofJoint_eq_ok hlaw
    rw [bounds, types, allBounds_eq_flatMap, allTypes_eq_flatMap, List.map_flatMap]
    exact List.flatMap_congr ih

end SearchSpace.Law
