import Mathlib.Tactic.Ring
import SearchSpace.Proofs.Outcome
import SearchSpace.Proofs.Law.Leaves

/-!
# Where the draws of a law lie

A law that is made keeps the bounds that it gives as long as its leaves do, the laws of one number
from which it is put together (`Made.supported`). Each number of a draw is of the kind that the law
gives (`Made.typed`), so that there are as many as its dimension (`Made.always_length`). A flat law
of integers keeps its bounds on both scales (`UniformInt.always_draw`), and so do a choice by weight
and a normal law of integers on the linear scale.
-/

namespace SearchSpace

/-! ## Flat laws of integers -/

/-- The steps from a lower bound that stay below an upper one are counted without overflow. -/
theorem UniformInt.steps_spec {lower upper step : Int} (hlt : lower < upper) (hstep : 1 ≤ step) :
    1 ≤ (upper - lower + step - 1) / step ∧
      (upper - lower + step - 1) / step ≤ upper - lower ∧
      ∀ k : Int, k < (upper - lower + step - 1) / step → lower + k * step < upper := by
  have hmul := Int.ediv_mul_le (upper - lower + step - 1) (by omega : step ≠ 0)
  generalize hsteps : (upper - lower + step - 1) / step = steps at hmul ⊢
  have hpos : 1 ≤ steps := by
    rw [← hsteps]
    exact Int.le_ediv_of_mul_le (by omega) (by omega)
  refine ⟨hpos, ?_, ?_⟩
  · -- `steps * step ≤ span + step - 1` leaves room for no more than `span` steps
    have hprod : 0 ≤ (steps - 1) * (step - 1) := Int.mul_nonneg (by omega) (by omega)
    have hexpand : (steps - 1) * (step - 1) = steps * step - steps - step + 1 := by ring
    omega
  · intro k hk
    have hle : (k + 1) * step ≤ steps * step :=
      Int.mul_le_mul_of_nonneg_right (by omega) (by omega)
    have hexpand : (k + 1) * step = k * step + step := by ring
    omega

/-- What the checks of a flat law of integers say. -/
theorem UniformInt.lower_lt_upper (law : UniformInt) :
    law.lower.toInt < law.upper.toInt ∧ 0 ≤ law.step.toInt := by
  have h := law.valid
  unfold fault? at h
  split at h
  · cases h
  · next hbounds =>
    split at h
    · cases h
    · next hstep =>
      rw [Int64.not_le, Int64.lt_iff_toInt_lt] at hbounds
      rw [Int64.not_lt, Int64.le_iff_toInt_le] at hstep
      exact ⟨hbounds, hstep⟩

/-- A flat law of integers draws within its bounds, on both scales and whatever the generator. -/
theorem UniformInt.always_draw (law : UniformInt) : Draw.Always law.draw fun n =>
    law.lower.toInt ≤ n.toInt ∧ n.toInt < law.upper.toInt := by
  obtain ⟨hlt, hstep⟩ := law.lower_lt_upper
  have hone : 1 ≤ max law.step.toInt 1 := by omega
  unfold draw
  generalize max law.step.toInt 1 = step at hone
  cases law.scale with
  | linear =>
    obtain ⟨hpos, hle, hbelow⟩ := steps_spec hlt hone
    simp only
    generalize (law.upper.toInt - law.lower.toInt + step - 1) / step = steps at hpos hle hbelow
    have hcount : (UInt64.ofNat steps.toNat).toNat = steps.toNat := by
      refine UInt64.toNat_ofNat_of_lt' ?_
      have := law.lower.le_toInt
      have := law.upper.toInt_lt
      show _ < 18446744073709551616
      omega
    have hcountPos : 0 < UInt64.ofNat steps.toNat := by
      rw [UInt64.lt_iff_toNat_lt, hcount, UInt64.toNat_zero]
      omega
    refine (Draw.always_below hcountPos).bind fun k hk => Draw.always_pure ?_
    rw [UInt64.lt_iff_toNat_lt, hcount] at hk
    have hupper := hbelow k.toNat (by omega)
    have hnonneg : 0 ≤ (k.toNat : Int) * step := Int.mul_nonneg (by omega) (by omega)
    have hlower : law.lower.toInt ≤ law.lower.toInt + k.toNat * step := by omega
    rw [Integer.toInt_ofInt_of_between hlower hupper]
    exact ⟨hlower, hupper⟩
  | logarithmic =>
    refine Draw.always_bind fun x => Draw.always_pure ?_
    generalize (Binary64.truncate (Binary64.floor (Binary64.exp x))).toInt = raw
    obtain ⟨clamped, hclamped⟩ :
        ∃ z, z = max law.lower.toInt (min raw (law.upper.toInt - 1)) := ⟨_, rfl⟩
    have hraw : law.lower.toInt ≤ clamped ∧ clamped < law.upper.toInt := by omega
    rw [← hclamped]
    have hmul := Int.ediv_mul_le (clamped - law.lower.toInt) (by omega : step ≠ 0)
    have hnonneg : 0 ≤ (clamped - law.lower.toInt) / step * step :=
      Int.mul_nonneg (Int.ediv_nonneg (by omega) (by omega)) (by omega)
    generalize (clamped - law.lower.toInt) / step * step = down at hmul hnonneg
    have hlower : law.lower.toInt ≤ law.lower.toInt + down := by omega
    have hupper : law.lower.toInt + down < law.upper.toInt := by omega
    rw [Integer.toInt_ofInt_of_between hlower hupper]
    exact ⟨hlower, hupper⟩

namespace Law

/-- Each number of a draw lies within the bounds that the law gives for it. -/
def Supported (law : Law) : Prop :=
  Draw.Always law.draw (Within law.bounds)

/-- Each number of a draw is of the kind that the law gives for it. -/
def Typed (law : Law) : Prop :=
  Draw.Always law.draw fun row => row.map Scalar.type = law.types

/-! ## Laws of one number -/

/-- The leaf of a flat law of integers keeps its bounds. -/
theorem supported_uniformInt (law : UniformInt) : (uniformInt law).Supported := by
  rw [Supported, draw]
  refine law.always_draw.bind fun n hn => Draw.always_pure ?_
  exact .cons (Interval.contains_ints.2 hn) .nil

/-- A normal law of integers on the linear scale keeps its bounds, which are no bounds. -/
theorem supported_normal {law : Normal} (htype : law.type = .int) (hscale : law.scale = .linear) :
    (normal law).Supported := by
  rw [Supported, draw]
  refine Draw.Always.bind (P := fun x => x.type = .int) ?_ fun x hx => Draw.always_pure ?_
  · refine Draw.always_bind fun x => Draw.always_pure ?_
    rw [htype]
    rfl
  · cases x with
    | float x => cases hx
    | int n =>
      refine .cons ?_ .nil
      rw [Normal.bounds, htype, hscale]
      show (Interval.all .int).contains (.int n) = true
      exact Span.contains_iff_closed.2 ⟨n.minValue_le_toInt, n.toInt_le⟩

/-- A choice by weight keeps its bounds, as long as the number of weights is an integer of 64
bits. -/
theorem supported_roulette {table : WeightTable}
    (h : (table.weights.length : Int) ≤ Int64.maxValue.toInt) : (roulette table).Supported := by
  rw [Supported, draw]
  refine table.always_draw.bind fun i hi => Draw.always_pure ?_
  refine .cons (Interval.contains_ints.2 ?_) .nil
  have hmax : Int64.maxValue.toInt = 9223372036854775807 := by decide
  have hcast : ∀ k : Nat, (k : Int) ≤ Int64.maxValue.toInt → (Int64.ofNat k).toInt = k := by
    intro k hk
    rw [← Int64.ofInt_eq_ofNat]
    exact Int64.toInt_ofInt_of_le (by omega) (by omega)
  rw [hcast i (by omega), hcast _ h, Int64.toInt_zero]
  omega

/-! ## Laws that are made -/

/-- A law that is made keeps its bounds if its leaves do. -/
theorem Made.supported {law : Law} (h : law.Made) (hleaves : ∀ leaf ∈ law.leaves, leaf.Supported) :
    law.Supported := by
  rw [Supported, ← map_leafDraws law]
  refine Draw.Always.map fun g => h.always_keepsLeafBounds g fun p hp => ?_
  obtain ⟨hleaf, g', hdraw⟩ := always_leafDraws law g p hp
  have hwithin := hleaves p.1 hleaf g'
  rwa [hdraw] at hwithin

/-- The draws of some laws that keep their kinds, one after the other, keep these. -/
theorem always_drawAll_typed {laws : List Law} (h : ∀ law ∈ laws, law.Typed) :
    Draw.Always (drawAll laws) fun row => row.map Scalar.type = allTypes laws := by
  induction laws with
  | nil => exact Draw.always_pure rfl
  | cons law laws ih =>
    obtain ⟨hlaw, hlaws⟩ := List.forall_mem_cons.1 h
    rw [drawAll, allTypes]
    refine hlaw.bind fun front hfront => (ih hlaws).bind fun back hback => Draw.always_pure ?_
    rw [List.map_append, hfront, hback]

/-- A draw from the part at an index is a draw from a part. -/
theorem exists_drawPart_eq {parts : List Law} {i : Nat} (hi : i < parts.length) :
    ∃ part ∈ parts, drawPart parts i = part.draw := by
  obtain ⟨part, hpart, heq⟩ := exists_partLeafDraws_eq hi
  refine ⟨part, hpart, ?_⟩
  rw [← map_partLeafDraws, heq, map_leafDraws]

/-- The draws of a law that is made are of the kinds that it gives. -/
theorem Made.typed {law : Law} (h : law.Made) : law.Typed := by
  induction h with
  | uniformInt | uniformFloat | roulette =>
    rw [Typed, draw]
    exact Draw.always_bind fun _ => Draw.always_pure rfl
  | normal law =>
    rw [Typed, draw]
    refine Draw.Always.bind (P := fun x => x.type = law.type) ?_ fun x hx => Draw.always_pure ?_
    · refine Draw.always_bind fun x => Draw.always_pure ?_
      cases law.type <;> rfl
    · rw [List.map_singleton, hx, types]
  | @mixture parts weights _ hmade hlaw ih =>
    obtain ⟨first, rest, table, bounds, rfl, hlength, htable, hbounds, rfl⟩ := ofMixture_eq_ok hlaw
    rw [Typed, draw, types]
    refine table.always_draw.bind fun i hi => ?_
    rw [weights_of_ofWeights htable, ← hlength] at hi
    obtain ⟨part, hpart, heq⟩ := exists_drawPart_eq hi
    rw [heq, ← types_of_mem_mixture hbounds part hpart]
    exact ih part hpart
  | joint _ hlaw ih =>
    obtain ⟨_, rfl⟩ := ofJoint_eq_ok hlaw
    rw [Typed, draw, types]
    exact always_drawAll_typed ih

/-- A draw of a law that is made has as many numbers as the law says. -/
theorem Made.always_length {law : Law} (h : law.Made) :
    Draw.Always law.draw fun row => row.length = law.dimension :=
  h.typed.imp fun row hrow => by rw [← h.length_types, ← hrow, List.length_map]

/-! ## Laws of integers -/

/-- All numbers of a law are integers, none of its normal laws is logarithmic, at any depth, and the
weights of a choice are no more than an integer of 64 bits can count, as is true of every list in a
memory. -/
structure OfIntegers (law : Law) : Prop where
  types : ∀ type ∈ law.types, type = .int
  linear : ∀ leaf, normal leaf ∈ law.leaves → leaf.scale = .linear
  countable : ∀ table, roulette table ∈ law.leaves →
    (table.weights.length : Int) ≤ Int64.maxValue.toInt

/-- Whether a law of one number is neither a logarithmic normal law nor a choice with too many
weights. -/
def isPlain : Law → Bool
  | normal law => law.scale = .linear
  | roulette table => (table.weights.length : Int) ≤ Int64.maxValue.toInt
  | _ => true

/-- The laws of integers are found by a look at their types and leaves. -/
theorem ofIntegers_iff {law : Law} :
    law.OfIntegers ↔ (∀ type ∈ law.types, type = .int) ∧ ∀ leaf ∈ law.leaves, leaf.isPlain := by
  constructor
  · intro h
    refine ⟨h.types, fun leaf hleaf => ?_⟩
    cases leaf with
    | normal law => exact decide_eq_true (h.linear law hleaf)
    | roulette table => exact decide_eq_true (h.countable table hleaf)
    | _ => rfl
  · intro ⟨htypes, hleaves⟩
    exact ⟨htypes, fun law hlaw => of_decide_eq_true (hleaves _ hlaw),
      fun table htable => of_decide_eq_true (hleaves _ htable)⟩

instance (law : Law) : Decidable law.OfIntegers :=
  decidable_of_iff _ ofIntegers_iff.symm

/-- The leaves of a law of integers keep their bounds. -/
theorem Made.supported_leaves {law : Law} (h : law.Made) (hlaw : law.OfIntegers) :
    ∀ leaf ∈ law.leaves, leaf.Supported := by
  induction h with
  | uniformInt law =>
    intro leaf hleaf
    rw [List.mem_singleton.1 hleaf]
    exact supported_uniformInt law
  | uniformFloat law => cases hlaw.types .float (List.mem_singleton_self _)
  | normal law =>
    intro leaf hleaf
    rw [List.mem_singleton.1 hleaf]
    exact supported_normal (hlaw.types law.type (List.mem_singleton_self _))
      (hlaw.linear law (List.mem_singleton_self _))
  | roulette table =>
    intro leaf hleaf
    rw [List.mem_singleton.1 hleaf]
    exact supported_roulette (hlaw.countable table (List.mem_singleton_self _))
  | @mixture parts weights _ hmade hmixture ih =>
    obtain ⟨first, rest, table, bounds, rfl, _, _, hbounds, rfl⟩ := ofMixture_eq_ok hmixture
    intro leaf hleaf
    obtain ⟨part, hpart, hleaf⟩ := exists_of_mem_allLeaves hleaf
    have hsubset : part.leaves ⊆ (Law.mixture (first :: rest) table first.types bounds).leaves :=
      leaves_subset_allLeaves hpart
    refine ih part hpart ⟨?_, ?_, ?_⟩ leaf hleaf
    · rw [types_of_mem_mixture hbounds part hpart]
      exact hlaw.types
    · exact fun leaf hleaf => hlaw.linear leaf (hsubset hleaf)
    · exact fun table hleaf => hlaw.countable table (hsubset hleaf)
  | @joint parts _ hmade hjoint ih =>
    obtain ⟨_, rfl⟩ := ofJoint_eq_ok hjoint
    intro leaf hleaf
    obtain ⟨part, hpart, hleaf⟩ := exists_of_mem_allLeaves hleaf
    have hsubset : part.leaves ⊆ (Law.joint parts).leaves := leaves_subset_allLeaves hpart
    refine ih part hpart ⟨fun type htype => hlaw.types type ?_, ?_, ?_⟩ leaf hleaf
    · rw [types, allTypes_eq_flatMap]
      exact List.mem_flatMap.2 ⟨part, hpart, htype⟩
    · exact fun leaf hleaf => hlaw.linear leaf (hsubset hleaf)
    · exact fun table hleaf => hlaw.countable table (hsubset hleaf)

/-- A law of integers that is made draws integers within its bounds, whatever the generator. -/
theorem Made.always_draw {law : Law} (h : law.Made) (hlaw : law.OfIntegers) :
    Draw.Always law.draw (List.Forall₂ Interval.ContainsInt law.bounds) := by
  intro g
  have hwithin := h.supported (h.supported_leaves hlaw) g
  have htyped := h.typed g
  generalize (law.draw.run g).1 = row at hwithin htyped ⊢
  have hint : ∀ x ∈ row, x.type = .int := fun x hx =>
    hlaw.types x.type (htyped ▸ List.mem_map_of_mem hx)
  clear htyped
  generalize law.bounds = bounds at hwithin ⊢
  induction hwithin with
  | nil => exact .nil
  | @cons bound x bounds row hx hrow ih =>
    obtain ⟨hfirst, hrest⟩ := List.forall_mem_cons.1 hint
    refine .cons ?_ (ih hrest)
    cases x with
    | int n => exact ⟨n, rfl, hx⟩
    | float x => cases hfirst

end Law

end SearchSpace
