import SearchSpace.Proofs.Binary64.Sign
import SearchSpace.Proofs.Law.Support

/-!
# Laws of one integer

Every draw of a flat law of integers, of a normal law that is rounded to integers and of a choice by
weight is one integer, and it lies within the bounds of the law with one exception
(`OneInteger.contains_draw_iff`): the bounds of a normal law on the logarithmic scale leave out the
greatest integer of 64 bits, and this is what a draw becomes that is too large for 64 bits. The
draws of such a law are at least zero, since an exponential has no minus sign and neither a step nor
rounding gives it one.
-/

namespace SearchSpace

/-- Bringing an unsigned number to the steps of a normal law keeps it unsigned. -/
theorem Binary64.Unsigned.stepped {x step : Float} (hx : Unsigned x) :
    Unsigned (if 0.0 < step then Binary64.round (x / step) * step else x) := by
  split
  · next hstep =>
    have hstep' := unsigned_of_pos hstep
    exact (hx.div hstep').round.mul hstep'
  · exact hx

/-- A normal law of integers draws no negative ones on the logarithmic scale. -/
theorem Normal.always_nonneg {law : Normal} (htype : law.type = .int)
    (hscale : law.scale = .logarithmic) :
    Draw.Always law.draw fun x => ∃ n : Int64, x = .int n ∧ 0 ≤ n.toInt := by
  unfold draw
  refine Draw.always_bind fun x => Draw.always_pure ?_
  simp only [htype, hscale]
  -- neither the steps nor the two roundings bring back the minus sign that an exponential lacks
  refine ⟨_, rfl, Binary64.Unsigned.le_truncate (Binary64.Unsigned.round ?_)⟩
  exact Binary64.Unsigned.stepped (Binary64.unsigned_exp _)

namespace Law

/-- The laws of one integer that the constructors accept: the flat ones, the normal ones, whose
steps need not be whole, and the choices by weight, which have no more weights than an integer of 64
bits can count, as is true of every list in a memory. -/
inductive OneInteger (law : Law) : Prop where
  | uniform {lower upper step : Int64} {scale : Scale}
      (h : ofUniformInt lower upper scale step = .ok law)
  | normal {mu sigma step : Float} {scale : Scale}
      (h : ofNormal .int mu sigma scale step = .ok law)
  | roulette {weights : List Float} (hcount : (weights.length : Int) ≤ Int64.maxValue.toInt)
      (h : ofWeights weights = .ok law)

/-- Whether a law is a normal one on the logarithmic scale. -/
def isLogNormal : Law → Bool
  | normal law => law.scale = .logarithmic
  | _ => false

variable {law : Law}

/-- What the constructor of flat laws of integers makes. -/
theorem exists_of_ofUniformInt {lower upper step : Int64} {scale : Scale}
    (h : ofUniformInt lower upper scale step = .ok law) : ∃ flat, law = .uniformInt flat := by
  unfold ofUniformInt at h
  split at h
  · cases h
    exact ⟨_, rfl⟩
  · cases h

/-- What the constructor of normal laws makes. -/
theorem exists_of_ofNormal {type : ScalarType} {mu sigma step : Float} {scale : Scale}
    (h : ofNormal type mu sigma scale step = .ok law) :
    ∃ leaf, law = .normal leaf ∧ leaf.type = type := by
  unfold ofNormal at h
  split at h
  · cases h
    exact ⟨_, rfl, rfl⟩
  · cases h

/-- What the constructor of choices by weight makes. -/
theorem exists_of_ofWeights {weights : List Float} (h : ofWeights weights = .ok law) :
    ∃ table, law = .roulette table ∧ table.weights = weights := by
  unfold ofWeights at h
  cases htable : WeightTable.ofWeights weights with
  | error e =>
    rw [htable] at h
    cases h
  | ok table =>
    rw [htable] at h
    cases h
    exact ⟨table, rfl, weights_of_ofWeights htable⟩

/-- A law of integers with bounds for one number draws an integer within them. -/
theorem Made.exists_draw_eq (h : law.Made) (hlaw : law.OfIntegers) {bound : Interval}
    (hbounds : law.bounds = [bound]) (g : Generator) :
    ∃ n, (law.draw.run g).1 = [.int n] ∧ bound.contains (.int n) = true := by
  have hdraw := h.always_draw hlaw g
  rw [hbounds] at hdraw
  generalize (law.draw.run g).1 = row at hdraw
  cases hdraw with
  | cons hfirst hrest =>
    cases hrest
    obtain ⟨n, rfl, hn⟩ := hfirst
    exact ⟨n, rfl, hn⟩

/-- On the logarithmic scale, a normal law of integers draws one that lies within its bounds unless
it is the greatest there is. -/
theorem always_draw_logNormal {leaf : Normal} (htype : leaf.type = .int)
    (hscale : leaf.scale = .logarithmic) : Draw.Always (normal leaf).draw fun row =>
      ∃ n, row = [.int n] ∧ (leaf.bounds.contains (.int n) = true ↔ n ≠ Int64.maxValue) := by
  have hbounds : leaf.bounds = .ints 0 Int64.maxValue := by
    rw [Normal.bounds, htype, hscale]
  rw [draw]
  refine (leaf.always_nonneg htype hscale).bind fun x hx => Draw.always_pure ?_
  obtain ⟨n, rfl, hnonneg⟩ := hx
  refine ⟨n, rfl, ?_⟩
  rw [hbounds, Interval.contains_ints, Int64.toInt_zero, ne_eq, ← Int64.toInt_inj]
  have hle := n.toInt_le
  omega

/-- A law of one integer is a law of integers, or a normal one on the logarithmic scale. -/
theorem OneInteger.ofIntegers_or (h : law.OneInteger) : law.Made ∧ (∃ bound, law.bounds = [bound]) ∧
    (law.isLogNormal = false ∧ law.OfIntegers ∨
      ∃ leaf : Normal, law = .normal leaf ∧ leaf.type = .int ∧ leaf.scale = .logarithmic) := by
  cases h with
  | uniform h =>
    obtain ⟨flat, rfl⟩ := exists_of_ofUniformInt h
    refine ⟨.uniformInt flat, ⟨_, rfl⟩, .inl ⟨rfl, ofIntegers_iff.2 ?_⟩⟩
    simp [types, leaves, isPlain]
  | normal h =>
    obtain ⟨leaf, rfl, htype⟩ := exists_of_ofNormal h
    refine ⟨.normal leaf, ⟨_, rfl⟩, ?_⟩
    cases hscale : leaf.scale with
    | linear =>
      refine .inl ⟨by simp [isLogNormal, hscale], ofIntegers_iff.2 ?_⟩
      simp [types, leaves, isPlain, htype, hscale]
    | logarithmic => exact .inr ⟨leaf, rfl, htype, hscale⟩
  | roulette hcount h =>
    obtain ⟨table, rfl, rfl⟩ := exists_of_ofWeights h
    refine ⟨.roulette table, ⟨_, rfl⟩, .inl ⟨rfl, ofIntegers_iff.2 ?_⟩⟩
    simpa [types, leaves, isPlain] using hcount

/-- Every law of one integer has bounds for one number, and every draw of it, whatever the
generator, is one integer, which lies within the bounds unless the law is a normal one on the
logarithmic scale and the integer is the greatest of 64 bits. -/
theorem OneInteger.contains_draw_iff (h : law.OneInteger) (g : Generator) :
    ∃ bound n, law.bounds = [bound] ∧ (law.draw.run g).1 = [.int n] ∧
      (bound.contains (.int n) = true ↔ ¬(law.isLogNormal = true ∧ n = Int64.maxValue)) := by
  obtain ⟨hmade, ⟨bound, hbounds⟩, ⟨hlog, hlaw⟩ | ⟨leaf, rfl, htype, hscale⟩⟩ := h.ofIntegers_or
  · obtain ⟨n, hdraw, hcontains⟩ := hmade.exists_draw_eq hlaw hbounds g
    refine ⟨bound, n, hbounds, hdraw, ?_⟩
    simp [hcontains, hlog]
  · obtain ⟨n, hdraw, hcontains⟩ := always_draw_logNormal htype hscale g
    refine ⟨leaf.bounds, n, rfl, hdraw, ?_⟩
    simpa [isLogNormal, hscale] using hcontains

/-- The normal law of the logarithms of numbers around `exp 2`. -/
def aroundSeven : Law :=
  .normal ⟨.int, 2.0, 1.0, .logarithmic, 0.0, by decide⟩

/-- A draw of a normal law on the logarithmic scale that lies within its bounds. -/
theorem contains_draw_aroundSeven : aroundSeven.OneInteger ∧ ∃ bound n,
    aroundSeven.bounds = [bound] ∧ (aroundSeven.draw.run ⟨1⟩).1 = [.int n] ∧ n ≠ Int64.maxValue ∧
      bound.contains (.int n) = true := by
  have hlaw : aroundSeven.OneInteger := @OneInteger.normal _ 2.0 1.0 0.0 .logarithmic rfl
  obtain ⟨bound, n, hbounds, hdraw, hcontains⟩ := hlaw.contains_draw_iff ⟨1⟩
  have hne : n ≠ Int64.maxValue := by
    rintro rfl
    revert hdraw
    decide +kernel
  exact ⟨hlaw, bound, n, hbounds, hdraw, hne, hcontains.2 fun h => hne h.2⟩

/-- The exponential of 100 is too large for 64 bits. -/
theorem draw_not_contained : ¬∀ (law : Law) (g : Generator), law.OneInteger →
    ∃ bound n, law.bounds = [bound] ∧ (law.draw.run g).1 = [.int n] ∧
      bound.contains (.int n) = true := by
  intro h
  obtain ⟨bound, n, hbounds, hdraw, hcontains⟩ :=
    h (.normal ⟨.int, 100.0, 0.0, .logarithmic, 0.0, by decide⟩) ⟨1⟩
      (@OneInteger.normal _ 100.0 0.0 0.0 .logarithmic rfl)
  have hmax : [Scalar.int Int64.maxValue] = [.int n] := by
    rw [← hdraw]
    decide +kernel
  cases hmax
  cases hbounds
  revert hcontains
  decide

end Law

end SearchSpace
