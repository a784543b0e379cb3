import SearchSpace.Weights
import SearchSpace.Interval

/-!
# Laws

A `Law` says how numbers are drawn, one or several at a time. There are three laws for one number
(flat, normal, and an index by weight), and two ways to combine laws: a `mixture` draws from one of
its parts, chosen by weight, and a `joint` law draws from all its parts, one after the other.

This module has the laws and what is known of their draws beforehand: how many numbers a draw has
(`Law.dimension`), of which kinds (`Law.types`), and between which bounds (`Law.bounds`).
-/

namespace SearchSpace

/-- Whether a law draws numbers or their logarithms. -/
inductive Scale where
  | linear
  | logarithmic
deriving DecidableEq, Repr

/-! ## Laws of one number -/

namespace UniformInt

/-- What forbids a flat law over integers. -/
def fault? (lower upper : Int64) (scale : Scale) (step : Int64) : Option ValueFault :=
  if upper ≤ lower then some (.intBounds lower upper)
  else if step < 0 then some .lawStep
  else if scale = .logarithmic ∧ lower ≤ 0 then some .logarithmOfNonpositive
  else none

end UniformInt

/-- Integers from `lower` on and below `upper` that are whole steps from `lower`, all equally likely
on the scale. A step of zero is a step of one. -/
structure UniformInt where
  lower : Int64
  upper : Int64
  scale : Scale
  step : Int64
  valid : UniformInt.fault? lower upper scale step = none
deriving DecidableEq

namespace UniformFloat

/-- What forbids a flat law over binary64 numbers. -/
def fault? (lower upper : Float) (scale : Scale) (step : Float) : Option ValueFault :=
  if !lower.isFinite || !upper.isFinite || upper ≤ lower then some (.floatBounds lower upper)
  else if step.isNaN || step < 0.0 then some .lawStep
  else if scale = .logarithmic ∧ lower ≤ 0.0 then some .logarithmOfNonpositive
  else none

end UniformFloat

/-- Binary64 numbers from `lower` on and below `upper`, all equally likely on the scale. A positive
step keeps those that are whole steps from `lower`. -/
structure UniformFloat where
  lower : Float
  upper : Float
  scale : Scale
  step : Float
  valid : UniformFloat.fault? lower upper scale step = none
deriving DecidableEq

namespace Normal

/-- What forbids a normal law. -/
def fault? (mu sigma step : Float) : Option ValueFault :=
  if !mu.isFinite then some .infiniteMean
  else if !sigma.isFinite || sigma < 0.0 then some (.deviation sigma)
  else if step.isNaN || step < 0.0 then some .lawStep
  else none

end Normal

/-- Numbers around `mu` with deviation `sigma`, both before the scale is applied. A positive step
rounds them to its multiples. -/
structure Normal where
  type : ScalarType
  mu : Float
  sigma : Float
  scale : Scale
  step : Float
  valid : Normal.fault? mu sigma step = none
deriving DecidableEq

/-- Where the numbers of a normal law lie: anywhere, or on the logarithmic scale not below zero. -/
def Normal.bounds (l : Normal) : Interval :=
  match l.type, l.scale with
  | type, .linear => .all type
  | .float, .logarithmic => .floats 0.0 (1.0 / 0.0)
  | .int, .logarithmic => .ints 0 Int64.maxValue

/-! ## All laws -/

/-- How numbers are drawn. -/
inductive Law where
  | uniformInt (law : UniformInt)
  | uniformFloat (law : UniformFloat)
  | normal (law : Normal)
  /-- An index of the table, by weight. -/
  | roulette (table : WeightTable)
  /-- One of the parts, by weight. The parts draw numbers of the same kinds, within the bounds. -/
  | mixture (parts : List Law) (table : WeightTable) (types : List ScalarType)
      (bounds : List Interval)
  /-- All parts, in order. -/
  | joint (parts : List Law)

namespace Law

mutual
/-- How many numbers a draw has. -/
def dimension : Law → Nat
  | uniformInt _ | uniformFloat _ | normal _ | roulette _ => 1
  | mixture _ _ types _ => types.length
  | joint parts => totalDimension parts

/-- How many numbers a draw from each of some laws has together. -/
def totalDimension : List Law → Nat
  | [] => 0
  | law :: laws => law.dimension + totalDimension laws
end

mutual
/-- The kinds of the numbers of a draw. -/
def types : Law → List ScalarType
  | uniformInt _ => [.int]
  | uniformFloat _ => [.float]
  | normal law => [law.type]
  | roulette _ => [.int]
  | mixture _ _ types _ => types
  | joint parts => allTypes parts

/-- The kinds of the numbers of a draw from each of some laws. -/
def allTypes : List Law → List ScalarType
  | [] => []
  | law :: laws => law.types ++ allTypes laws
end

mutual
/-- Where each number of a draw lies. -/
def bounds : Law → List Interval
  | uniformInt law => [.ints law.lower law.upper]
  | uniformFloat law => [.floats law.lower law.upper]
  | normal law => [law.bounds]
  | roulette table => [.ints 0 (Int64.ofNat table.weights.length)]
  | mixture _ _ _ bounds => bounds
  | joint parts => allBounds parts

/-- Where each number of a draw from each of some laws lies. -/
def allBounds : List Law → List Interval
  | [] => []
  | law :: laws => law.bounds ++ allBounds laws
end

/-! ## Making laws -/

/-- A flat law over integers. -/
def ofUniformInt (lower upper : Int64) (scale : Scale) (step : Int64) : Except Error Law :=
  match h : UniformInt.fault? lower upper scale step with
  | none => .ok (uniformInt ⟨lower, upper, scale, step, h⟩)
  | some fault => .error (.invalidValue fault)

/-- A flat law over binary64 numbers. -/
def ofUniformFloat (lower upper : Float) (scale : Scale) (step : Float) : Except Error Law :=
  match h : UniformFloat.fault? lower upper scale step with
  | none => .ok (uniformFloat ⟨lower, upper, scale, step, h⟩)
  | some fault => .error (.invalidValue fault)

/-- A normal law. -/
def ofNormal (type : ScalarType) (mu sigma : Float) (scale : Scale) (step : Float) :
    Except Error Law :=
  match h : Normal.fault? mu sigma step with
  | none => .ok (normal ⟨type, mu, sigma, scale, step, h⟩)
  | some fault => .error (.invalidValue fault)

/-- A normal law of integers, with an integer for the step. -/
def ofNormalInt (mu sigma : Float) (scale : Scale) (step : Int64) : Except Error Law :=
  ofNormal .int mu sigma scale (Binary64.ofInt64 step)

/-- An index by weight. -/
def ofWeights (weights : List Float) : Except Error Law :=
  roulette <$> WeightTable.ofWeights weights

/-- The bounds around both of two lists of bounds, one by one. -/
def uniteBounds : List Interval → List Interval → Except Error (List Interval)
  | i :: is, j :: js => do
    let bound ← i.union j
    let bounds ← uniteBounds is js
    pure (bound :: bounds)
  | is, _ => .ok is

/-- Adds the bounds of further parts of a mixture to those found so far. Each part must draw as many
numbers as the first, and of the same kinds. -/
def mixtureBounds (types : List ScalarType) :
    List Interval → List Law → Except Error (List Interval)
  | bounds, [] => .ok bounds
  | bounds, law :: laws =>
    if law.dimension ≠ types.length then
      .error (.invalidValue (.mixtureDimension types.length))
    else if law.types ≠ types then .error (.invalidValue .mixtureTypes)
    else do mixtureBounds types (← uniteBounds bounds law.bounds) laws

/-- A law that draws from one of the parts, by weight. -/
def ofMixture (parts : List Law) (weights : List Float) : Except Error Law :=
  match parts with
  | [] => .error (.invalidValue .emptyMixture)
  | first :: rest =>
    if parts.length ≠ weights.length then
      .error (.invalidValue (.weightCount parts.length weights.length))
    else do
      let table ← WeightTable.ofWeights weights
      let bounds ← mixtureBounds first.types first.bounds rest
      pure (mixture parts table first.types bounds)

/-- A law that draws from all parts, in order. -/
def ofJoint (parts : List Law) : Except Error Law :=
  if parts.isEmpty then .error (.invalidValue .emptyJoint) else .ok (joint parts)

end Law

end SearchSpace
