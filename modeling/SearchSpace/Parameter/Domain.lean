import SearchSpace.Integer
import SearchSpace.Law.Basic
import SearchSpace.Comparison

/-!
# Domains

A `Domain` is the set of values that a parameter can take: the numbers of a range that lie on a
grid, the members of a listed set, or any text. This module has the membership test
(`Domain.admits`), the form in which a domain holds a value that is written in another
(`Domain.canonical?`), and how a number drawn from a law becomes a value (`Domain.ofScalar`).
-/

namespace SearchSpace

/-! ## Ranges of integers -/

/-- The integers from `lower` on and below `upper` that are whole steps from `lower`. A step of zero
is a step of one. -/
structure IntRange where
  lower : Int64
  upper : Int64
  step : Int64
  lower_lt_upper : lower < upper
  step_nonneg : 0 ≤ step
deriving DecidableEq

namespace IntRange

/-- The numbers of the range, on the grid or not. -/
def interval (r : IntRange) : Interval :=
  .ints r.lower r.upper

/-- Whether an integer is whole steps away from the lower bound. -/
def onGrid (r : IntRange) (n : Int64) : Bool :=
  r.step ≤ 1 || (n.toInt - r.lower.toInt).tmod r.step.toInt == 0

/-- Whether an integer belongs to the range and lies on its grid. -/
def admits (r : IntRange) (n : Int64) : Bool :=
  r.interval.contains (.int n) && r.onGrid n

/-- Whether a drawn number lies in the range, before it is brought to the grid. -/
def covers (r : IntRange) : Scalar → Bool
  | .int n => r.interval.contains (.int n)
  | .float x => Binary64.ofInt64 r.lower ≤ x && x < Binary64.ofInt64 r.upper

/-- The law that is flat over the range. -/
def law (r : IntRange) : UniformInt where
  lower := r.lower
  upper := r.upper
  scale := .linear
  step := r.step
  valid := by
    simp [UniformInt.fault?, Int64.not_le.2 r.lower_lt_upper, Int64.not_lt.2 r.step_nonneg]

/-- Brings a drawn number down to the grid; `none` if there is no such integer of 64 bits. -/
def snap? (r : IntRange) (raw : Scalar) : Option Int64 :=
  let whole : Option Int64 := match raw with
    | .int n => some n
    | .float x => if x.isFinite then some (Binary64.truncate (Binary64.floor x)) else none
  whole.bind fun n =>
    let step := max r.step.toInt 1
    Integer.fit? (r.lower.toInt + (n.toInt - r.lower.toInt) / step * step)

end IntRange

/-! ## Ranges of binary64 numbers -/

/-- The binary64 numbers from `lower` on and below `upper`; with a positive step, those that are
nearly whole steps from `lower`. -/
structure FloatRange where
  lower : Float
  upper : Float
  step : Float
  bounds_valid : (!lower.isFinite || !upper.isFinite || decide (upper ≤ lower)) = false
  step_valid : (step.isNaN || decide (step < 0.0)) = false
deriving DecidableEq

namespace FloatRange

/-- The numbers of the range, on the grid or not. -/
def interval (r : FloatRange) : Interval :=
  .floats r.lower r.upper

/-- How far from a whole number of steps a number may lie, relative to the number of steps. -/
def tolerance : Float := 1e-9

/-- Whether a number is nearly whole steps away from the lower bound. -/
def onGrid (r : FloatRange) (x : Float) : Bool :=
  r.step ≤ 0.0 ||
    (let k := (x - r.lower) / r.step
     let scale := if 1.0 < k.abs then k.abs else 1.0
     (k - Binary64.round k).abs ≤ tolerance * scale)

/-- Whether a number belongs to the range and lies on its grid. -/
def admits (r : FloatRange) (x : Float) : Bool :=
  r.interval.contains (.float x) && r.onGrid x

/-- Whether a drawn number lies in the range, before it is brought to the grid. -/
def covers (r : FloatRange) (raw : Scalar) : Bool :=
  r.lower ≤ raw.toFloat && raw.toFloat < r.upper

/-- The law that is flat over the range. -/
def law (r : FloatRange) : UniformFloat where
  lower := r.lower
  upper := r.upper
  scale := .linear
  step := r.step
  valid := by
    simp only [UniformFloat.fault?, r.bounds_valid, r.step_valid, Bool.false_eq_true, reduceIte,
      reduceCtorEq, false_and]

/-- Brings a drawn number down to the grid. Where rounding carries the last point of the grid onto
the upper bound, the point before it. -/
def snap (r : FloatRange) (raw : Scalar) : Float :=
  let x := raw.toFloat
  if 0.0 < r.step then
    let steps := Binary64.floor ((x - r.lower) / r.step)
    let steps := if r.upper ≤ r.lower + steps * r.step then steps - 1.0 else steps
    r.lower + steps * r.step
  else x

end FloatRange

/-! ## Listed sets -/

namespace ValueSet

/-- The first thing wrong in a list of values, given those that stand before it. -/
def firstFault? (before : List Value) : List Value → Option ValueFault
  | [] => none
  | v :: vs =>
    if v.isInactive then some .inactiveInSet
    else if v ∈ before then some (.duplicateInSet v)
    else firstFault? (v :: before) vs

/-- What forbids listing values as a set: it must not be empty, no member may be the mark of an
inactive parameter or stand in it twice, and the places must be integers of 64 bits. -/
def fault? (values : List Value) : Option ValueFault :=
  if values.isEmpty then some .emptyValueSet
  else match firstFault? [] values with
    | some fault => some fault
    | none => if (Integer.fit? values.length).isNone then some .largeSet else none

end ValueSet

/-- A set of values in the order in which they are listed. -/
structure ValueSet where
  values : List Value
  valid : ValueSet.fault? values = none
deriving DecidableEq

namespace ValueSet

/-- The set of some values, if they can form one. -/
def ofList (values : List Value) : Except Error ValueSet :=
  match h : fault? values with
  | none => .ok ⟨values, h⟩
  | some fault => .error (.invalidValue fault)

/-- A set has a member, and the number of its members is an integer of 64 bits. -/
theorem length_fits (s : ValueSet) :
    0 < s.values.length ∧ (Int64.ofNat s.values.length).toInt = s.values.length := by
  have h := s.valid
  unfold fault? at h
  split at h
  · cases h
  · next hne =>
    split at h
    · cases h
    · split at h
      · cases h
      · next hfit =>
        obtain ⟨n, hn⟩ : ∃ n, Integer.fit? s.values.length = some n := by
          cases hn : Integer.fit? s.values.length with
          | none => exact absurd (by rw [hn]; rfl) hfit
          | some n => exact ⟨n, rfl⟩
        have hcount := Integer.toInt_of_fit? hn
        refine ⟨List.length_pos_iff.2 fun hnil => hne (by rw [hnil]; rfl), ?_⟩
        rw [← Int64.ofInt_eq_ofNat, ← hcount, Int64.ofInt_toInt]

/-- The place of a member. -/
def position? (s : ValueSet) (v : Value) : Option Nat :=
  s.values.findIdx? (· = v)

/-- The number of members. -/
def size (s : ValueSet) : Nat :=
  s.values.length

/-- Whether there are no members. -/
def isEmpty (s : ValueSet) : Bool :=
  s.values.isEmpty

/-- The places of the members, as the numbers from which a law draws. -/
def interval (s : ValueSet) : Interval :=
  .ints 0 (Int64.ofNat s.size)

/-- The law that is flat over the places of the members. -/
def law (s : ValueSet) : UniformInt where
  lower := 0
  upper := Int64.ofNat s.size
  scale := .linear
  step := 0
  valid := by
    have hlt : (0 : Int64) < Int64.ofNat s.size := by
      rw [Int64.lt_iff_toInt_lt, size, s.length_fits.2]
      exact Int.natCast_pos.2 s.length_fits.1
    simp [UniformInt.fault?, Int64.not_le.2 hlt]

/-- The member at a drawn place. -/
def get? (s : ValueSet) (raw : Scalar) : Option Value :=
  let place : Option Nat := match raw with
    | .int n => if 0 ≤ n then some n.toInt.toNat else none
    | .float x => if 0.0 ≤ x && x.isFinite then some (Binary64.floor x).toUInt64.toNat else none
  place.bind (s.values[·]?)

end ValueSet

/-- Whether values are numbers of one kind. -/
def areNumbersOfOneType (values : List Value) : Bool :=
  values.all fun v => v.isNumeric && values.head?.any (v.type = ·.type)

/-- A set of numbers of one kind, in increasing order. -/
structure NumberSet extends ValueSet where
  one_type : areNumbersOfOneType values = true
deriving DecidableEq

/-! ## Domains -/

/-- The values that a parameter can take. -/
inductive Domain where
  | ints (range : IntRange)
  | floats (range : FloatRange)
  /-- Values that are told apart and nothing else. -/
  | categorical (set : ValueSet)
  /-- Values ranked in the order in which they are listed. -/
  | ordinal (set : ValueSet)
  /-- Numbers, in their order. -/
  | discrete (set : NumberSet)
  /-- Any text; never drawn. -/
  | text
deriving DecidableEq

namespace Domain

/-- The name of a kind of domain. -/
def typeName : Domain → String
  | ints _ | floats _ => "Numerical"
  | categorical _ => "Categorical"
  | ordinal _ => "Ordinal"
  | discrete _ => "Discrete"
  | text => "String"

/-- The listed values of a domain that is listed. -/
def set? : Domain → Option ValueSet
  | categorical s | ordinal s => some s
  | discrete s => some s.toValueSet
  | ints _ | floats _ | text => none

/-- The number of values of a domain that is listed. -/
def cardinality? (d : Domain) : Option Nat :=
  d.set?.map ValueSet.size

/-- Whether a value belongs to the domain, in the form in which the domain holds it. -/
def admits : Domain → Value → Bool
  | ints r, .int n => r.admits n
  | floats r, .float x => r.admits x.toFloat
  | categorical s, v | ordinal s, v => (s.position? v).isSome
  | discrete s, v => (s.position? v).isSome
  | text, .string _ => true
  | _, _ => false

/-- A number in the other kind: an integer as binary64, a whole binary64 number as an integer. -/
def otherKind? : Value → Option Value
  | .int n => some (.float (.ofFloat (Binary64.ofInt64 n)))
  | .float x =>
    if Binary64.isWhole x.toFloat then some (.int (Binary64.truncate x.toFloat)) else none
  | _ => none

/-- The form in which the domain holds a value, if it does. A range of binary64 numbers takes
integers too, and a set of numbers takes those of the other kind. -/
def canonical? : Domain → Value → Option Value
  | ints r, .int n => if r.admits n then some (.int n) else none
  | floats r, .float x => if r.admits x.toFloat then some (.float x) else none
  | floats r, .int n =>
    let x := Binary64.ofInt64 n
    if r.admits x then some (.float (.ofFloat x)) else none
  | categorical s, v | ordinal s, v => (s.position? v).map fun _ => v
  | discrete s, v =>
    if (s.position? v).isSome then some v
    else (otherKind? v).bind fun w => (s.position? w).map fun _ => w
  | text, .string s => some (.string s)
  | _, _ => none

/-- The place of a value in a listed domain. -/
def indexOf? (d : Domain) (v : Value) : Option Nat := do
  let s ← d.set?
  s.position? (← d.canonical? v)

/-- The place of a value in a domain whose values are ordered by their place. -/
def rankOf? (d : Domain) (v : Value) : Option Nat :=
  match d with
  | ordinal _ | discrete _ => d.indexOf? v
  | _ => none

/-! ## Drawing values -/

/-- The numbers that stand for values of the domain: its range, or the places of its members. -/
def interval? : Domain → Option Interval
  | ints r => some r.interval
  | floats r => some r.interval
  | categorical s | ordinal s => some s.interval
  | discrete s => some s.interval
  | text => none

/-- The law of a parameter that has been given none: flat over the values. -/
def defaultLaw? : Domain → Option Law
  | ints r => some (.uniformInt r.law)
  | floats r => some (.uniformFloat r.law)
  | categorical s | ordinal s => some (.uniformInt s.law)
  | discrete s => some (.uniformInt s.law)
  | text => none

/-- Whether draws between these bounds may lie outside the domain. -/
def isExceededBy (d : Domain) (bounds : Interval) : Bool :=
  !d.interval?.any (·.includes bounds)

/-- The value that a drawn number stands for, or the mark of an inactive parameter if there is none.
Only with `checked` is a number outside a range noticed; a place outside a listed set always is. -/
def ofScalar (d : Domain) (checked : Bool) (raw : Scalar) : Value :=
  match d with
  | ints r =>
    if checked && !r.covers raw then .inactive
    else match r.snap? raw with
      | some n => .int n
      | none => .inactive
  | floats r =>
    if checked && !r.covers raw then .inactive else .float (.ofResult (r.snap raw))
  | categorical s | ordinal s => (s.get? raw).getD .inactive
  | discrete s => (s.get? raw).getD .inactive
  | text => .inactive

/-- The values that drawn numbers stand for. -/
def ofScalars (d : Domain) (checked : Bool) (raw : List Scalar) : List Value :=
  raw.map (d.ofScalar checked)

end Domain

end SearchSpace
