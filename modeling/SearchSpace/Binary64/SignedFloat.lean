/-!
# Numbers with the sign of not-a-number

`Float` has one not-a-number, but the encoding of binary64 numbers gives it a sign as well, and
values that are told apart by their encoding are told apart by that sign. A `SignedFloat` is a
`Float` in which not-a-number is positive or negative. The one that is read from a text without a
minus sign is positive, and the result of an operation that has none is negative
(`SignedFloat.ofResult`). An operation on not-a-number gives that not-a-number back
(`SignedFloat.combine`), and negation changes its sign.
-/

namespace SearchSpace

/-- A binary64 number, or not-a-number with a sign. -/
structure SignedFloat where
  toFloat : Float
  /-- Whether this is the negative not-a-number. -/
  isNegativeNaN : Bool
  valid : isNegativeNaN = true → toFloat.isNaN = true
deriving DecidableEq

namespace SignedFloat

/-- The number itself; not-a-number is positive. -/
def ofFloat (x : Float) : SignedFloat :=
  ⟨x, false, fun h => nomatch h⟩

/-- The not-a-number with a negative sign. -/
def negativeNaN : SignedFloat :=
  ⟨0.0 / 0.0, true, fun _ => rfl⟩

/-- What an operation on numbers gives; not-a-number is negative. -/
def ofResult (x : Float) : SignedFloat :=
  if x.isNaN then negativeNaN else ofFloat x

/-- The number with the other sign. -/
def neg (x : SignedFloat) : SignedFloat :=
  if x.toFloat.isNaN && !x.isNegativeNaN then negativeNaN else ofFloat (-x.toFloat)

/-- The result of an operation on two numbers. If an operand is not-a-number, the result is the
first such operand. -/
def combine (op : Float → Float → Float) (x y : SignedFloat) : SignedFloat :=
  if x.toFloat.isNaN then x
  else if y.toFloat.isNaN then y
  else ofResult (op x.toFloat y.toFloat)

end SignedFloat

end SearchSpace
