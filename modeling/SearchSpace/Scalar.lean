import SearchSpace.Decimal.Layout

/-!
# Scalars

A `Scalar` is a number as a law draws it: a 64-bit integer or a binary64 number. Parameters turn
scalars into values.
-/

namespace SearchSpace

/-- The two kinds of number. -/
inductive ScalarType where
  | int
  | float
deriving DecidableEq, Repr

/-- The name of a kind of number. -/
def ScalarType.name : ScalarType → String
  | .int => "Int"
  | .float => "Float"

/-- A number, as a law draws it. -/
inductive Scalar where
  | int (n : Int64)
  | float (x : Float)
deriving DecidableEq

namespace Scalar

/-- The kind of a number. -/
def type : Scalar → ScalarType
  | .int _ => .int
  | .float _ => .float

/-- The number as binary64; an integer goes to the nearest one. -/
def toFloat : Scalar → Float
  | .int n => Binary64.ofInt64 n
  | .float x => x

/-- The text of a number, as a literal. -/
def chars : Scalar → List Char
  | .int n => Layout.intChars n.toInt
  | .float x => Layout.literal.chars x

/-- The text of a number, as a literal. -/
def text (s : Scalar) : String :=
  String.ofList s.chars

end Scalar

end SearchSpace
