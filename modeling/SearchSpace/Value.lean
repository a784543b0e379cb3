import SearchSpace.Scalar
import SearchSpace.Text.Quoted

/-!
# Values

A `Value` is what a parameter takes and what an expression computes. Equality of values (`=`) is
structural: an integer differs from every binary64 number, `-0.0` differs from `0.0`, and each
not-a-number is equal to itself only. The comparisons that expressions make are in
`SearchSpace.Comparison`.
-/

namespace SearchSpace

/-- A dynamically typed value. -/
inductive Value where
  /-- No value. -/
  | none
  | bool (b : Bool)
  | int (n : Int64)
  | float (x : SignedFloat)
  | string (s : String)
  /-- An object that is known by its identity only. -/
  | object (key : String)
  /-- The mark of a parameter that takes no part in a configuration. -/
  | inactive
deriving DecidableEq

/-- The kinds of value. -/
inductive ValueType where
  | none
  | bool
  | int
  | float
  | string
  | object
  | inactive
deriving DecidableEq, Repr

/-- The name of a kind of value. -/
def ValueType.name : ValueType → String
  | .none => "None"
  | .bool => "Bool"
  | .int => "Int"
  | .float => "Float"
  | .string => "String"
  | .object => "Object"
  | .inactive => "Inactive"

namespace Value

/-- The kind of a value. -/
def type : Value → ValueType
  | .none => .none
  | .bool _ => .bool
  | .int _ => .int
  | .float _ => .float
  | .string _ => .string
  | .object _ => .object
  | .inactive => .inactive

/-- Whether a value is the mark of an inactive parameter. -/
def isInactive : Value → Bool
  | .inactive => true
  | _ => false

/-- Whether a value is a number. -/
def isNumeric : Value → Bool
  | .int _ | .float _ => true
  | _ => false

/-- The truth value of a boolean. -/
def bool? : Value → Option Bool
  | .bool b => some b
  | _ => Option.none

/-- The integer of an integer value. -/
def int? : Value → Option Int64
  | .int n => some n
  | _ => Option.none

/-- The text of a string value. -/
def string? : Value → Option String
  | .string s => some s
  | _ => Option.none

/-- The number of a numeric value. -/
def scalar? : Value → Option Scalar
  | .int n => some (.int n)
  | .float x => some (.float x.toFloat)
  | _ => Option.none

/-- The number of a numeric value, as binary64. -/
def float? (v : Value) : Option Float :=
  v.scalar?.map Scalar.toFloat

/-- The number of a numeric value, as binary64 with the sign of not-a-number. -/
def signedFloat? : Value → Option SignedFloat
  | .int n => some (.ofFloat (Binary64.ofInt64 n))
  | .float x => some x
  | _ => Option.none

/-- A drawn number as a value. -/
def ofScalar : Scalar → Value
  | .int n => .int n
  | .float x => .float (.ofResult x)

/-- The text of a value. Where an expression can write the value as a literal, it is that
literal. -/
def chars : Value → List Char
  | .none => ['n', 'o', 'n', 'e']
  | .bool true => ['t', 'r', 'u', 'e']
  | .bool false => ['f', 'a', 'l', 's', 'e']
  | .int n => Scalar.chars (.int n)
  | .float x => Scalar.chars (.float x.toFloat)
  | .string s => Quoted.encode s.toList
  | .object _ => "<object>".toList
  | .inactive => "inactive".toList

/-- The text of a value. -/
def text (v : Value) : String :=
  String.ofList v.chars

end Value

end SearchSpace
