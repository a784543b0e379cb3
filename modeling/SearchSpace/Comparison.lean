import SearchSpace.Error

/-!
# Comparing values

The equality and the order that expressions use. Unlike structural equality they look at what a
value denotes: an integer and a binary64 number compare as binary64 numbers. Values of kinds that do
not belong together cannot be compared.
-/

namespace SearchSpace.Value

/-- Whether two values denote the same, where they can be compared. -/
def equals (a b : Value) : Except Error Bool :=
  match a, b with
  | .none, .none | .inactive, .inactive => .ok true
  | .bool a, .bool b => .ok (a == b)
  | .int a, .int b => .ok (a == b)
  | .string a, .string b => .ok (a == b)
  | .object a, .object b => .ok (a == b)
  | a, b => match a.scalar?, b.scalar? with
    | some x, some y => .ok (x.toFloat == y.toFloat)
    | _, _ => .error (.invalidValue (.incomparable a.type b.type))

/-- The order of two numbers, which not-a-number does not have. -/
def compareFloats (x y : Float) : Except Error Ordering :=
  if x < y then .ok .lt
  else if y < x then .ok .gt
  else if x == y then .ok .eq
  else .error (.invalidValue .unorderedNaN)

/-- The order of two values: numbers by value, texts by code points. -/
def compare (a b : Value) : Except Error Ordering :=
  match a, b with
  | .int a, .int b => .ok (Ord.compare a.toInt b.toInt)
  | .string a, .string b => .ok (Ord.compare a b)
  | a, b => match a.scalar?, b.scalar? with
    | some x, some y => compareFloats x.toFloat y.toFloat
    | _, _ => .error (.invalidValue (.unordered a.type b.type))

end SearchSpace.Value
