import SearchSpace.Error

/-!
# Intervals

An `Interval` is a set of numbers of one kind between two bounds, each of which belongs to it or
not. A `Span` is the same over any type whose values a key orders; the integers are ordered by
themselves, and binary64 numbers by `Binary64.orderKey`, so that an interval of those can tell
`-0.0` from `0.0`.

Intervals are sets of numbers: `contains` is membership, `includes` is inclusion, `intersect` is the
overlap and `union` is the least interval around both.
-/

namespace SearchSpace

/-- What lies between two bounds. -/
structure Span (α : Type) where
  lower : α
  upper : α
  /-- Whether the lower bound belongs to the span. -/
  lowerIncluded : Bool
  /-- Whether the upper bound belongs to the span. -/
  upperIncluded : Bool
deriving DecidableEq

namespace Span

variable {α : Type} (key : α → Int)

/-- Whether a value lies between the bounds. -/
def contains (s : Span α) (v : α) : Bool :=
  (key s.lower < key v || s.lowerIncluded && key s.lower == key v) &&
    (key v < key s.upper || s.upperIncluded && key v == key s.upper)

/-- Whether each bound of `t` lies within the bounds of `s`. -/
def covers (s t : Span α) : Bool :=
  (key s.lower < key t.lower ||
      key s.lower == key t.lower && (s.lowerIncluded || !t.lowerIncluded)) &&
    (key t.upper < key s.upper ||
      key t.upper == key s.upper && (s.upperIncluded || !t.upperIncluded))

/-- The span from the lesser lower bound to the greater upper bound. -/
def hull (s t : Span α) : Span α :=
  let (lower, lowerIncluded) := match compare (key s.lower) (key t.lower) with
    | .lt => (s.lower, s.lowerIncluded)
    | .gt => (t.lower, t.lowerIncluded)
    | .eq => (s.lower, s.lowerIncluded || t.lowerIncluded)
  let (upper, upperIncluded) := match compare (key s.upper) (key t.upper) with
    | .gt => (s.upper, s.upperIncluded)
    | .lt => (t.upper, t.upperIncluded)
    | .eq => (s.upper, s.upperIncluded || t.upperIncluded)
  ⟨lower, upper, lowerIncluded, upperIncluded⟩

/-- The span from the greater lower bound to the lesser upper bound. -/
def overlap (s t : Span α) : Span α :=
  let (lower, lowerIncluded) := match compare (key s.lower) (key t.lower) with
    | .gt => (s.lower, s.lowerIncluded)
    | .lt => (t.lower, t.lowerIncluded)
    | .eq => (s.lower, s.lowerIncluded && t.lowerIncluded)
  let (upper, upperIncluded) := match compare (key s.upper) (key t.upper) with
    | .lt => (s.upper, s.upperIncluded)
    | .gt => (t.upper, t.upperIncluded)
    | .eq => (s.upper, s.upperIncluded && t.upperIncluded)
  ⟨lower, upper, lowerIncluded, upperIncluded⟩

/-- The span with its values changed one by one. -/
def map {β : Type} (f : α → β) (s : Span α) : Span β :=
  ⟨f s.lower, f s.upper, s.lowerIncluded, s.upperIncluded⟩

/-! ### Spans of integers -/

/-- The least integer above or at the lower bound, and the greatest below or at the upper one. -/
def closed (s : Span Int64) : Int × Int :=
  (if s.lowerIncluded then s.lower.toInt else s.lower.toInt + 1,
    if s.upperIncluded then s.upper.toInt else s.upper.toInt - 1)

/-- A span of integers is empty when its closed bounds have crossed. -/
def isEmptyInt (s : Span Int64) : Bool :=
  s.closed.2 < s.closed.1

/-- Inclusion of a span of integers in another, both not empty. -/
def coversInt (s t : Span Int64) : Bool :=
  s.closed.1 ≤ t.closed.1 && t.closed.2 ≤ s.closed.2

/-! ### Spans of binary64 numbers -/

/-- Between two different bounds in order there is always a number, if only one of the bounds. -/
def isEmptyFloat (s : Span Float) : Bool :=
  match compare (Binary64.orderKey s.lower) (Binary64.orderKey s.upper) with
  | .lt => false
  | .eq => !(s.lowerIncluded && s.upperIncluded)
  | .gt => true

end Span

/-- A set of numbers of one kind between two bounds. -/
inductive Interval where
  | int (span : Span Int64)
  | float (span : Span Float)
deriving DecidableEq

namespace Interval

/-! ## Making intervals -/

/-- The interval of the given kind with the given bounds. Both must be of that kind, and neither may
be not-a-number. -/
def ofBounds (type : ScalarType) (lower upper : Scalar) (lowerIncluded upperIncluded : Bool) :
    Except Error Interval :=
  match type, lower, upper with
  | .int, .int l, .int u => .ok (.int ⟨l, u, lowerIncluded, upperIncluded⟩)
  | .float, .float l, .float u =>
    if l.isNaN || u.isNaN then .error (.invalidValue .intervalNaN)
    else .ok (.float ⟨l, u, lowerIncluded, upperIncluded⟩)
  | type, _, _ => .error (.invalidValue (.intervalType type))

/-- The integers from `lower` on and below `upper`. -/
def ints (lower upper : Int64) : Interval :=
  .int ⟨lower, upper, true, false⟩

/-- The binary64 numbers from `lower` on and below `upper`. -/
def floats (lower upper : Float) : Interval :=
  .float ⟨lower, upper, true, false⟩

/-- All numbers of a kind; of the binary64 numbers, all but the infinities. -/
def all : ScalarType → Interval
  | .int => .int ⟨Int64.minValue, Int64.maxValue, true, true⟩
  | .float => .float ⟨-1.0 / 0.0, 1.0 / 0.0, false, false⟩

/-! ## Parts -/

/-- The kind of the numbers. -/
def type : Interval → ScalarType
  | int _ => .int
  | float _ => .float

/-- The lower bound. -/
def lower : Interval → Scalar
  | int s => .int s.lower
  | float s => .float s.lower

/-- The upper bound. -/
def upper : Interval → Scalar
  | int s => .int s.upper
  | float s => .float s.upper

/-- Whether the lower bound belongs to the interval. -/
def lowerIncluded : Interval → Bool
  | int s => s.lowerIncluded
  | float s => s.lowerIncluded

/-- Whether the upper bound belongs to the interval. -/
def upperIncluded : Interval → Bool
  | int s => s.upperIncluded
  | float s => s.upperIncluded

/-- The bounds between their brackets, round where a bound does not belong to the interval. -/
def text (i : Interval) : String :=
  (if i.lowerIncluded then "[" else "(") ++ i.lower.text ++ ", " ++ i.upper.text ++
    (if i.upperIncluded then "]" else ")")

/-! ## Sets of numbers -/

/-- Whether no number lies in the interval. -/
def isEmpty : Interval → Bool
  | int s => s.isEmptyInt
  | float s => s.isEmptyFloat

/-- Whether a number lies in the interval. Numbers of the other kind and not-a-number never do. -/
def contains : Interval → Scalar → Bool
  | int s, .int n => s.contains Int64.toInt n
  | float s, .float x => !x.isNaN && s.contains Binary64.orderKey x
  | _, _ => false

/-- Whether every number of `j` lies in `i`. -/
def includes (i j : Interval) : Bool :=
  if j.isEmpty then true
  else if i.isEmpty then false
  else match i, j with
    | int s, int t => s.coversInt t
    | float s, float t => s.covers Binary64.orderKey t
    | _, _ => false

/-- The least interval around two of one kind. -/
def union (i j : Interval) : Except Error Interval :=
  match i, j with
  | int s, int t =>
    .ok (if i.isEmpty then j else if j.isEmpty then i else int (s.hull Int64.toInt t))
  | float s, float t =>
    .ok (if i.isEmpty then j else if j.isEmpty then i else float (s.hull Binary64.orderKey t))
  | _, _ => .error (.invalidValue .unionTypes)

/-- The overlap of two intervals of one kind, which may be empty. -/
def intersect (i j : Interval) : Except Error Interval :=
  match i, j with
  | int s, int t => .ok (int (s.overlap Int64.toInt t))
  | float s, float t => .ok (float (s.overlap Binary64.orderKey t))
  | _, _ => .error (.invalidValue .intersectionTypes)

/-- Whether two intervals have the same ends and equal bounds. The bounds are compared as numbers,
so the two zeros are the same and not-a-number is not even itself. -/
def sameBounds : Interval → Interval → Bool
  | int s, int t => s == t
  | float s, float t =>
    s.lower == t.lower && s.upper == t.upper &&
      s.lowerIncluded == t.lowerIncluded && s.upperIncluded == t.upperIncluded
  | _, _ => false

end Interval

end SearchSpace
