import SearchSpace.Exchange.Document
import SearchSpace.Law.Basic
import SearchSpace.Interval

/-!
# Values as JSON

Values, scalars, intervals and the names of types and scales can be exchanged as JSON. A value
without content is written as its name, and one with content as an object with its name as the only
key. Reading also accepts such an object, with `null` for the content, where there is no content. An
object that is known by its identity only cannot be exchanged.

An interval is exchanged as a record of its parts, which need not fit together.
-/

namespace SearchSpace.Exchange

open Document

/-- A name with its content, if it has some. -/
def variant? : Document → Option (String × Option Document)
  | .string (some name) => some (name, none)
  | .object [(some name, content)] => some (name, some content)
  | _ => none

/-- Whether the content of a name without content is absent. -/
def isAbsent : Option Document → Bool
  | none => true
  | some .null => true
  | some _ => false

/-- Reads one of some names without content. -/
def readName {α : Type} (names : List (String × α)) (d : Document) : Option α := do
  let (name, content) ← variant? d
  if isAbsent content then names.lookup name else none

/-! ## Names -/

/-- Reads a kind of number. -/
def readScalarType : Document → Option ScalarType :=
  readName [("Int", .int), ("Float", .float)]

/-- Writes a kind of number. -/
def writeScalarType (t : ScalarType) : String :=
  quote t.name

/-- Reads a scale. -/
def readScale : Document → Option Scale :=
  readName [("Linear", .linear), ("Logarithmic", .logarithmic)]

/-- Writes a scale. -/
def writeScale : Scale → String
  | .linear => quote "Linear"
  | .logarithmic => quote "Logarithmic"

/-! ## Scalars and values -/

/-- Reads a scalar. -/
def readScalar (d : Document) : Option Scalar :=
  match variant? d with
  | some ("Int", some content) => content.int64?.map .int
  | some ("Float", some content) => content.float?.map .float
  | _ => none

/-- Writes a scalar. -/
def writeScalar : Scalar → String
  | .int n => braces [("Int", toString n.toInt)]
  | .float x => braces [("Float", writeFloat x)]

/-- Reads a value. -/
def readValue (d : Document) : Option Value :=
  match variant? d with
  | some ("None", content) => if isAbsent content then some .none else none
  | some ("Inactive", content) => if isAbsent content then some .inactive else none
  | some ("Bool", some content) => content.bool?.map .bool
  | some ("Int", some content) => content.int64?.map .int
  | some ("Float", some content) => content.float?.map fun x => .float (.ofFloat x)
  | some ("String", some content) => content.string?.map .string
  | _ => none

/-- Writes a value. -/
def writeValue : Value → Option String
  | .none => some (quote "None")
  | .inactive => some (quote "Inactive")
  | .bool b => some (braces [("Bool", if b then "true" else "false")])
  | .int n => some (writeScalar (.int n))
  | .float x => some (writeScalar (.float x.toFloat))
  | .string s => some (braces [("String", quote s)])
  | .object _ => none

/-- Reads a list of values. -/
def readValues : Document → Option (List Value)
  | .array items => items.mapM readValue
  | _ => none

/-- Writes a list of values. -/
def writeValues (values : List Value) : Option String := do
  pure ("[" ++ ",".intercalate (← values.mapM writeValue) ++ "]")

/-! ## Intervals -/

/-- The parts of an interval. -/
structure IntervalRecord where
  type : ScalarType
  lower : Scalar
  upper : Scalar
  lowerIncluded : Bool
  upperIncluded : Bool
deriving DecidableEq

/-- The parts of an interval by name, in order. -/
def intervalKeys : List String :=
  ["numeric_type", "lower", "upper", "lower_included", "upper_included"]

/-- Reads the parts of an interval in order. -/
def readParts : List Document → Option IntervalRecord
  | [type, lower, upper, lowerIncluded, upperIncluded] => do
    pure ⟨← readScalarType type, ← readScalar lower, ← readScalar upper,
      ← lowerIncluded.bool?, ← upperIncluded.bool?⟩
  | _ => none

/-- The only field with a name. -/
def field? (fields : List (Option String × Document)) (key : String) : Option Document :=
  match fields.filter (·.1 == some key) with
  | [(_, value)] => some value
  | _ => none

/-- Reads the parts of an interval from a list of them or from an object with their names. Each name
must stand in the object once; other fields mean nothing. -/
def readInterval : Document → Option IntervalRecord
  | .array items => readParts items
  | .object fields =>
    if fields.all (·.1.isSome) then (intervalKeys.mapM (field? fields)).bind readParts else none
  | _ => none

/-- Writes the parts of an interval. -/
def writeInterval (r : IntervalRecord) : String :=
  let flag (b : Bool) := if b then "true" else "false"
  braces (intervalKeys.zip
    [writeScalarType r.type, writeScalar r.lower, writeScalar r.upper, flag r.lowerIncluded,
      flag r.upperIncluded])

end SearchSpace.Exchange
