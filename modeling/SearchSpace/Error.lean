import SearchSpace.Value
import SearchSpace.Operator

/-!
# Errors

An `Error` says what went wrong and with what. Its wording is in `Error.message` and the functions
that it uses; nothing else in the library writes an error text. `Error.inactiveParameter` is a
signal as much as an error: activation, forbidden clauses and `||` take it to mean that an
expression has no truth value because it reads a parameter that takes no part.
-/

namespace SearchSpace

/-- What is wrong with a value, an argument or an operand. -/
inductive ValueFault where
  -- Comparison
  | incomparable (left right : ValueType)
  | unordered (left right : ValueType)
  | unorderedNaN
  -- Intervals
  | intervalType (type : ScalarType)
  | intervalNaN
  | unionTypes
  | intersectionTypes
  -- Parameters
  | emptyValueSet
  | inactiveInSet
  | duplicateInSet (v : Value)
  | largeSet
  | invalidName (name : String)
  | defaultOutside (v : Value) (name : String)
  | notInDomain (v : Value) (name : String)
  | notOneDimensional (dimension : Nat)
  | emptyBounds (lower upper : Scalar) (name : String)
  | negativeStep (name : String)
  | mixedNumbers (name : String)
  | defaultIndex (index : Nat) (name : String)
  -- Literals and operands
  | infiniteLiteral (x : Float)
  | notBoolean (v : Value)
  | negationOverflow (n : Int64)
  | unaryOperand (op : UnaryOp) (v : Value)
  | noOrder (name : String)
  | divisionByZero
  | overflow (left : Int64) (op : BinaryOp) (right : Int64)
  | notNumbers (op : BinaryOp) (left right : Value)
  -- Scopes and bindings
  | listedTwice (name : String)
  | duplicateName (name : String)
  | unknownName (name : String)
  | unboundParameter (name : String)
  | valueCount (expected actual : Nat)
  -- Laws
  | floatBounds (lower upper : Float)
  | intBounds (lower upper : Int64)
  | lawStep
  | logarithmOfNonpositive
  | infiniteMean
  | deviation (sigma : Float)
  | noWeights
  | weight (w : Float)
  | weightSum
  | emptyMixture
  | weightCount (laws weights : Nat)
  | mixtureDimension (dimension : Nat)
  | mixtureTypes
  | emptyJoint
  -- Assignments
  | indexCount (dimension actual : Nat)
  | repeatedIndex (indices : List Nat)
  -- Spaces
  | notInSpace (parameter space : String)
  | conditionOutside (parameter space : String)
  | secondCondition (parameter : String)
  | clauseNotBoolean (clause : String) (v : Value)
  | foreignConfiguration (owner space : String)
  | foreignAssignment (owner space : String)
  | configurationLength (space : String) (expected actual : Nat)
deriving DecidableEq

/-- Which kind of parameter cannot be used. -/
inductive TypeFault where
  | undeclaredOrder (name : String)
  | notSampled (name : String)
  | textInSpace (name : String)
deriving DecidableEq

/-- What is wrong with an expression. -/
inductive ExpressionFault where
  | unreadable (text : String)
  | unknownParameter (name : String)
  | listOnLeft (op : BinaryOp)
  | listOnRight (op : BinaryOp)
  | listExpected
  | listUnder (op : UnaryOp)
  | nestedList
  | bareList
  | outsideContext (name : String)
  | unbound (name : String)
  | inactiveLiteral
  | unorderedCategory (name : String) (op : BinaryOp)
deriving DecidableEq

/-- Why a vector of values is no valid configuration of a space. -/
inductive Violation where
  | valueCount (expected actual : Nat)
  | shouldBeInactive (name : String) (v : Value)
  | shouldBeActive (name : String)
  | outOfDomain (v : Value) (name : String)
  | forbidden (clause : String)
deriving DecidableEq

/-- What is wrong with a configuration. -/
inductive ConfigurationFault where
  | violates (violation : Violation)
  | forbiddenDefault (clause : String)
deriving DecidableEq

/-- What no longer exists. -/
inductive ObjectFault where
  | spaceDropped
  | unassigned
deriving DecidableEq

/-- What can go wrong. -/
inductive Error where
  | invalidValue (fault : ValueFault)
  | invalidType (fault : TypeFault)
  | invalidExpression (fault : ExpressionFault)
  /-- The condition of the parameter called `name` has the value `v`. -/
  | invalidCondition (condition name : String) (v : Value)
  /-- The conditions form a cycle. -/
  | invalidGraph
  | invalidConfiguration (fault : ConfigurationFault)
  /-- The attempts ran out after `obtained` of `requested` values. -/
  | samplingUnsuccessful (requested obtained : Nat)
  /-- An expression read the parameter called `name`, which is inactive. -/
  | inactiveParameter (name : String)
  | outOfBounds (index length : Nat)
  | invalidObject (fault : ObjectFault)
deriving DecidableEq

/-- Whether an error is the signal that an inactive parameter was read. -/
def Error.isInactive : Error → Bool
  | .inactiveParameter _ => true
  | _ => false

/-! ## Wording -/

/-- The text of a binary64 number inside a sentence. -/
def proseText (x : Float) : String :=
  String.ofList (Layout.prose.chars x)

/-- The text of a list of indices. -/
def indicesText (indices : List Nat) : String :=
  "[" ++ ", ".intercalate (indices.map toString) ++ "]"

/-- The wording of a `ValueFault`. -/
def ValueFault.message : ValueFault → String
  | incomparable left right => s!"cannot compare {left.name} with {right.name}"
  | unordered left right => s!"cannot order {left.name} against {right.name}"
  | unorderedNaN => "cannot order NaN"
  | intervalType type => s!"interval bounds must both be {type.name}"
  | intervalNaN => "interval bounds cannot be NaN"
  | unionTypes => "cannot unite intervals of different types"
  | intersectionTypes => "cannot intersect intervals of different types"
  | emptyValueSet => "value set cannot be empty"
  | inactiveInSet => "inactive cannot be a parameter value"
  | duplicateInSet v => s!"duplicate value {v.text} in value set"
  | largeSet => "value set too large"
  | invalidName name => s!"'{name}' is not a valid parameter name"
  | defaultOutside v name => s!"default value {v.text} is outside the domain of '{name}'"
  | notInDomain v name => s!"{v.text} is not a value of '{name}'"
  | notOneDimensional dimension =>
    s!"parameter sampling needs a one-dimensional distribution, got {dimension}"
  | emptyBounds lower upper name =>
    s!"bounds [{lower.text}, {upper.text}) of '{name}' are empty or not finite"
  | negativeStep name => s!"quantization of '{name}' must be non-negative"
  | mixedNumbers name => s!"discrete values of '{name}' must be numbers of one type"
  | defaultIndex index name => s!"default index {index} out of range for '{name}'"
  | infiniteLiteral x => s!"float literal {proseText x} is not finite"
  | notBoolean v => s!"expected a boolean, got {v.text}"
  | negationOverflow n => s!"integer overflow negating {n.toInt}"
  | unaryOperand op v => s!"operator '{op.symbol}' does not apply to {v.text}"
  | noOrder name => s!"categorical parameter '{name}' has no order"
  | divisionByZero => "division by zero"
  | overflow left op right => s!"integer overflow in {left.toInt} {op.symbol} {right.toInt}"
  | notNumbers op left right =>
    s!"operator '{op.symbol}' needs numbers, got {left.text} and {right.text}"
  | listedTwice name => s!"parameter '{name}' is listed twice"
  | duplicateName name => s!"duplicate parameter name '{name}'"
  | unknownName name => s!"unknown parameter '{name}'"
  | unboundParameter name => s!"parameter '{name}' is not bound"
  | valueCount expected actual => s!"expected {expected} values, got {actual}"
  | floatBounds lower upper =>
    s!"uniform bounds [{proseText lower}, {proseText upper}) must be finite and non-empty"
  | intBounds lower upper => s!"uniform bounds [{lower.toInt}, {upper.toInt}) are empty"
  | lawStep => "quantization must be non-negative"
  | logarithmOfNonpositive => "logarithmic scale needs a positive lower bound"
  | infiniteMean => "mu must be finite"
  | deviation sigma => s!"sigma {proseText sigma} must be finite and non-negative"
  | noWeights => "weights cannot be empty"
  | weight w => s!"weight {proseText w} must be finite and non-negative"
  | weightSum => "weights must have a positive finite sum"
  | emptyMixture => "a mixture needs at least one distribution"
  | weightCount laws weights => s!"{laws} distributions but {weights} weights"
  | mixtureDimension dimension => s!"mixture components must share dimension {dimension}"
  | mixtureTypes => "mixture components must share data types"
  | emptyJoint => "a multivariate distribution needs at least one component"
  | indexCount dimension actual =>
    s!"a distribution of dimension {dimension} needs as many indices, got {actual}"
  | repeatedIndex indices => s!"an index appears twice in {indicesText indices}"
  | notInSpace parameter space => s!"parameter '{parameter}' is not in space '{space}'"
  | conditionOutside parameter space =>
    s!"condition on '{parameter}', which is not in space '{space}'"
  | secondCondition parameter => s!"parameter '{parameter}' already has a condition"
  | clauseNotBoolean clause v => s!"forbidden clause `{clause}` evaluates to {v.text}"
  | foreignConfiguration owner space =>
    s!"configuration belongs to space '{owner}', not '{space}'"
  | foreignAssignment owner space =>
    s!"distribution space belongs to '{owner}', not '{space}'"
  | configurationLength space expected actual =>
    s!"space '{space}' has {expected} parameters, got {actual} values"

/-- The wording of a `TypeFault`. -/
def TypeFault.message : TypeFault → String
  | undeclaredOrder name => s!"'{name}' has no declared value order"
  | notSampled name => s!"string parameter '{name}' cannot be sampled"
  | textInSpace name => s!"string parameter '{name}' cannot be part of a configuration space"

/-- The wording of an `ExpressionFault`. -/
def ExpressionFault.message : ExpressionFault → String
  | unreadable text => s!"cannot parse '{text}'"
  | unknownParameter name => s!"unknown parameter '{name}'"
  | listOnLeft op => s!"a list cannot be the left operand of '{op.symbol}'"
  | listOnRight op => s!"a list cannot be the right operand of '{op.symbol}'"
  | listExpected => "the right operand of '#' must be a list"
  | listUnder op => s!"a list cannot be the operand of '{op.symbol}'"
  | nestedList => "lists cannot be nested"
  | bareList => "a list can only be evaluated as the right operand of '#'"
  | outsideContext name => s!"parameter '{name}' is not in the context"
  | unbound name => s!"parameter '{name}' is not bound"
  | inactiveLiteral => "the inactive marker cannot be a literal"
  | unorderedCategory name op =>
    s!"categorical parameter '{name}' has no order for '{op.symbol}'"

/-- The wording of a `Violation`. -/
def Violation.message : Violation → String
  | valueCount expected actual => s!"expected {expected} values, got {actual}"
  | shouldBeInactive name v => s!"'{name}' should be inactive but is {v.text}"
  | shouldBeActive name => s!"'{name}' should be active"
  | outOfDomain v name => s!"{v.text} is not a value of '{name}'"
  | forbidden clause => s!"forbidden clause `{clause}` holds"

/-- The wording of a `ConfigurationFault`. -/
def ConfigurationFault.message : ConfigurationFault → String
  | violates violation => violation.message
  | forbiddenDefault clause =>
    s!"forbidden clause `{clause}` holds for the default configuration"

/-- The wording of an `ObjectFault`. -/
def ObjectFault.message : ObjectFault → String
  | spaceDropped => "configuration space has been dropped"
  | unassigned => "distribution wrapper"

namespace Error

/-- The name of a kind of error. -/
def name : Error → String
  | invalidValue _ => "InvalidValue"
  | invalidType _ => "InvalidType"
  | invalidExpression _ => "InvalidExpression"
  | invalidCondition .. => "InvalidCondition"
  | invalidGraph => "InvalidGraph"
  | invalidConfiguration _ => "InvalidConfiguration"
  | samplingUnsuccessful .. => "SamplingUnsuccessful"
  | inactiveParameter _ => "InactiveParameter"
  | outOfBounds .. => "OutOfBounds"
  | invalidObject _ => "InvalidObject"

/-- The text of an error. -/
def message : Error → String
  | invalidValue fault => s!"invalid value: {fault.message}"
  | invalidType fault => s!"invalid type: {fault.message}"
  | invalidExpression fault => s!"invalid expression: {fault.message}"
  | invalidCondition condition name v =>
    s!"invalid condition: condition `{condition}` of '{name}' evaluates to {v.text}"
  | invalidGraph => "invalid graph: conditions form a cycle"
  | invalidConfiguration fault => s!"invalid configuration: {fault.message}"
  | samplingUnsuccessful requested obtained =>
    s!"sampling unsuccessful: obtained {obtained} of {requested} values"
  | inactiveParameter name => s!"parameter '{name}' is inactive"
  | outOfBounds index length => s!"index {index} out of bounds (len {length})"
  | invalidObject fault => s!"invalid object: {fault.message}"

end Error

end SearchSpace
