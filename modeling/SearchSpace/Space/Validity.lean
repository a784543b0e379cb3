import SearchSpace.Space.Basic

/-!
# Valid configurations

A vector of values is a valid configuration of a space if it has one value for each parameter, the
inactive ones are just those whose condition does not hold on it, the others belong to their
domains, and no clause holds on it. `Space.violation?` finds the first thing wrong.
`Space.setActives` marks the inactive parameters of a vector.
-/

namespace SearchSpace.Space

/-- What is wrong with the value of a parameter that is active or not. -/
def valueViolation? (p : Parameter) (active : Bool) (v : Value) : Option Violation :=
  match active, v with
  | false, .inactive => none
  | false, v => some (.shouldBeInactive p.name.text v)
  | true, .inactive => some (.shouldBeActive p.name.text)
  | true, v => if p.domain.admits v then none else some (.outOfDomain v p.name.text)

/-- The first thing wrong with the values of the parameters at some places. -/
def firstViolation? (s : Space) (values : List Value) :
    List Nat → Except Error (Option Violation)
  | [] => .ok none
  | i :: order => do
    let active ← isActive s.scope s.conditions i values
    match s.scope.parameters[i]?, values[i]? with
    | some p, some v =>
      match valueViolation? p active v with
      | some violation => pure (some violation)
      | none => firstViolation? s values order
    | _, _ => firstViolation? s values order

/-- The first thing wrong with some values as a configuration of the space. -/
def violation? (s : Space) (values : List Value) : Except Error (Option Violation) :=
  if values.length ≠ s.scope.size then
    .ok (some (.valueCount s.scope.size values.length))
  else do
    match ← s.firstViolation? values s.graph.order with
    | some violation => pure (some violation)
    | none =>
      match ← holdingClause? s.scope s.clauses values with
      | some clause => pure (some (.forbidden clause.text))
      | none => pure none

/-- Whether some values are a valid configuration of the space. -/
def isValid (s : Space) (values : List Value) : Except Error Bool := do
  pure (← s.violation? values).isNone

/-- Fails with the first thing wrong with some values. -/
def checkValues (s : Space) (values : List Value) : Except Error Unit := do
  match ← s.violation? values with
  | some violation => .error (.invalidConfiguration (.violates violation))
  | none => pure ()

/-- Whether a configuration, which must be of this space, is valid. -/
def checkConfiguration (s : Space) (c : Configuration) : Except Error Bool :=
  if c.frame.id ≠ s.id then
    .error (.invalidValue (.foreignConfiguration c.frame.name s.name))
  else s.isValid c.values

/-- The configuration of the default values. -/
def defaultConfiguration (s : Space) : Except Error Configuration := do
  pure ⟨s.toFrame, ← activate s.scope s.conditions s.graph.order s.scope.defaults⟩

/-- Marks the parameters whose condition does not hold as inactive. -/
def setActives (s : Space) (values : List Value) : Except Error (List Value) :=
  if values.length ≠ s.scope.size then
    .error (.invalidValue (.valueCount s.scope.size values.length))
  else activate s.scope s.conditions s.graph.order values

end SearchSpace.Space
