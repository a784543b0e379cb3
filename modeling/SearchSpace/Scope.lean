import SearchSpace.Parameter.Basic

/-!
# Scopes

A `Scope` is a list of parameters in which none is listed twice and all names differ. A parameter is
found by its place, by its identity or by its name. A `Binding` gives each parameter of a scope a
value by its place.
-/

namespace SearchSpace

namespace Scope

/-- The first parameter that stands twice in a list, or has the name of one before it. -/
def firstFault? (before : List Parameter) : List Parameter → Option ValueFault
  | [] => none
  | p :: ps =>
    if before.any (·.id == p.id) then some (.listedTwice p.name.text)
    else if before.any (·.name == p.name) then some (.duplicateName p.name.text)
    else firstFault? (p :: before) ps

end Scope

/-- Parameters in a fixed order, with different names. -/
structure Scope where
  parameters : List Parameter
  valid : Scope.firstFault? [] parameters = none

namespace Scope

/-- The scope of some parameters. -/
def ofList (parameters : List Parameter) : Except Error Scope :=
  match h : firstFault? [] parameters with
  | none => .ok ⟨parameters, h⟩
  | some fault => .error (.invalidValue fault)

/-- The scope without parameters. -/
def empty : Scope :=
  ⟨[], rfl⟩

/-- The number of parameters. -/
def size (s : Scope) : Nat :=
  s.parameters.length

/-- The place of a parameter. -/
def indexOf? (s : Scope) (p : Parameter) : Option Nat :=
  s.parameters.findIdx? (·.id == p.id)

/-- The place of the parameter with a name. -/
def indexOfName? (s : Scope) (name : String) : Option Nat :=
  s.parameters.findIdx? (·.name.text == name)

/-- The parameter at a place. -/
def get (s : Scope) (index : Nat) : Except Error Parameter :=
  match s.parameters[index]? with
  | some p => .ok p
  | none => .error (.outOfBounds index s.size)

/-- The parameter with a name. -/
def find? (s : Scope) (name : String) : Option Parameter :=
  s.parameters.find? (·.name.text == name)

/-- The default value of every parameter. -/
def defaults (s : Scope) : List Value :=
  s.parameters.map (·.defaultValue)

end Scope

/-! ## Bindings -/

/-- Values of the parameters of a scope, by place. -/
structure Binding where
  scope : Scope
  values : List Value

namespace Binding

/-- Binds each parameter to the value at its place; there must be one value for each. -/
def ofValues (scope : Scope) (values : List Value) : Except Error Binding :=
  if values.length = scope.size then .ok ⟨scope, values⟩
  else .error (.invalidValue (.valueCount scope.size values.length))

/-- The value at a place. -/
def value (b : Binding) (index : Nat) : Except Error Value :=
  match b.values[index]? with
  | some v => .ok v
  | none => .error (.outOfBounds index b.values.length)

/-- The value of the parameter with a name. -/
def valueOfName (b : Binding) (name : String) : Except Error Value :=
  match b.scope.indexOfName? name with
  | some i => b.value i
  | none => .error (.invalidValue (.unknownName name))

/-- The value of a parameter. -/
def valueOf (b : Binding) (p : Parameter) : Except Error Value :=
  match b.scope.indexOf? p with
  | some i => b.value i
  | none => .error (.invalidValue (.unboundParameter p.name.text))

end Binding

end SearchSpace
