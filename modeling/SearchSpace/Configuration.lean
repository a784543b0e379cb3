import SearchSpace.Expr.Printer

/-!
# Frames and configurations

A `Frame` is what never changes of a space: its identity, its name, its parameters, and the clauses
that no configuration may satisfy. A `Configuration` is a vector of values in the frame of a space,
in which the mark of an inactive parameter stands for those that take no part. Nothing is said about
whether the values are valid; the space decides that.
-/

namespace SearchSpace

/-- What never changes of a space. -/
structure Frame where
  /-- Tells spaces apart. -/
  id : Nat
  name : String
  scope : Scope
  /-- The clauses that no configuration may satisfy. -/
  clauses : List (Expr Parameter)

/-- One value for each parameter of a space. -/
structure Configuration where
  frame : Frame
  values : List Value

namespace Configuration

/-- A configuration with the given values, of which there must be one for each parameter. -/
def ofValues (frame : Frame) (values : List Value) : Except Error Configuration :=
  if values.length = frame.scope.size then .ok ⟨frame, values⟩
  else .error (.invalidValue (.configurationLength frame.name frame.scope.size values.length))

/-- The values, bound to the parameters. -/
def binding (c : Configuration) : Binding :=
  ⟨c.frame.scope, c.values⟩

/-- Configurations are the same when they are of the same space and have the same values. -/
instance : BEq Configuration where
  beq c d := c.frame.id == d.frame.id && c.values == d.values

/-- The names of the parameters with their values. -/
def text (c : Configuration) : String :=
  let entry := fun ((p, v) : Parameter × Value) => p.name.text ++ ": " ++ v.text
  "\x7b" ++ ", ".intercalate ((c.frame.scope.parameters.zip c.values).map entry) ++ "\x7d"

end Configuration

end SearchSpace
