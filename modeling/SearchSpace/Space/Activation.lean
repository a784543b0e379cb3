import SearchSpace.Configuration
import SearchSpace.DependencyGraph
import SearchSpace.Expr.Eval

/-!
# Activity

A parameter with a condition takes part in a configuration where the condition holds. A condition
that reads an inactive parameter does not hold. `activate` visits the parameters with the parents of
each before it, and puts the mark of an inactive parameter in the place of each value whose
condition does not hold on the values so far.

A clause rules a configuration out if it holds. A clause that reads an inactive parameter does not.
-/

namespace SearchSpace

/-- The condition of each parameter that has one, by place. -/
abbrev Conditions := List (Option (Expr Parameter))

/-- The condition of the parameter at a place. -/
def Conditions.at? (conditions : Conditions) (index : Nat) : Option (Expr Parameter) :=
  (conditions[index]?).join

/-- The name of the parameter at a place. -/
def Scope.nameAt (scope : Scope) (index : Nat) : String :=
  (scope.parameters[index]?).elim "" (·.name.text)

/-- Whether the condition of the parameter at a place holds on some values. -/
def conditionHolds (scope : Scope) (index : Nat) (condition : Expr Parameter)
    (values : List Value) : Except Error Bool :=
  match condition.eval ⟨scope, values⟩ with
  | .ok (.bool b) => .ok b
  | .ok v => .error (.invalidCondition condition.text (scope.nameAt index) v)
  | .error e => if e.isInactive then .ok false else .error e

/-- Whether the parameter at a place is active on some values. -/
def isActive (scope : Scope) (conditions : Conditions) (index : Nat) (values : List Value) :
    Except Error Bool :=
  match conditions.at? index with
  | some condition => conditionHolds scope index condition values
  | none => .ok true

/-- Marks the parameters at some places whose condition does not hold as inactive, one after the
other. -/
def activate (scope : Scope) (conditions : Conditions) :
    List Nat → List Value → Except Error (List Value)
  | [], values => .ok values
  | i :: order, values => do
    if ← isActive scope conditions i values then activate scope conditions order values
    else activate scope conditions order (values.set i .inactive)

/-- Whether a clause holds on some values. -/
def clauseHolds (scope : Scope) (clause : Expr Parameter) (values : List Value) :
    Except Error Bool :=
  match clause.eval ⟨scope, values⟩ with
  | .ok (.bool b) => .ok b
  | .ok v => .error (.invalidValue (.clauseNotBoolean clause.text v))
  | .error e => if e.isInactive then .ok false else .error e

/-- The first of some clauses that holds on some values. -/
def holdingClause? (scope : Scope) : List (Expr Parameter) → List Value →
    Except Error (Option (Expr Parameter))
  | [], _ => .ok none
  | clause :: clauses, values => do
    if ← clauseHolds scope clause values then pure (some clause)
    else holdingClause? scope clauses values

/-- The default values of a frame with the inactive ones marked, of which no clause may hold. -/
def activeDefaults (frame : Frame) (conditions : Conditions) (graph : DependencyGraph) :
    Except Error (List Value) := do
  let values ← activate frame.scope conditions graph.order frame.scope.defaults
  match ← holdingClause? frame.scope frame.clauses values with
  | some clause => .error (.invalidConfiguration (.forbiddenDefault clause.text))
  | none => pure values

end SearchSpace
