import SearchSpace.Expr.Parser
import SearchSpace.Space.Activation
import SearchSpace.Assignment

/-!
# Spaces

A `Space` is a frame with what can change: the conditions of its parameters and their dependency
graph, the laws assigned to the parameters, and the generator from which it draws. `Space.build`
makes a space from a description, `Space.setCondition` replaces a condition, and `Space.assign` a
law. The first two refuse what would leave a space whose default values cannot be activated or are
ruled out by a clause.
-/

namespace SearchSpace

/-- Parameters with conditions, clauses and laws. -/
structure Space extends Frame where
  conditions : Conditions
  /-- The dependencies of the conditions. -/
  graph : DependencyGraph
  assignment : Assignment
  generator : Generator

namespace Space

/-! ## Building -/

/-- An expression as it is given: as a tree, or as a text to be read when the space is built. -/
inductive Source where
  | tree (e : Expr Parameter)
  | text (s : String)

/-- The expression that is given, if it can be used in a scope. -/
def Source.resolve (scope : Scope) (source : Source) : Except Error (Expr Parameter) := do
  let e ← match source with
    | tree e => pure e
    | text s => Expr.read scope s
  e.check scope
  pure e

/-- What a space is built from. -/
structure Description where
  name : String
  parameters : List Parameter
  conditions : List (Parameter × Source)
  clauses : List Source
  seed : UInt64

/-- Puts the conditions given for some parameters in their places. A parameter can have one. -/
def placeConditions (space : String) (scope : Scope) :
    Conditions → List (Parameter × Source) → Except Error Conditions
  | conditions, [] => .ok conditions
  | conditions, (p, source) :: rest =>
    match scope.indexOf? p with
    | none => .error (.invalidValue (.conditionOutside p.name.text space))
    | some i =>
      if (conditions.at? i).isSome then .error (.invalidValue (.secondCondition p.name.text))
      else do
        let condition ← source.resolve scope
        placeConditions space scope (conditions.set i (some condition)) rest

/-- Whether a parameter takes any text. -/
def isText (p : Parameter) : Bool :=
  match p.domain with
  | .text => true
  | _ => false

/-- The space of a description, with an identity. -/
def build (id : Nat) (d : Description) : Except Error Space :=
  match d.parameters.find? isText with
  | some p => .error (.invalidType (.textInSpace p.name.text))
  | none => do
    let scope ← Scope.ofList d.parameters
    let conditions ← placeConditions d.name scope (d.parameters.map fun _ => none) d.conditions
    let clauses ← d.clauses.mapM (·.resolve scope)
    let frame : Frame := ⟨id, d.name, scope, clauses⟩
    let graph ← DependencyGraph.ofConditions scope conditions
    let assignment ← Assignment.ofParameters d.parameters
    let _ ← activeDefaults frame conditions graph
    pure ⟨frame, conditions, graph, assignment, ⟨d.seed⟩⟩

/-! ## Changing -/

/-- Replaces the condition of a parameter, or takes it away. -/
def setCondition (s : Space) (p : Parameter) (condition : Option (Expr Parameter)) :
    Except Error Space :=
  match s.scope.indexOf? p with
  | none => .error (.invalidValue (.notInSpace p.name.text s.name))
  | some i => do
    match condition with
    | some c => c.check s.scope
    | none => pure ()
    let conditions := s.conditions.set i condition
    let graph ← DependencyGraph.ofConditions s.scope conditions
    let _ ← activeDefaults s.toFrame conditions graph
    pure { s with conditions, graph }

/-- Gives the parameters at some places a law together. -/
def assign (s : Space) (distribution : Distribution) (indices : List Nat) : Except Error Space := do
  let assignment ← s.assignment.assign s.scope.parameters distribution indices
  pure { s with assignment }

/-- Restarts the generator. -/
def setSeed (s : Space) (seed : UInt64) : Space :=
  { s with generator := ⟨seed⟩ }

/-! ## Looking up -/

/-- The condition of the parameter at a place. -/
def conditionAt (s : Space) (index : Nat) : Except Error (Option (Expr Parameter)) :=
  match s.conditions[index]? with
  | some condition => .ok condition
  | none => .error (.outOfBounds index s.conditions.length)

end Space

end SearchSpace
