import SearchSpace.Space.Sampling

/-!
# Sessions

A `Session` is a table of handles, each a name for something that has been made, together with what
they share: parameters, spaces and laws kept apart from a space. What is shared stays as long as
there are strong references to it, which are counted:

* a parameter is referred to by its handles, and by the scopes, expressions and spaces that have it;
* laws kept apart from a space are referred to by their handles, and they refer to the space;
* a space is referred to by its handles and its configurations, and by laws kept for it; a weak
  handle names a space without counting.

What loses its last reference is destroyed: it gives up the references that it holds itself, and
then the callbacks registered on it run in the order of their registration (`Session.giveUp`).
-/

namespace SearchSpace

/-- What a handle can name. -/
inductive Entity where
  | parameter (p : Parameter)
  | scope (s : Scope)
  | expr (e : Expr Parameter)
  | distribution (d : Distribution)
  | space (id : Nat)
  /-- A space to which the handle is no reference. -/
  | weak (id : Nat)
  | assignment (id : Nat)
  | configuration (c : Configuration)
  | generator (g : Generator)

/-- Whether two parameters, expressions or configurations are equal. No other entities are. -/
def Entity.same : Entity → Entity → Bool
  | .parameter p, .parameter q => p == q
  | .expr e, .expr f => e == f
  | .configuration c, .configuration d => c == d
  | _, _ => false

/-- What is shared, by identity. -/
inductive Resource where
  | parameter (id : Nat)
  | space (id : Nat)
  /-- Laws kept apart from a space. -/
  | assignment (id : Nat)
deriving DecidableEq, Repr

/-- Handles, and what they lead to. -/
structure Session where
  /-- What each handle names. -/
  handles : List (String × Entity)
  /-- The spaces that have been made, by identity. -/
  spaces : List (Nat × Space)
  /-- The laws that have been made apart from a space, by identity. -/
  assignments : List (Nat × OwnedAssignment)
  /-- How many strong references there are to what is shared. -/
  strong : Resource → Nat
  /-- The tags of the callbacks that have not run, in the order of their registration. -/
  callbacks : List (Resource × String)
  /-- The tags of the callbacks that have run, in the order in which they did. -/
  ran : List (Resource × String)
  /-- How many things have been made that have an identity. -/
  made : Nat

namespace Session

/-- The session in which nothing has been made. -/
def empty : Session :=
  ⟨[], [], [], fun _ => 0, [], [], 0⟩

/-! ## Looking up -/

/-- What a handle names. -/
def find? (s : Session) (name : String) : Option Entity :=
  s.handles.lookup name

/-- The parameter that a handle names. -/
def parameter? (s : Session) (name : String) : Option Parameter :=
  match s.find? name with
  | some (.parameter p) => some p
  | _ => none

/-- The space with an identity. -/
def spaceOfId? (s : Session) (id : Nat) : Option Space :=
  s.spaces.lookup id

/-- The laws with an identity. -/
def assignmentOfId? (s : Session) (id : Nat) : Option OwnedAssignment :=
  s.assignments.lookup id

/-- The space that a handle names. -/
def space? (s : Session) (name : String) : Option Space :=
  match s.find? name with
  | some (.space id) => s.spaceOfId? id
  | _ => none

/-- The parameters of the scope or the space that a handle names. -/
def scope? (s : Session) (name : String) : Option Scope :=
  match s.find? name with
  | some (.scope scope) => some scope
  | some (.space id) => (s.spaceOfId? id).map (·.scope)
  | _ => none

/-- The expression that a handle names. -/
def expr? (s : Session) (name : String) : Option (Expr Parameter) :=
  match s.find? name with
  | some (.expr e) => some e
  | _ => none

/-- The law that a handle names. -/
def distribution? (s : Session) (name : String) : Option Distribution :=
  match s.find? name with
  | some (.distribution d) => some d
  | _ => none

/-- The laws for a space that a handle names, with their identity. -/
def assignment? (s : Session) (name : String) : Option (Nat × OwnedAssignment) :=
  match s.find? name with
  | some (.assignment id) => (s.assignmentOfId? id).map fun a => (id, a)
  | _ => none

/-- The configuration that a handle names. -/
def configuration? (s : Session) (name : String) : Option Configuration :=
  match s.find? name with
  | some (.configuration c) => some c
  | _ => none

/-- The generator that a handle names. -/
def generator? (s : Session) (name : String) : Option Generator :=
  match s.find? name with
  | some (.generator g) => some g
  | _ => none

/-- The space that a weak handle names. -/
def weak? (s : Session) (name : String) : Option Nat :=
  match s.find? name with
  | some (.weak id) => some id
  | _ => none

/-- What a handle names, if it can be compared with others. -/
def comparable? (s : Session) (name : String) : Option Entity :=
  (s.find? name).filter fun
    | .parameter _ | .expr _ | .configuration _ => true
    | _ => false

/-- What a handle names, if further handles can be given to it. -/
def shareable? (s : Session) (name : String) : Option Entity :=
  (s.find? name).filter fun
    | .parameter _ | .space _ | .configuration _ => true
    | _ => false

/-- What a handle names, if callbacks can be registered on it. -/
def resource? (s : Session) (name : String) : Option Resource :=
  match s.find? name with
  | some (.parameter p) => some (.parameter p.id)
  | some (.space id) => some (.space id)
  | _ => none

/-- The names of the handles of a law. -/
def namesOf (s : Session) (d : Distribution) : List String :=
  s.handles.filterMap fun (name, entity) =>
    match entity with
    | .distribution e => if d.isSame e then some name else none
    | _ => none

/-! ## References -/

/-- The parameters that some expressions refer to, in order. -/
def parametersOfExprs (es : List (Expr Parameter)) : List Nat :=
  es.flatMap fun e => e.vars.map (·.id)

/-- The parameters that a space refers to, in the order in which it gives them up: its scope, its
clauses, and its conditions. -/
def parametersOfSpace (space : Space) : List Nat :=
  space.scope.parameters.map (·.id) ++ parametersOfExprs space.clauses ++
    parametersOfExprs (space.conditions.filterMap id)

/-- What something that a handle names refers to, in the order in which it gives it up. -/
def heldBy : Entity → List Resource
  | .parameter p => [.parameter p.id]
  | .scope scope => scope.parameters.map fun p => .parameter p.id
  | .expr e => (parametersOfExprs [e]).map .parameter
  | .space id => [.space id]
  | .assignment id => [.assignment id]
  | .configuration c => [.space c.frame.id]
  | .distribution _ | .weak _ | .generator _ => []

/-- Counts a new reference. -/
def acquire (s : Session) (r : Resource) : Session :=
  { s with strong := fun q => if q = r then s.strong q + 1 else s.strong q }

/-- Takes a reference off the count. -/
def discount (s : Session) (r : Resource) : Session :=
  { s with strong := fun q => if q = r then s.strong q - 1 else s.strong q }

/-- Runs the callbacks of a resource in the order of their registration. -/
def runCallbacks (s : Session) (r : Resource) : Session :=
  { s with
    callbacks := s.callbacks.filter (·.1 ≠ r)
    ran := s.ran ++ s.callbacks.filter (·.1 = r) }

/-- Gives up a reference. If it was the last one, the resource gives up what it holds itself, and
then its callbacks run. -/
def giveUp (s : Session) (r : Resource) (held : Session → Session) : Session :=
  let s := s.discount r
  if s.strong r = 0 then (held s).runCallbacks r else s

/-- Gives up a reference to a parameter, which holds nothing. -/
def releaseParameter (s : Session) (id : Nat) : Session :=
  s.giveUp (.parameter id) fun s => s

/-- Gives up a reference to a space, which holds its parameters. -/
def releaseSpace (s : Session) (id : Nat) : Session :=
  s.giveUp (.space id) fun s => match s.spaceOfId? id with
    | some space => (parametersOfSpace space).foldl releaseParameter s
    | none => s

/-- Gives up a reference to laws kept apart from a space, which hold the space. -/
def releaseAssignment (s : Session) (id : Nat) : Session :=
  s.giveUp (.assignment id) fun s => match s.assignmentOfId? id with
    | some a => s.releaseSpace a.owner.id
    | none => s

/-- Gives up a reference. -/
def release (s : Session) : Resource → Session
  | .parameter id => s.releaseParameter id
  | .space id => s.releaseSpace id
  | .assignment id => s.releaseAssignment id

/-! ## Changing the table -/

/-- Gives something a handle. What the handle named before is given up after that. -/
def put (s : Session) (name : String) (entity : Entity) : Session :=
  let before := (s.find? name).elim [] heldBy
  let s := (heldBy entity).foldl acquire s
  before.foldl release { s with handles := (name, entity) :: s.handles.filter (·.1 != name) }

/-- Takes a handle away, and gives the tags of the callbacks that run because of it. -/
def drop? (s : Session) (name : String) : Option (List String × Session) :=
  (s.find? name).map fun entity =>
    let after :=
      (heldBy entity).foldl release { s with handles := s.handles.filter (·.1 != name) }
    ((after.ran.drop s.ran.length).map (·.2), after)

/-- Registers a callback on a resource. -/
def onDestroy (s : Session) (r : Resource) (tag : String) : Session :=
  { s with callbacks := s.callbacks ++ [(r, tag)] }

/-- The space of a weak handle, as long as there is a reference to it. -/
def upgrade (s : Session) (id : Nat) : Except Error Space :=
  match s.spaceOfId? id with
  | some space =>
    if s.strong (.space id) = 0 then .error (.invalidObject .spaceDropped) else .ok space
  | none => .error (.invalidObject .spaceDropped)

/-- Puts a space that has changed in the place of what it was. Its conditions may refer to other
parameters than before. -/
def updateSpace (s : Session) (space : Space) : Session :=
  let before := (s.spaceOfId? space.id).elim [] parametersOfSpace
  let s := (parametersOfSpace space).foldl (fun s id => s.acquire (.parameter id)) s
  before.foldl releaseParameter
    { s with spaces := s.spaces.map fun (id, old) => (id, if id = space.id then space else old) }

/-- Puts laws that have changed in the place of what they were. -/
def updateAssignment (s : Session) (id : Nat) (a : OwnedAssignment) : Session :=
  { s with assignments := s.assignments.map fun (id', old) => (id', if id' = id then a else old) }

/-! ## Making things -/

/-- Makes a parameter. -/
def newParameter (s : Session) (name : String) (d : Parameter.Description) :
    Except Error (Parameter × Session) := do
  pure (← Parameter.build s.made name d, { s with made := s.made + 1 })

/-- Makes a law that can be told apart. -/
def newDistribution (s : Session) (law : Law) : Distribution × Session :=
  (⟨.made s.made, law⟩, { s with made := s.made + 1 })

/-- Makes a space, which refers to its parameters, and gives it a handle. -/
def newSpace (s : Session) (name : String) (d : Space.Description) :
    Except Error (Space × Session) := do
  let space ← Space.build s.made d
  let s := (parametersOfSpace space).foldl (fun s id => s.acquire (.parameter id)) s
  let s := { s with made := s.made + 1, spaces := (space.id, space) :: s.spaces }
  pure (space, s.put name (.space space.id))

/-- Makes laws kept apart from a space, which refer to the space, and gives them a handle. -/
def newAssignment (s : Session) (name : String) (owner : Frame) :
    Except Error (OwnedAssignment × Session) := do
  let a ← OwnedAssignment.ofFrame owner
  let id := s.made
  let s := s.acquire (.space owner.id)
  let s := { s with made := id + 1, assignments := (id, a) :: s.assignments }
  pure (a, s.put name (.assignment id))

end Session

end SearchSpace
