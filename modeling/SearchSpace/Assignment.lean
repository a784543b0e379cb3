import SearchSpace.Parameter.Sampling
import SearchSpace.DependencyGraph

/-!
# Assignments of laws to parameters

An `Assignment` gives every parameter of a space a law to be drawn from. A law of several dimensions
is shared by as many parameters, which form a `Group` with it; every parameter is in exactly one
group. At first each parameter is in a group of its own with its default law.

The groups form a linked list whose nodes lie in numbered slots. A slot that has become empty is
used again before a new one is made, and `places` leads from a parameter to the slot of its group
and to its dimension there. `Assignment.groups` is the list as a list.
-/

namespace SearchSpace

/-- Where a law comes from: two laws are the same one when this is. -/
inductive Origin where
  /-- Made by itself, as the `serial`th one. -/
  | made (serial : Nat)
  /-- The default law of a parameter. -/
  | ofParameter (id : Nat)
deriving DecidableEq, Repr

/-- A law that can be told apart from others like it. -/
structure Distribution where
  origin : Origin
  law : Law

namespace Distribution

/-- Whether two distributions are the same one. -/
def isSame (d e : Distribution) : Bool :=
  d.origin = e.origin

/-- The default law of a parameter. -/
def ofParameter (p : Parameter) : Except Error Distribution := do
  pure ⟨.ofParameter p.id, ← p.defaultLaw⟩

end Distribution

/-- A law and the place of the parameter that each of its dimensions is drawn for. -/
structure Group where
  distribution : Distribution
  indices : List Nat

/-- A group in the linked list. -/
structure Group.Node extends Group where
  /-- Whether each dimension has to be checked against the domain it is drawn for. -/
  checked : List Bool
  previous : Option Nat
  next : Option Nat

/-- The laws of the parameters of a space. -/
structure Assignment where
  slots : Array (Option Group.Node)
  /-- The empty slots, the next one to be used in front. -/
  free : List Nat
  first : Option Nat
  last : Option Nat
  /-- The slot and the dimension of each parameter. -/
  places : Array (Nat × Nat)

namespace Assignment

/-! ## The linked list -/

/-- The group in a slot. -/
def node? (a : Assignment) (slot : Nat) : Option Group.Node :=
  (a.slots[slot]?).join

/-- Whether each dimension of a group has to be checked against the domain it is drawn for. -/
def checks (parameters : List Parameter) (group : Group) : List Bool :=
  List.zipWith
    (fun i bounds => parameters[i]?.all fun p => p.domain.isExceededBy bounds)
    group.indices group.distribution.law.bounds

/-- Changes the group in a slot, if there is one. -/
def modify (slots : Array (Option Group.Node)) (slot : Option Nat) (f : Group.Node → Group.Node) :
    Array (Option Group.Node) :=
  match slot with
  | some s => slots.modify s (·.map f)
  | none => slots

/-- Records that each parameter of a group is found in a slot. -/
def record (places : Array (Nat × Nat)) (slot : Nat) (indices : List Nat) : Array (Nat × Nat) :=
  indices.zipIdx.foldl (fun places (i, d) => places.setIfInBounds i (slot, d)) places

/-- Adds a group at the end. -/
def pushBack (parameters : List Parameter) (a : Assignment) (group : Group) : Assignment :=
  let (slot, free, slots) := match a.free with
    | slot :: free => (slot, free, a.slots)
    | [] => (a.slots.size, [], a.slots.push none)
  let node : Group.Node :=
    { group with checked := checks parameters group, previous := a.last, next := none }
  { slots := (modify slots a.last ({ · with next := some slot })).setIfInBounds slot (some node)
    free
    first := if a.last.isSome then a.first else some slot
    last := some slot
    places := record a.places slot group.indices }

/-- Takes the group in a slot out of the list. -/
def unlink (a : Assignment) (slot : Nat) : Assignment :=
  match a.node? slot with
  | none => a
  | some node =>
    let slots := a.slots.setIfInBounds slot none
    let slots := modify slots node.previous ({ · with next := node.next })
    let slots := modify slots node.next ({ · with previous := node.previous })
    { a with
      slots
      free := slot :: a.free
      first := if node.previous.isSome then a.first else node.next
      last := if node.next.isSome then a.last else node.previous }

/-- The groups from a slot on, at most `fuel` of them. -/
def nodesFrom (a : Assignment) : Nat → Option Nat → List Group.Node
  | 0, _ | _, none => []
  | fuel + 1, some slot =>
    match a.node? slot with
    | some node => node :: a.nodesFrom fuel node.next
    | none => []

/-- The groups in their order, as nodes. -/
def nodes (a : Assignment) : List Group.Node :=
  a.nodesFrom a.slots.size a.first

/-- The groups in their order. -/
def groups (a : Assignment) : List Group :=
  a.nodes.map (·.toGroup)

/-! ## Assigning laws -/

/-- Adds a group of its own, with the default law, for the parameter at a place. -/
def pushDefault (parameters : List Parameter) (a : Assignment) (index : Nat) (p : Parameter) :
    Except Error Assignment := do
  pure (a.pushBack parameters ⟨← Distribution.ofParameter p, [index]⟩)

/-- Every parameter in a group of its own, with its default law. -/
def ofParameters (parameters : List Parameter) : Except Error Assignment :=
  let empty : Assignment :=
    { slots := #[], free := [], first := none, last := none
      places := (parameters.map fun _ => (0, 0)).toArray }
  parameters.zipIdx.foldlM (fun a (p, i) => a.pushDefault parameters i p) empty

/-- What forbids a group of a law and places: their number must be the dimension of the law, each
must be that of a parameter, and none may be given twice. -/
def fault? (parameters : List Parameter) (distribution : Distribution) (indices : List Nat) :
    Option Error :=
  if indices.length ≠ distribution.law.dimension then
    some (.invalidValue (.indexCount distribution.law.dimension indices.length))
  else match indices.find? (parameters.length ≤ ·) with
    | some i => some (.outOfBounds i parameters.length)
    | none =>
      if (DependencyGraph.ascending indices).length ≠ indices.length then
        some (.invalidValue (.repeatedIndex indices))
      else none

/-- The slots of the groups that have a parameter at one of some places, ascending. -/
def overlapping (a : Assignment) (indices : List Nat) : List Nat :=
  DependencyGraph.ascending (indices.filterMap fun i => a.places[i]?.map (·.1))

/-- The places of the parameters that lose their group to a new one without being in it,
ascending. -/
def orphans (a : Assignment) (indices : List Nat) : List Nat :=
  ((a.overlapping indices).flatMap fun slot =>
    ((a.node? slot).elim [] (·.indices)).filter (!indices.contains ·)).mergeSort (· ≤ ·)

/-- Gives the parameters at some places a law together. The groups that they were in are taken out;
the other parameters of those get groups of their own again, with their default laws, after the new
one. -/
def assign (parameters : List Parameter) (a : Assignment) (distribution : Distribution)
    (indices : List Nat) : Except Error Assignment :=
  match fault? parameters distribution indices with
  | some e => .error e
  | none => do
    let left := (a.overlapping indices).foldl unlink a
    let joined := left.pushBack parameters ⟨distribution, indices⟩
    (a.orphans indices).foldlM
      (fun a i => match parameters[i]? with
        | some p => a.pushDefault parameters i p
        | none => .ok a)
      joined

/-- The law of the parameter at a place, and the dimension that is drawn for it. -/
def lawAt (a : Assignment) (index : Nat) : Except Error (Distribution × Nat) :=
  match a.places[index]? with
  | none => .error (.outOfBounds index a.places.size)
  | some (slot, dimension) =>
    match a.node? slot with
    | some node => .ok (node.distribution, dimension)
    | none => .error (.invalidObject .unassigned)

/-! ## Drawing -/

open Rejection (Sampler)

/-- The first `n` rows of some columns. -/
def rowsOf : Nat → List (List Value) → List (List Value)
  | 0, _ => []
  | n + 1, columns => columns.filterMap List.head? :: rowsOf n (columns.map List.tail)

/-- A batch of joint draws for a group. A draw is refused as a whole if one of its numbers lies
outside the domain it is drawn for. -/
def batch (parameters : List Parameter) (node : Group.Node) (n : Nat) :
    Sampler Generator (List (Option (List Value))) := do
  let raw ← ExceptT.lift (node.distribution.law.columns n)
  let columns := (raw.zip (node.indices.zip node.checked)).map fun (column, i, checked) =>
    match parameters[i]? with
    | some p => p.domain.ofScalars checked column
    | none => column.map fun _ => .inactive
  pure ((rowsOf n columns).map fun joint =>
    if joint.any Value.isInactive then none else some joint)

/-- Puts the values of a joint draw at their places in a vector. -/
def scatter (indices : List Nat) (joint row : List Value) : List Value :=
  (indices.zip joint).foldl (fun row (i, v) => row.set i v) row

/-- Draws values for all parameters of some groups into `n` vectors. -/
def fillRows (parameters : List Parameter) (n : Nat) :
    List Group.Node → List (List Value) → Sampler Generator (List (List Value))
  | [], rows => pure rows
  | node :: nodes, rows => do
    let draws ← Rejection.collect (batch parameters node) n
    fillRows parameters n nodes
      (List.zipWith (fun row joint => scatter node.indices joint row) rows draws)

/-- Draws `n` vectors of values for the parameters, group after group. -/
def sampleRows (parameters : List Parameter) (a : Assignment) (n : Nat) :
    Sampler Generator (List (List Value)) :=
  fillRows parameters n a.nodes (List.replicate n (parameters.map fun _ => .inactive))

end Assignment

end SearchSpace
