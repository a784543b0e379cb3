import SearchSpace.Expr.Check

/-!
# Dependency graphs

A condition reads the values of other parameters, its parents. A `DependencyGraph` has the parents
and the children of each of its nodes, and an order of all nodes in which every parent comes before
its children. `DependencyGraph.ofParents` enters each node with its parents as their child, and finds
that order, or a cycle: it counts for each node the parents that are not yet in the order, puts a
node into a queue when its count comes to zero, and takes nodes from the queue until it is empty. The
nodes of a cycle keep their counts up.
-/

namespace SearchSpace

/-- Nodes `0, 1, …` with their parents and children, in an order that has parents first. -/
structure DependencyGraph where
  /-- The parents of each node, ascending. -/
  parents : List (List Nat)
  /-- The children of each node, ascending. -/
  children : List (List Nat)
  /-- All nodes, parents before children. -/
  order : List Nat
deriving DecidableEq, Repr

namespace DependencyGraph

/-- A list of indices in ascending order, each once. -/
def ascending (indices : List Nat) : List Nat :=
  (indices.mergeSort (· ≤ ·)).eraseDups

/-- Enters a child with each of its parents. A parent must be a node. -/
def enterChild (child : Nat) :
    List Nat → List (List Nat) → Except Error (List (List Nat))
  | [], children => .ok children
  | parent :: parents, children =>
    if parent < children.length then
      enterChild child parents (children.modify parent (· ++ [child]))
    else .error (.outOfBounds parent children.length)

/-- Enters the nodes from `child` on, each with its parents. -/
def enterFrom (child : Nat) :
    List (List Nat) → List (List Nat) → Except Error (List (List Nat))
  | [], children => .ok children
  | parents :: rest, children => do
    enterFrom (child + 1) rest (← enterChild child parents children)

/-- The children of each node. -/
def childLists (parents : List (List Nat)) : Except Error (List (List Nat)) :=
  enterFrom 0 parents (List.replicate parents.length [])

/-- Takes one off the count of a node, and tells whether it has come to zero. A node with a count of
zero, or none at all, has nothing to take off. -/
def countDown? (counts : List Nat) (node : Nat) : Option (List Nat × Bool) :=
  match counts[node]? with
  | some (count + 1) => some (counts.set node count, count == 0)
  | _ => none

/-- Takes one off the counts of some nodes, and gives those that have come to zero. -/
def countDownAll? (counts : List Nat) : List Nat → Option (List Nat × List Nat)
  | [] => some (counts, [])
  | node :: nodes => do
    let (counts, zero) ← countDown? counts node
    let (counts, ready) ← countDownAll? counts nodes
    pure (counts, if zero then node :: ready else ready)

/-- Moves nodes from the queue to the order, at most `fuel` of them. It fails if a count would have
to go below zero or the fuel is used up. -/
def drain? (children : List (List Nat)) :
    Nat → List Nat → List Nat → List Nat → Option (List Nat)
  | _, _, [], order => some order
  | 0, _, _ :: _, _ => none
  | fuel + 1, counts, node :: queue, order => do
    let (counts, ready) ← countDownAll? counts (children[node]?.getD [])
    drain? children fuel counts (queue ++ ready) (order ++ [node])

/-- The nodes in an order that has parents first, as far as there is one: the nodes of a cycle and
those below it are left out. No node enters the queue twice, so the number of nodes is enough
fuel. -/
def sort? (parents children : List (List Nat)) : Option (List Nat) :=
  let counts := parents.map List.length
  let ready := (List.range parents.length).filter fun node => (counts[node]?.getD 0) == 0
  drain? children parents.length counts ready []

/-- The graph in which each node has the given parents. A parent must be a node, and there must be
no cycle. -/
def ofParents (lists : List (List Nat)) : Except Error DependencyGraph := do
  let parents := lists.map ascending
  let children ← childLists parents
  match sort? parents children with
  | some order =>
    if order.length < parents.length then .error .invalidGraph
    else .ok ⟨parents, children, order⟩
  | none => .error .invalidGraph

/-- The places of the parameters that a condition reads; none without condition. -/
def parentsOf (scope : Scope) : Option (Expr Parameter) → Except Error (List Nat)
  | none => .ok []
  | some condition => condition.indices scope

/-- The graph of the conditions of the parameters of a scope. -/
def ofConditions (scope : Scope) (conditions : List (Option (Expr Parameter))) :
    Except Error DependencyGraph := do
  ofParents (← conditions.mapM (parentsOf scope))

/-- The number of nodes. -/
def size (g : DependencyGraph) : Nat :=
  g.parents.length

/-- The parents of a node. -/
def parentsAt (g : DependencyGraph) (node : Nat) : Except Error (List Nat) :=
  match g.parents[node]? with
  | some parents => .ok parents
  | none => .error (.outOfBounds node g.size)

/-- The children of a node. -/
def childrenAt (g : DependencyGraph) (node : Nat) : Except Error (List Nat) :=
  match g.children[node]? with
  | some children => .ok children
  | none => .error (.outOfBounds node g.size)

end DependencyGraph

end SearchSpace
