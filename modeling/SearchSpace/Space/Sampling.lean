import SearchSpace.Space.Validity

/-!
# Drawing configurations

Vectors are drawn from the laws assigned to the parameters, their inactive parameters are marked,
and those on which a clause holds are refused. More are drawn in the place of these, up to a hundred
vectors for each configuration wanted. Either all configurations wanted are found or none is
returned.
-/

namespace SearchSpace

/-- Laws for the parameters of a space, kept apart from it. -/
structure OwnedAssignment where
  owner : Frame
  assignment : Assignment

namespace OwnedAssignment

/-- Every parameter of a space with its default law. -/
def ofFrame (owner : Frame) : Except Error OwnedAssignment := do
  pure ⟨owner, ← Assignment.ofParameters owner.scope.parameters⟩

/-- Gives the parameters at some places a law together. -/
def assign (a : OwnedAssignment) (distribution : Distribution) (indices : List Nat) :
    Except Error OwnedAssignment := do
  pure ⟨a.owner, ← a.assignment.assign a.owner.scope.parameters distribution indices⟩

end OwnedAssignment

namespace Space

open Rejection (Sampler)

/-- The vectors that may be drawn for each configuration wanted. -/
def attemptsPerValue : Nat := 100

/-- Marks the inactive parameters in each of some vectors, and keeps the vectors on which no clause
holds. -/
def accept (s : Space) : List (List Value) → Except Error (List (List Value))
  | [] => .ok []
  | row :: rows => do
    let values ← activate s.scope s.conditions s.graph.order row
    let clause ← holdingClause? s.scope s.clauses values
    let rest ← s.accept rows
    pure (if clause.isNone then values :: rest else rest)

/-- Words the failure of a group to find draws for a batch as that of the whole call. -/
def relabel (requested obtained : Nat) : Error → Error
  | .samplingUnsuccessful _ _ => .samplingUnsuccessful requested obtained
  | e => e

/-- Collects `n` vectors, given those found so far and the number that may still be drawn. Each
round draws at least one, so that this number is fuel enough. -/
def collectFrom (s : Space) (a : Assignment) (n : Nat) :
    Nat → Nat → List (List Value) → Sampler Generator (List (List Value))
  | fuel + 1, budget, accepted =>
    if accepted.length < n ∧ 0 < budget then do
      let size := min (n - accepted.length) budget
      let rows ← ExceptT.adapt (relabel n accepted.length)
        (a.sampleRows s.scope.parameters size)
      let kept ← ExceptT.mk (pure (s.accept rows))
      s.collectFrom a n fuel (budget - size) (accepted ++ kept)
    else finish accepted
  | 0, _, accepted => finish accepted
where
  /-- All vectors wanted, or none. -/
  finish (accepted : List (List Value)) : Sampler Generator (List (List Value)) :=
    if accepted.length < n then throw (.samplingUnsuccessful n accepted.length)
    else pure accepted

/-- Draws `n` vectors from given laws. -/
def draw (s : Space) (a : Assignment) (n : Nat) : Sampler Generator (List (List Value)) :=
  s.collectFrom a n (attemptsPerValue * n) (attemptsPerValue * n) []

/-- Draws `n` valid configurations, from the space's own laws or from others made for it. -/
def samplesWith (s : Space) (other : Option OwnedAssignment) (n : Nat) :
    Sampler Generator (List Configuration) :=
  match other with
  | none => configurations s.assignment
  | some o =>
    if o.owner.id ≠ s.id then throw (.invalidValue (.foreignAssignment o.owner.name s.name))
    else configurations o.assignment
where
  /-- The configurations of the vectors drawn. -/
  configurations (a : Assignment) : Sampler Generator (List Configuration) := do
    if n = 0 then pure []
    else pure ((← s.draw a n).map fun values => ⟨s.toFrame, values⟩)

/-- Draws from the space's own generator, which moves on even if the draw fails. -/
def samples (s : Space) (other : Option OwnedAssignment) (n : Nat) :
    Except Error (List Configuration) × Space :=
  let (result, generator) := (s.samplesWith other n).run.run s.generator
  (result, { s with generator })

end Space

end SearchSpace
