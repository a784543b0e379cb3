import SearchSpace.Parameter.Basic
import SearchSpace.Law.Sampling
import SearchSpace.Rejection

/-!
# Drawing values of a parameter

A law of one number draws values for any parameter that is not free text: its numbers are places in
a listed set, or numbers of a range. Draws outside the domain are refused and made up for.
-/

namespace SearchSpace.Parameter

open Rejection (Sampler)

/-- A batch of draws from a law as values of a domain, without those outside. -/
def batch (domain : Domain) (checked : Bool) (law : Law) (n : Nat) :
    Sampler Generator (List (Option Value)) := do
  let raw ← ExceptT.lift (law.rows n)
  pure ((domain.ofScalars checked raw).map fun v => if v.isInactive then none else some v)

/-- Draws `n` values of the parameter. -/
def sample (p : Parameter) (law : Law) (n : Nat) : Sampler Generator (List Value) :=
  if law.dimension ≠ 1 then throw (.invalidValue (.notOneDimensional law.dimension))
  else if p.domain.interval?.isNone then throw (.invalidType (.notSampled p.name.text))
  else
    let checked := law.bounds.head?.all p.domain.isExceededBy
    Rejection.collect (batch p.domain checked law) n

end SearchSpace.Parameter
