import SearchSpace.Error

/-!
# Rejection

Some draws are refused, and more are made in their place. The first batch has as many draws as
results are wanted. Each later batch has a multiple of the number still missing, and the multiple
grows from batch to batch by the factor `Rejection.growth`. Once it is above `Rejection.cap` there is
no further batch: either all results wanted are found or none is returned.
-/

namespace SearchSpace.Rejection

variable {σ α : Type}

/-- A computation with a state that it keeps when it fails. -/
abbrev Sampler (σ α : Type) := ExceptT Error (StateM σ) α

/-- The factor by which the multiple of the number still missing grows from batch to batch. -/
def growth : Nat := 2

/-- The greatest multiple of the number still missing that a batch has. -/
def cap : Nat := 32

/-- The multiples from one on, at most `fuel` of them. -/
def multiplesFrom : Nat → Nat → List Nat
  | 0, _ => []
  | fuel + 1, multiple =>
    if cap < multiple then [] else multiple :: multiplesFrom fuel (multiple * growth)

/-- The multiples of the number still missing that successive batches have, from the first one on.
Each is greater than the one before, so `cap` is enough fuel. -/
def schedule : List Nat := multiplesFrom cap 1

/-- Collects `n` accepted draws, given those found so far and the batches left. -/
def collectFrom (draw : Nat → Sampler σ (List (Option α))) (n : Nat) :
    List Nat → List α → Sampler σ (List α)
  | [], accepted =>
    if n ≤ accepted.length then pure accepted
    else throw (.samplingUnsuccessful n accepted.length)
  | multiple :: schedule, accepted =>
    if n ≤ accepted.length then pure accepted
    else do
      let missing := n - accepted.length
      let batch ← draw (missing * multiple)
      collectFrom draw n schedule (accepted ++ (batch.filterMap id).take missing)

/-- Collects `n` accepted draws. `draw` makes a batch of the given size, with `none` for a draw that
is refused. -/
def collect (draw : Nat → Sampler σ (List (Option α))) (n : Nat) : Sampler σ (List α) :=
  collectFrom draw n schedule []

end SearchSpace.Rejection
