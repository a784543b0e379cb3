import SearchSpace.Error

/-!
# Weights

Choosing an index by weight: the weights are scaled to a sum of one and added up to a table from 0
to 1 (`WeightTable.cumulative`), and a number between falls into the bucket of one index (`bucket`).
-/

namespace SearchSpace

/-- Halves the range from `lo` to `hi` until one bucket is left, keeping `table[lo] ≤ r` and
`r < table[hi]` wherever they held at first. -/
def bucketFrom {α : Type} [LE α] [DecidableLE α] (table : Array α) (r : α) : Nat → Nat → Nat → Nat
  | 0, lo, _ => lo
  | fuel + 1, lo, hi =>
    if hi - lo ≤ 1 then lo
    else
      let mid := lo + (hi - lo) / 2
      if table[mid]?.any (· ≤ r) then bucketFrom table r fuel mid hi
      else bucketFrom table r fuel lo mid

/-- The bucket of `r` in a table of edges: the index `i` with `table[i] ≤ r < table[i + 1]`. Below
the table it is the first bucket and past it the last. Buckets without width are skipped. -/
def bucket {α : Type} [LE α] [DecidableLE α] (table : Array α) (r : α) : Nat :=
  bucketFrom table r (table.size - 1) 0 (table.size - 1)

namespace WeightTable

/-- What forbids scaling weights to a sum of one. -/
def fault? (weights : List Float) : Option ValueFault :=
  if weights.isEmpty then some .noWeights
  else match weights.find? (fun w => !w.isFinite || w < 0.0) with
    | some w => some (.weight w)
    | none =>
      let total := weights.foldl (· + ·) 0.0
      if total ≤ 0.0 || !total.isFinite then some .weightSum else none

/-- Running sums of the scaled weights, each at most one. -/
def runningSums (total : Float) : Float → List Float → List Float
  | _, [] => []
  | sum, w :: ws =>
    let sum := sum + w / total
    (if sum < 1.0 then sum else 1.0) :: runningSums total sum ws

/-- The edges of the buckets: 0, the running sums of the scaled weights, and 1 in place of the last
one. -/
def edges (weights : List Float) : Array Float :=
  let total := weights.foldl (· + ·) 0.0
  (0.0 :: (runningSums total 0.0 weights).dropLast ++ [1.0]).toArray

end WeightTable

/-- Weights that can be scaled to a sum of one. -/
structure WeightTable where
  weights : List Float
  valid : WeightTable.fault? weights = none

namespace WeightTable

/-- The table of some weights: there must be some, each finite and not negative, with a positive
finite sum. -/
def ofWeights (weights : List Float) : Except Error WeightTable :=
  match h : fault? weights with
  | none => .ok ⟨weights, h⟩
  | some fault => .error (.invalidValue fault)

/-- The edges of the buckets, one more than there are weights. -/
def cumulative (t : WeightTable) : Array Float :=
  edges t.weights

/-- The index that the number `r` chooses. -/
def index (t : WeightTable) (r : Float) : Nat :=
  bucket t.cumulative r

end WeightTable

end SearchSpace
