import SearchSpace.Law.Basic
import SearchSpace.Generator

/-!
# Drawing from a law

`Law.draw` is one draw. A series of draws can be laid out in three ways, which take the same words
from the generator: one draw at a time, `Law.rows` end to end, and `Law.columns` with one list for
each dimension.
-/

namespace SearchSpace

/-- An integer of a flat law. On the linear scale the steps from `lower` that stay below `upper` are
counted and one is drawn; on the logarithmic scale a number is drawn between the logarithms of the
bounds and brought down to a step. -/
def UniformInt.draw (law : UniformInt) : Draw Int64 := do
  let lower := law.lower.toInt
  let step := max law.step.toInt 1
  match law.scale with
  | .linear =>
    let steps := (law.upper.toInt - lower + step - 1) / step
    let k ← Draw.below (UInt64.ofNat steps.toNat)
    pure (Int64.ofInt (lower + k.toNat * step))
  | .logarithmic =>
    let x ← Draw.between (Binary64.log (Binary64.ofInt64 law.lower))
      (Binary64.log (Binary64.ofInt64 law.upper))
    let raw := (Binary64.truncate (Binary64.floor (Binary64.exp x))).toInt
    let raw := max lower (min raw (law.upper.toInt - 1))
    pure (Int64.ofInt (lower + (raw - lower) / step * step))

/-- A binary64 number of a flat law. -/
def UniformFloat.draw (law : UniformFloat) : Draw Float := do
  match law.scale with
  | .linear =>
    if 0.0 < law.step then
      let steps := Binary64.ceil ((law.upper - law.lower) / law.step)
      let k ← Draw.below (if 1.0 < steps then steps else 1.0).toUInt64
      pure (law.lower + k.toFloat * law.step)
    else Draw.between law.lower law.upper
  | .logarithmic =>
    let x ← Draw.between (Binary64.log law.lower) (Binary64.log law.upper)
    let raw := Binary64.exp x
    let last := Binary64.predecessor law.upper
    let raw := if raw < law.lower then law.lower else if last < raw then last else raw
    if 0.0 < law.step then
      pure (law.lower + Binary64.floor ((raw - law.lower) / law.step) * law.step)
    else pure raw

/-- A number of a normal law. -/
def Normal.draw (law : Normal) : Draw Scalar := do
  let x := law.mu + law.sigma * (← Draw.normal)
  let x := match law.scale with
    | .linear => x
    | .logarithmic => Binary64.exp x
  let x := if 0.0 < law.step then Binary64.round (x / law.step) * law.step else x
  pure (match law.type with
    | .int => .int (Binary64.truncate (Binary64.round x))
    | .float => .float x)

/-- An index by weight. -/
def WeightTable.draw (table : WeightTable) : Draw Nat := do
  pure (table.index (← Draw.unit))

namespace Law

mutual
/-- One draw: a number for each dimension. -/
def draw : Law → Draw (List Scalar)
  | uniformInt law => do pure [.int (← law.draw)]
  | uniformFloat law => do pure [.float (← law.draw)]
  | normal law => do pure [← law.draw]
  | roulette table => do pure [.int (Int64.ofNat (← table.draw))]
  | mixture parts table _ _ => do drawPart parts (← table.draw)
  | joint parts => drawAll parts

/-- A draw from the part at an index. -/
def drawPart : List Law → Nat → Draw (List Scalar)
  | [], _ => pure []
  | law :: _, 0 => law.draw
  | _ :: laws, i + 1 => drawPart laws i

/-- A draw from each part, in order. -/
def drawAll : List Law → Draw (List Scalar)
  | [] => pure []
  | law :: laws => do
    let front ← law.draw
    let back ← drawAll laws
    pure (front ++ back)
end

/-- The numbers of `n` draws, end to end. -/
def rows (law : Law) : Nat → Draw (List Scalar)
  | 0 => pure []
  | n + 1 => do
    let row ← law.draw
    let rest ← law.rows n
    pure (row ++ rest)

/-- The numbers of `n` draws, those of each dimension together: every draw adds one number to the
end of each of the columns. -/
def columns (law : Law) (n : Nat) : Draw (List (List Scalar)) :=
  go n (List.replicate law.dimension [])
where
  go : Nat → List (List Scalar) → Draw (List (List Scalar))
    | 0, columns => pure (columns.map List.reverse)
    | n + 1, columns => do
      let row ← law.draw
      -- the columns are kept last number first
      go n (List.zipWith (fun column x => x :: column) columns row)

end Law

end SearchSpace
