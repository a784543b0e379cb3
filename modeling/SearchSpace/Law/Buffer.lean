import SearchSpace.Law.Sampling

/-!
# Draws in a buffer

A draw can be written into a buffer, from a position on and over what was there (`Law.fill`). A
series of draws then takes one buffer for all rows, each of which is a stretch of it
(`Law.filledRows`), or one buffer for a single row, which is written over by each draw after its
numbers have been added to the columns (`Law.filledColumns`).
-/

namespace SearchSpace.Law

mutual
/-- Writes one draw into a buffer, from position `start` on. What lies past the end of the buffer is
not written. -/
def fill : Law → Nat → Array Scalar → Draw (Array Scalar)
  | uniformInt law, start, out => do pure (out.setIfInBounds start (.int (← law.draw)))
  | uniformFloat law, start, out => do pure (out.setIfInBounds start (.float (← law.draw)))
  | normal law, start, out => do pure (out.setIfInBounds start (← law.draw))
  | roulette table, start, out => do
    pure (out.setIfInBounds start (.int (Int64.ofNat (← table.draw))))
  | mixture parts table _ _, start, out => do fillPart parts (← table.draw) start out
  | joint parts, start, out => fillAll parts start out

/-- Writes a draw from the part at an index. -/
def fillPart : List Law → Nat → Nat → Array Scalar → Draw (Array Scalar)
  | [], _, _, out => pure out
  | law :: _, 0, start, out => law.fill start out
  | _ :: laws, i + 1, start, out => fillPart laws i start out

/-- Writes a draw from each part, in order, each from where the one before it ends. -/
def fillAll : List Law → Nat → Array Scalar → Draw (Array Scalar)
  | [], _, out => pure out
  | law :: laws, start, out => do
    let out ← law.fill start out
    fillAll laws (start + law.dimension) out
end

/-- A buffer for some numbers, which holds zeros. -/
def blank (size : Nat) : Array Scalar :=
  .replicate size (.int 0)

/-- One draw, from a buffer of its own. -/
def filledRow (law : Law) : Draw (List Scalar) := do
  pure (← law.fill 0 (blank law.dimension)).toList

/-- The numbers of `n` draws, end to end: the buffer for all of them is cut into stretches of the
length of a draw, and each is filled. -/
def filledRows (law : Law) (n : Nat) : Draw (List Scalar) := do
  let size := n * law.dimension
  pure (← go (size / law.dimension) 0 (blank size)).toList
where
  go : Nat → Nat → Array Scalar → Draw (Array Scalar)
    | 0, _, out => pure out
    | n + 1, start, out => do
      let out ← law.fill start out
      go n (start + law.dimension) out

/-- Adds the numbers of a row to the columns, one to each, as far as there are both. -/
def addRow : List (Array Scalar) → List Scalar → List (Array Scalar)
  | column :: columns, x :: row => column.push x :: addRow columns row
  | columns, _ => columns

/-- The numbers of `n` draws, those of each dimension together: all draws are written into one
row. -/
def filledColumns (law : Law) (n : Nat) : Draw (List (List Scalar)) :=
  go n (blank law.dimension) (List.replicate law.dimension #[])
where
  go : Nat → Array Scalar → List (Array Scalar) → Draw (List (List Scalar))
    | 0, _, columns => pure (columns.map Array.toList)
    | n + 1, row, columns => do
      let row ← law.fill 0 row
      go n row (addRow columns row.toList)

end SearchSpace.Law
