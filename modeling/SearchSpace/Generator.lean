import SearchSpace.Binary64.Elementary

/-!
# Random draws

A `Generator` is a stream of 64-bit words: a counter that advances by an odd step, and a mixing of
its value. A `Draw` takes words from a generator and leaves it where it stopped.

* `Generator.next` is the next word;
* `Draw.unit` is a binary64 number from 0 on and below 1;
* `Draw.below` is a word below a bound, all equally likely;
* `Draw.between` is a binary64 number between two others;
* `Draw.normal` is a standard normal number.

A word that would spoil the result is drawn again. The counter runs through all words before it
repeats, so `redraws` is a bound that no generator reaches; at the bound a draw gives zero.
-/

namespace SearchSpace

/-- The state of a stream of words. A seed is a state. -/
structure Generator where
  state : UInt64
deriving DecidableEq, Repr

/-- The next word of a stream, and the stream after it: the counter is multiplied with a scrambled
copy of itself, and the two halves of the product are combined. -/
def Generator.next (g : Generator) : UInt64 × Generator :=
  let state := g.state + 0x2d358dccaa6c78a5
  let product := state.toNat * (state ^^^ 0x8bb84b93962eacc9).toNat
  (UInt64.ofNat product ^^^ UInt64.ofNat (product / UInt64.size), ⟨state⟩)

/-- A computation that draws from a generator. -/
abbrev Draw := StateM Generator

namespace Draw

/-- More draws than there are states of a generator. -/
def redraws : Nat := UInt64.size

/-- The next word. -/
def word : Draw UInt64 :=
  fun g => g.next

/-- A number from 0 on and below 1: the upper 63 bits of a word over `2 ^ 63`. Rounding can carry
the greatest ones to 1, and these are drawn again. -/
def unit : Draw Float :=
  go redraws
where
  go : Nat → Draw Float
    | 0 => pure 0.0
    | n + 1 => do
      let x := (← word) >>> 1
      -- `2 ^ -63`
      let u := x.toFloat * Float.ofBits 0x3C00000000000000
      if u < 1.0 then pure u else go n

/-- A word below `bound`: the upper half of the product of a word and the bound. The words whose
lower half falls short of `2 ^ 64` modulo the bound are drawn again, so that each result has as many
words as any other. -/
def below (bound : UInt64) : Draw UInt64 :=
  go redraws
where
  go : Nat → Draw UInt64
    | 0 => pure 0
    | n + 1 => do
      let product := (← word).toNat * bound.toNat
      if product % UInt64.size < (UInt64.size - bound.toNat) % bound.toNat then go n
      else pure (UInt64.ofNat (product / UInt64.size))

/-- A number from `low` on and below `high`. Rounding can carry it to `high`, and then it is the
number just below that. -/
def between (low high : Float) : Draw Float := do
  let x := low + (← unit) * (high - low)
  if x < high then pure x
  else
    let last := Binary64.predecessor high
    pure (if last < low then low else last)

/-- A standard normal number, by polar coordinates: a radius from one draw, whose logarithm is kept
finite by taking it from 1, and an angle from another. -/
def normal : Draw Float := do
  let radius := 1.0 - (← unit)
  let turn ← unit
  -- `2 π`
  let angle := Float.ofBits 0x401921FB54442D18 * turn
  pure ((-2.0 * Binary64.log radius).sqrt * Binary64.cos angle)

end Draw

end SearchSpace
