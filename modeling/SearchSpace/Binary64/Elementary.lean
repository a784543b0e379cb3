import SearchSpace.Binary64.Rounding

/-!
# Logarithm, exponential and cosine

The three functions are computed on fixed-point integers with `fractionBits` bits after the point,
from their power series, and the sum is rounded once to binary64. The error of the sum is far below
half a unit in the last place, so the result is the nearest number except where the true value lies
within that error of a tie.
-/

namespace SearchSpace.Binary64

open Float.Model.UnpackedFloat (Sign)

/-- Bits after the point of a fixed-point number. -/
def fractionBits : Nat := 200

/-- The fixed-point number one. -/
def one : Int := Int.ofNat (1 <<< fractionBits)

/-- Enough terms of each series for the remaining ones to vanish at `fractionBits` bits. -/
def seriesLength : Nat := 110

/-- The fixed-point number at or below `m · 2 ^ e`. -/
def fixed (m : Nat) (e : Int) : Int :=
  let shift := e + fractionBits
  if 0 ≤ shift then Int.ofNat (m <<< shift.toNat) else Int.ofNat (m >>> (-shift).toNat)

/-- The number nearest to a fixed-point number. -/
def ofFixed (z : Int) : Float :=
  nearest (if z < 0 then .negative else .positive) z.natAbs (-fractionBits)

/-! ## Series -/

/-- Sums a power series by its terms: `term` is the current one and `next k` makes its successor
from it. -/
def series (next : Nat → Int → Int) : Nat → Nat → Int → Int
  | 0, _, _ => 0
  | n + 1, k, term => term + series next n (k + 1) (next k term)

/-- `2 · artanh t` for fixed-point `t`: twice the sum of `t ^ (2 k + 1) / (2 k + 1)`. -/
def doubleArtanh (t : Int) : Int :=
  let square := t * t / one
  2 * go seriesLength 1 t square
where
  go : Nat → Int → Int → Int → Int
    | 0, _, _, _ => 0
    | n + 1, odd, power, square => power / odd + go n (odd + 2) (power * square / one) square

/-- The natural logarithm of two, `2 · artanh (1 / 3)`. -/
def logTwo : Int :=
  doubleArtanh (one / 3)

/-! ## The functions -/

/-- The natural logarithm of `x`. -/
def log (x : Float) : Float :=
  match x.toModel.unpack with
  | .notANumber | .infinity .negative | .finite .negative .. => 0.0 / 0.0
  | .infinity .positive => x
  | .zero _ => -1.0 / 0.0
  | .finite .positive m e _ =>
    -- `x = y · 2 ^ scale` with `1 ≤ y < 2`, and `log y = 2 · artanh ((y - 1) / (y + 1))`
    let scale := e + m.log2
    let y := fixed m (-(m.log2 : Int))
    ofFixed (scale * logTwo + doubleArtanh ((y - one) * one / (y + one)))

/-- The exponential of `x`. -/
def exp (x : Float) : Float :=
  match x.toModel.unpack with
  | .notANumber | .infinity .positive => x
  | .infinity .negative => 0.0
  | .zero _ => 1.0
  | .finite sign m e _ =>
    -- beyond these bounds the result is an infinity or zero
    if 800.0 ≤ x then 1.0 / 0.0
    else if x ≤ -800.0 then 0.0
    else
      let z := match sign with | .positive => fixed m e | .negative => -fixed m e
      -- `exp z = 2 ^ scale · exp rest` with `0 ≤ rest < log 2`
      let scale := z / logTwo
      let rest := z - scale * logTwo
      let sum := series (fun k term => term * rest / one / (k + 1)) seriesLength 0 one
      nearest .positive sum.toNat (scale - fractionBits)

/-- The cosine of an angle of at most a few turns. -/
def cos (x : Float) : Float :=
  match x.toModel.unpack with
  | .notANumber | .infinity _ => 0.0 / 0.0
  | .zero _ => 1.0
  | .finite _ m e _ =>
    let z := fixed m e
    let square := z * z / one
    let next := fun (k : Nat) (term : Int) => -(term * square / one / ((2 * k + 1) * (2 * k + 2)))
    ofFixed (series next seriesLength 0 one)

end SearchSpace.Binary64
