import SearchSpace.Binary64.Rounding

/-!
# Decimal numerals

A `Decimal` is a coefficient and a power of ten. Every finite binary64 number is a decimal exactly
(`Decimal.exact`), and every decimal has a nearest binary64 number (`Decimal.toFloat`).

`Decimal.shortest` gives the decimal that a number is written with: the fewest digits whose nearest
binary64 number is the given one, and among those the nearest to it. It rounds the exact expansion
to one digit, two digits and so on, and stops at the first result that reads back. The exact
expansion itself is the last candidate.
-/

namespace SearchSpace

/-- The number `coefficient · 10 ^ exponent`. -/
structure Decimal where
  coefficient : Nat
  exponent : Int
deriving DecidableEq, Repr

namespace Decimal

/-- The binary64 number nearest to a decimal, ties to even; an infinity past the largest one. -/
def toFloat (d : Decimal) : Float :=
  Float.ofScientific d.coefficient (decide (d.exponent < 0)) d.exponent.natAbs

/-- The magnitude `m · 2 ^ e` as a decimal, without rounding: a negative power of two is that power
of five over the same power of ten. -/
def exact (m : Nat) (e : Int) : Decimal :=
  if 0 ≤ e then ⟨m <<< e.toNat, 0⟩ else ⟨m * Nat.pow 5 (-e).toNat, e⟩

/-- The decimal digits of the coefficient, the most significant first. -/
def digits (d : Decimal) : List Char :=
  Nat.toDigits 10 d.coefficient

/-- Moves the trailing zeros of the coefficient into the exponent. -/
def strip (d : Decimal) : Decimal :=
  go d.digits.length d
where
  go : Nat → Decimal → Decimal
    | 0, d => d
    | n + 1, d => if d.coefficient % 10 = 0 then go n ⟨d.coefficient / 10, d.exponent + 1⟩ else d

/-! ## Rounding to fewer digits -/

/-- Which of two equally near decimals is taken. -/
inductive Tie where
  | up
  | toEven
deriving DecidableEq, Repr

/-- The two decimals around `d` that keep all but its last `dropped` digits, the nearer one first.
Where the dropped digits are zeros, the one decimal that equals `d`. -/
def neighbours (tie : Tie) (d : Decimal) (dropped : Nat) : List Decimal :=
  let unit := Nat.pow 10 dropped
  let q := d.coefficient / unit
  let r := d.coefficient % unit
  let below : Decimal := ⟨q, d.exponent + dropped⟩
  let above : Decimal := ⟨q + 1, d.exponent + dropped⟩
  if r = 0 then [below]
  else match compare (2 * r) unit with
    | .lt => [below, above]
    | .gt => [above, below]
    | .eq => match tie with
      | .up => [above, below]
      | .toEven => if q % 2 = 0 then [below, above] else [above, below]

/-- The first decimal that reads back as `x`, over the roundings of `d` that drop `dropped` digits,
one fewer, and so on down to none. -/
def firstReadingBack (tie : Tie) (x : Float) (d : Decimal) : Nat → Decimal
  | 0 => d
  | dropped + 1 =>
    match (neighbours tie d (dropped + 1)).find? (·.toFloat == x) with
    | some found => found
    | none => firstReadingBack tie x d dropped

/-- The decimal that the positive finite number `x`, equal to `m · 2 ^ e`, is written with. -/
def shortest (tie : Tie) (x : Float) (m : Nat) (e : Int) : Decimal :=
  let d := exact m e
  (firstReadingBack tie x d (d.digits.length - 1)).strip

end Decimal

end SearchSpace
