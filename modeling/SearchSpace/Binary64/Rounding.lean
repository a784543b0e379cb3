/-!
# Whole numbers, remainders and neighbours of binary64 numbers

A finite number is a sign, a magnitude `m` and an exponent `e`, and stands for `± m · 2 ^ e`. The
functions here work on that triple, so they are exact and evaluate in the kernel:

* `floor`, `ceil` and `round` bring a number to a whole number, keeping its sign on a zero;
* `remainder` is what is left of a number after dividing it by another toward zero;
* `predecessor` is the next number below;
* `orderKey` orders all numbers, with `-0.0` below `0.0`.
-/

namespace SearchSpace.Binary64

open Float.Model.UnpackedFloat (Sign)

/-- The number nearest to `± m · 2 ^ e`, ties to the even neighbour; an infinity past the largest
number. -/
def nearest (sign : Sign) (m : Nat) (e : Int) : Float :=
  if m = 0 then .ofModel (.pack (.zero sign))
  else .ofModel (.pack (.round .binary64 sign m e))

/-- The number nearest to a 64-bit integer. -/
def ofInt64 (n : Int64) : Float :=
  .ofModel (.ofInt64 n)

/-- The integer part of `x`, toward zero. An infinity and a number too large for 64 bits give the
nearest end of the range, and not-a-number gives zero. -/
def truncate (x : Float) : Int64 :=
  x.toModel.toInt64

/-! ## Whole numbers -/

/-- How a magnitude that is not whole is brought to a whole one. -/
inductive Rounding where
  | towardZero
  | awayFromZero
  /-- The nearest whole number, and the larger one on a tie. -/
  | halfAway
deriving DecidableEq

/-- The whole number that `mode` makes of the quotient `n / d`. -/
def Rounding.quotient (mode : Rounding) (n d : Nat) : Nat :=
  let q := n / d
  let r := n % d
  match mode with
  | .towardZero => q
  | .awayFromZero => if r = 0 then q else q + 1
  | .halfAway => if 2 * r < d then q else q + 1

/-- Brings `x` to a whole number, with the rounding that `mode` gives for its sign. A number with a
nonnegative exponent is whole already, and so are the zeros; the infinities and not-a-number stay
as they are. -/
def toWhole (mode : Sign → Rounding) (x : Float) : Float :=
  match x.toModel.unpack with
  | .finite sign m e _ =>
    if 0 ≤ e then x
    else
      let magnitude := ((mode sign).quotient m (1 <<< (-e).toNat)).toUInt64.toFloat
      match sign with
      | .positive => magnitude
      | .negative => -magnitude
  | _ => x

/-- The largest whole number not above `x`. -/
def floor (x : Float) : Float :=
  toWhole (fun | .positive => .towardZero | .negative => .awayFromZero) x

/-- The least whole number not below `x`. -/
def ceil (x : Float) : Float :=
  toWhole (fun | .positive => .awayFromZero | .negative => .towardZero) x

/-- The whole number nearest to `x`; a tie goes away from zero. -/
def round (x : Float) : Float :=
  toWhole (fun _ => .halfAway) x

/-- Whether `x` is finite and has no fraction. -/
def isWhole (x : Float) : Bool :=
  x.isFinite && floor x == x

/-! ## Remainder -/

/-- The remainder of `x` by `y`, computed exactly, with the sign of `x`. There is none of an
infinity or by zero, and dividing by an infinity leaves `x`. -/
def remainder (x y : Float) : Float :=
  match x.toModel.unpack, y.toModel.unpack with
  | .notANumber, _ | _, .notANumber | .infinity _, _ | _, .zero _ => 0.0 / 0.0
  | .zero _, _ | .finite .., .infinity _ => x
  | .finite sign m e _, .finite _ m' e' _ =>
    let low := min e e'
    nearest sign ((m <<< (e - low).toNat) % (m' <<< (e' - low).toNat)) low

/-! ## Neighbours and order -/

/-- The bit pattern of `x` without its sign. -/
def magnitudeBits (x : Float) : UInt64 :=
  x.toBits &&& 0x7FFFFFFFFFFFFFFF

/-- Whether the sign of `x` is negative; a zero has a sign too. -/
def isNegative (x : Float) : Bool :=
  x.toBits >>> 63 == 1

/-- The next number below `x`; both zeros have the same one. -/
def predecessor (x : Float) : Float :=
  let bits := x.toBits
  if x.isNaN || bits == 0xFFF0000000000000 then x
  else if magnitudeBits x == 0 then .ofBits 0x8000000000000001
  else if isNegative x then .ofBits (bits + 1)
  else .ofBits (bits - 1)

/-- Orders all numbers: by value, with `-0.0` just below `0.0` and not-a-number above all. -/
def orderKey (x : Float) : Int :=
  if isNegative x then -(magnitudeBits x).toNat - 1 else (magnitudeBits x).toNat

end SearchSpace.Binary64
