import SearchSpace.Binary64.SignedFloat
import SearchSpace.Decimal.Basic

/-!
# The text of a binary64 number

All texts of a number show the digits of `Decimal.shortest`; a `Layout` says how the digits are laid
out. `Layout.chars` writes a number, and `Decimal.readFloat?` reads one.
-/

namespace SearchSpace

/-- How the digits of a number are laid out. -/
structure Layout where
  /-- The powers of ten of the leading digit for which the number is written without an exponent,
  as a lower and an exclusive upper end; `none` where there is no such end. -/
  leastPlain : Option Int
  firstScientific : Option Int
  /-- Whether a whole number written without an exponent ends in `.0`. -/
  keepsFraction : Bool
  /-- Whether an exponent that is not negative has a plus sign. -/
  signsExponent : Bool
  /-- Which of two equally near decimals is taken. -/
  tie : Decimal.Tie
deriving DecidableEq, Repr

namespace Layout

/-- Whether a number whose leading digit stands for `10 ^ power` is written without an exponent. -/
def isPlain (layout : Layout) (power : Int) : Bool :=
  layout.leastPlain.all (· ≤ power) && layout.firstScientific.all (power < ·)

/-- The decimal digits of a natural number. -/
def natChars (n : Nat) : List Char :=
  Nat.toDigits 10 n

/-- The decimal digits of an integer, after a minus sign if it is negative. -/
def intChars (z : Int) : List Char :=
  if z < 0 then '-' :: natChars z.natAbs else natChars z.natAbs

/-- The digits with the point after the one that stands for `10 ^ 0`, filled up with zeros. -/
def plainChars (layout : Layout) (digits : List Char) (power : Int) : List Char :=
  if power < 0 then '0' :: '.' :: List.replicate (-power - 1).toNat '0' ++ digits
  else
    let whole := power.toNat + 1
    let fraction := digits.drop whole
    let integral := digits.take whole ++ List.replicate (whole - digits.length) '0'
    if fraction.isEmpty then integral ++ (if layout.keepsFraction then ['.', '0'] else [])
    else integral ++ '.' :: fraction

/-- One digit, the others after a point, and the power of ten of the first. -/
def scientificChars (layout : Layout) (digits : List Char) (power : Int) : List Char :=
  let fraction := digits.drop 1
  let sign := if layout.signsExponent && 0 ≤ power then ['+'] else []
  digits.take 1 ++ (if fraction.isEmpty then [] else '.' :: fraction) ++
    'e' :: sign ++ intChars power

/-- The text of a magnitude. -/
def decimalChars (layout : Layout) (d : Decimal) : List Char :=
  let digits := d.digits
  let power := d.exponent + digits.length - 1
  if layout.isPlain power then layout.plainChars digits power
  else layout.scientificChars digits power

/-- The text of a number in a layout. -/
def chars (layout : Layout) (x : Float) : List Char :=
  match x.toModel.unpack with
  | .notANumber => ['N', 'a', 'N']
  | .infinity sign => signed sign ['i', 'n', 'f']
  | .zero sign => signed sign (layout.plainChars ['0'] 0)
  | .finite sign m e _ => signed sign (layout.decimalChars (.shortest layout.tie x.abs m e))
where
  signed : Float.Model.UnpackedFloat.Sign → List Char → List Char
    | .positive, cs => cs
    | .negative, cs => '-' :: cs

/-- The layout of a number as a literal: plain from `10 ^ -4` up to below `10 ^ 16`, always with a
point there, so that a literal never reads as an integer. -/
def literal : Layout := ⟨some (-4), some 16, true, false, .up⟩

/-- The layout of a number inside a sentence: never an exponent, and no needless point. -/
def prose : Layout := ⟨none, none, false, false, .up⟩

end Layout

/-! ## Reading -/

namespace Decimal

/-- The number that a run of digits denotes. -/
def ofDigits (digits : List Char) : Nat :=
  digits.foldl (fun n c => 10 * n + (c.toNat - '0'.toNat)) 0

/-- A numeral as written: digits, then possibly a fraction, then possibly an exponent. -/
structure Numeral where
  integral : List Char
  fraction : Option (List Char)
  exponent : Option Int
deriving DecidableEq, Repr

namespace Numeral

/-- The decimal that a numeral denotes. -/
def toDecimal (n : Numeral) : Decimal :=
  let fraction := n.fraction.getD []
  ⟨ofDigits (n.integral ++ fraction), n.exponent.getD 0 - fraction.length⟩

/-- Reads a fraction: a point and the digits after it, which may be none. -/
def fraction? : List Char → Option (List Char) × List Char
  | '.' :: cs => (some (cs.takeWhile Char.isDigit), cs.dropWhile Char.isDigit)
  | cs => (none, cs)

/-- Reads an exponent: its mark, possibly a sign, and at least one digit. Without a digit there is
no exponent, and nothing is read. -/
def exponent? : List Char → Option Int × List Char
  | mark :: cs =>
    if mark = 'e' ∨ mark = 'E' then
      let (negative, digits) := match cs with
        | '-' :: r => (true, r)
        | '+' :: r => (false, r)
        | r => (false, r)
      let run := digits.takeWhile Char.isDigit
      if run.isEmpty then (none, mark :: cs)
      else
        let magnitude : Int := ofDigits run
        (some (if negative then -magnitude else magnitude), digits.dropWhile Char.isDigit)
    else (none, mark :: cs)
  | [] => (none, [])

/-- Reads the longest numeral at the front of a text. -/
def read (cs : List Char) : Numeral × List Char :=
  let (fraction, afterFraction) := fraction? (cs.dropWhile Char.isDigit)
  let (exponent, rest) := exponent? afterFraction
  (⟨cs.takeWhile Char.isDigit, fraction, exponent⟩, rest)

end Numeral

/-- Reads a whole text as a binary64 number: a sign or none, and a numeral with at least one digit
before its exponent, or a name of an infinity or of not-a-number in letters of either case. -/
def readFloat? (text : List Char) : Option SignedFloat :=
  let (negative, body) := match text with
    | '-' :: r => (true, r)
    | '+' :: r => (false, r)
    | r => (false, r)
  let magnitude : Option Float :=
    match String.ofList (body.map Char.toLower) with
    | "inf" | "infinity" => some (1.0 / 0.0)
    | "nan" => some (0.0 / 0.0)
    | _ =>
      let (numeral, rest) := Numeral.read body
      if rest.isEmpty ∧ ¬(numeral.integral.isEmpty ∧ (numeral.fraction.getD []).isEmpty) then
        some numeral.toDecimal.toFloat
      else none
  magnitude.map fun x => if negative then (SignedFloat.ofFloat x).neg else .ofFloat x

end Decimal

end SearchSpace
