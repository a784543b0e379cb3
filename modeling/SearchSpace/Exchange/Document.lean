import SearchSpace.Integer
import SearchSpace.Decimal.Layout

/-!
# JSON documents

`Document.ofText` reads a JSON text. Numbers are kept as they are written, and a string that holds
half of a surrogate pair is kept as one that denotes no text: neither is a fault of the document,
and only whoever asks for the value finds out. `Document.int64?` and `Document.float?` give the
value of a number.
-/

namespace SearchSpace

/-- A JSON document. -/
inductive Document where
  | null
  | bool (b : Bool)
  | number (negative : Bool) (numeral : Decimal.Numeral)
  /-- A string, or `none` for one that denotes no text. -/
  | string (s : Option String)
  | array (items : List Document)
  | object (fields : List (Option String × Document))

namespace Document

/-! ## Strings -/

/-- The value of a hexadecimal digit. -/
def hexValue? (c : Char) : Option Nat :=
  if c.isDigit then some (c.toNat - '0'.toNat)
  else if 'a' ≤ c ∧ c ≤ 'f' then some (c.toNat - 'a'.toNat + 10)
  else if 'A' ≤ c ∧ c ≤ 'F' then some (c.toNat - 'A'.toNat + 10)
  else none

/-- Reads four hexadecimal digits. -/
def unit? : List Char → Option (Nat × List Char)
  | a :: b :: c :: d :: rest => do
    let a ← hexValue? a
    let b ← hexValue? b
    let c ← hexValue? c
    let d ← hexValue? d
    pure (((a * 16 + b) * 16 + c) * 16 + d, rest)
  | _ => none

/-- The character that a letter after a backslash stands for, but for `u`. -/
def unescape? : Char → Option Char
  | '"' => some '"'
  | '\\' => some '\\'
  | '/' => some '/'
  | 'b' => some '\x08'
  | 'f' => some '\x0c'
  | 'n' => some '\n'
  | 'r' => some '\r'
  | 't' => some '\t'
  | _ => none

/-- Whether a number is the first half of a surrogate pair. -/
def isHighSurrogate (n : Nat) : Bool :=
  0xD800 ≤ n && n ≤ 0xDBFF

/-- Whether a number is the second half of a surrogate pair. -/
def isLowSurrogate (n : Nat) : Bool :=
  0xDC00 ≤ n && n ≤ 0xDFFF

/-- The code points of a string and what follows its closing quote. Half of a surrogate pair that
stands by itself is left as it is. -/
def codes : Nat → List Char → Option (List Nat × List Char)
  | 0, _ => none
  | fuel + 1, cs =>
    match cs with
    | [] => none
    | '"' :: rest => some ([], rest)
    | '\\' :: 'u' :: rest => do
      let (high, rest) ← unit? rest
      let pair := match rest with
        | '\\' :: 'u' :: after =>
          if isHighSurrogate high then (unit? after).filter (isLowSurrogate ·.1) else none
        | _ => none
      match pair with
      | some (low, rest) =>
        let (more, rest) ← codes fuel rest
        pure ((0x10000 + (high - 0xD800) * 0x400 + (low - 0xDC00)) :: more, rest)
      | none =>
        let (more, rest) ← codes fuel rest
        pure (high :: more, rest)
    | '\\' :: letter :: rest => do
      let c ← unescape? letter
      let (more, rest) ← codes fuel rest
      pure (c.toNat :: more, rest)
    | ['\\'] => none
    | c :: rest =>
      if c.toNat < 0x20 then none
      else do
        let (more, rest) ← codes fuel rest
        pure (c.toNat :: more, rest)

/-- The text of some code points, unless one is half of a surrogate pair. -/
def textOf? (codes : List Nat) : Option String :=
  if codes.any (fun n => isHighSurrogate n || isLowSurrogate n) then none
  else some (String.ofList (codes.map Char.ofNat))

/-- Reads a string after its opening quote. -/
def readString (cs : List Char) : Option (Option String × List Char) :=
  (codes (cs.length + 1) cs).map fun (codes, rest) => (textOf? codes, rest)

/-! ## Numbers -/

/-- Whether a numeral is written as JSON wants it: no needless zero in front, and digits after a
point. -/
def isWellWritten (n : Decimal.Numeral) : Bool :=
  (match n.integral with
    | [] => false
    | '0' :: _ :: _ => false
    | _ => true) && n.fraction != some []

/-- Reads a number. -/
def readNumber (cs : List Char) : Option (Document × List Char) :=
  let (negative, digits) := match cs with
    | '-' :: rest => (true, rest)
    | rest => (false, rest)
  let (numeral, rest) := Decimal.Numeral.read digits
  if isWellWritten numeral then some (number negative numeral, rest) else none

/-! ## Documents -/

/-- Drops the blanks at the front of a text. -/
def skipBlanks (cs : List Char) : List Char :=
  cs.dropWhile fun c => c == ' ' || c == '\n' || c == '\t' || c == '\r'

mutual
/-- Reads a document. -/
def read : Nat → List Char → Option (Document × List Char)
  | 0, _ => none
  | fuel + 1, cs =>
    match skipBlanks cs with
    | 'n' :: 'u' :: 'l' :: 'l' :: rest => some (null, rest)
    | 't' :: 'r' :: 'u' :: 'e' :: rest => some (bool true, rest)
    | 'f' :: 'a' :: 'l' :: 's' :: 'e' :: rest => some (bool false, rest)
    | '"' :: rest => (readString rest).map fun (s, rest) => (string s, rest)
    | '[' :: rest =>
      match skipBlanks rest with
      | ']' :: rest => some (array [], rest)
      | rest => (readItems fuel rest).map fun (items, rest) => (array items, rest)
    | '\x7b' :: rest =>
      match skipBlanks rest with
      | '\x7d' :: rest => some (object [], rest)
      | rest => (readFields fuel rest).map fun (fields, rest) => (object fields, rest)
    | cs => readNumber cs

/-- Reads the items of an array that has some, and the bracket after them. -/
def readItems : Nat → List Char → Option (List Document × List Char)
  | 0, _ => none
  | fuel + 1, cs => do
    let (item, rest) ← read fuel cs
    match skipBlanks rest with
    | ',' :: rest =>
      let (items, rest) ← readItems fuel rest
      pure (item :: items, rest)
    | ']' :: rest => pure ([item], rest)
    | _ => none

/-- Reads the fields of an object that has some, and the brace after them. -/
def readFields : Nat → List Char → Option (List (Option String × Document) × List Char)
  | 0, _ => none
  | fuel + 1, cs =>
    match skipBlanks cs with
    | '"' :: rest => do
      let (key, rest) ← readString rest
      match skipBlanks rest with
      | ':' :: rest =>
        let (value, rest) ← read fuel rest
        match skipBlanks rest with
        | ',' :: rest =>
          let (fields, rest) ← readFields fuel rest
          pure ((key, value) :: fields, rest)
        | '\x7d' :: rest => pure ([(key, value)], rest)
        | _ => none
      | _ => none
    | _ => none
end

/-- The document of a text, all of it. -/
def ofText (text : String) : Option Document :=
  let cs := text.toList
  match read (2 * cs.length + 2) cs with
  | some (document, rest) => if (skipBlanks rest).isEmpty then some document else none
  | none => none

/-! ## The values of numbers -/

/-- Adds digits to a number as long as it stays below `2 ^ 64`, and counts those left over. -/
def significand (n : Nat) : List Char → Nat × Nat
  | [] => (n, 0)
  | d :: ds =>
    let m := 10 * n + (d.toNat - '0'.toNat)
    if m < UInt64.size then significand m ds else (n, ds.length + 1)

/-- Scales a number by a power of ten, one rounding for each power up to the greatest that binary64
has. There is no result past the largest number. -/
def scale? : Nat → Float → Int → Option Float
  | 0, x, _ => some x
  | fuel + 1, x, power =>
    if power.natAbs ≤ 308 then
      let factor := Float.ofScientific 1 false power.natAbs
      if 0 ≤ power then
        let y := x * factor
        if y.isInf then none else some y
      else some (x / factor)
    else if x == 0.0 then some x
    else if 0 ≤ power then none
    else scale? fuel (x / 1e308) (power + 308)

/-- The number of a numeral: its leading digits as far as they make a number below `2 ^ 64`, which
is scaled by the power of ten left. Dividing twice by the greatest power of ten leaves zero of every
such number. -/
def floatOf? (n : Decimal.Numeral) : Option Float :=
  let (whole, dropped) := significand 0 n.integral
  let fraction := n.fraction.getD []
  let (all, left) := significand whole fraction
  let power : Int := dropped - (fraction.length - left : Nat) + n.exponent.getD 0
  scale? 4 all.toUInt64.toFloat power

/-- The number of a document as binary64. -/
def float? : Document → Option Float
  | number negative n => (floatOf? n).map fun x => if negative then -x else x
  | _ => none

/-- The number of a document as a 64-bit integer. A number with a point, an exponent or the sign of
a negative zero is none. -/
def int64? : Document → Option Int64
  | number negative n =>
    if n.fraction.isSome || n.exponent.isSome then none
    else
      let m := Decimal.ofDigits n.integral
      if negative then (if m = 0 then none else Integer.fit? (-m)) else Integer.fit? m
  | _ => none

/-- The truth value of a document. -/
def bool? : Document → Option Bool
  | bool b => some b
  | _ => none

/-- The text of a document that is a string. -/
def string? : Document → Option String
  | string s => s
  | _ => none

/-! ## Writing -/

/-- A hexadecimal digit. -/
def hexDigit (n : Nat) : Char :=
  (Nat.toDigits 16 n).headD '0'

/-- A character inside a written string. Quotes, backslashes and control characters are escaped. -/
def escape (c : Char) : List Char :=
  if c = '"' then ['\\', '"']
  else if c = '\\' then ['\\', '\\']
  else if c = '\x08' then ['\\', 'b']
  else if c = '\x0c' then ['\\', 'f']
  else if c = '\n' then ['\\', 'n']
  else if c = '\r' then ['\\', 'r']
  else if c = '\t' then ['\\', 't']
  else if c.toNat < 0x20 then
    ['\\', 'u', '0', '0', hexDigit (c.toNat / 16), hexDigit (c.toNat % 16)]
  else [c]

/-- A string as written. -/
def quote (s : String) : String :=
  String.ofList ('"' :: s.toList.flatMap escape ++ ['"'])

/-- An object as written, with its fields in order. -/
def braces (fields : List (String × String)) : String :=
  "\x7b" ++ ",".intercalate (fields.map fun (key, value) => quote key ++ ":" ++ value) ++ "\x7d"

/-- The layout of a number in a document: plain from `10 ^ -5` up to below `10 ^ 16`, and with a
signed exponent elsewhere. -/
def layout : Layout := ⟨some (-5), some 16, true, true, .toEven⟩

/-- A number as written. JSON has no infinities and no not-a-number. -/
def writeFloat (x : Float) : String :=
  if x.isFinite then String.ofList (layout.chars x) else "null"

end Document

end SearchSpace
