import SearchSpace.Operator
import SearchSpace.Identifier
import SearchSpace.Decimal.Layout
import SearchSpace.Text.Quoted

/-!
# Tokens of expressions

A text is a sequence of tokens with blanks between. Each token is the longest that can be read where
it starts. A minus sign remembers whether a digit follows it at once, because where an operand is
expected it then belongs to the number.
-/

namespace SearchSpace

/-- The parts of the text of an expression. -/
inductive Token where
  /-- Digits alone. -/
  | integer (n : Nat)
  /-- Digits with a point or an exponent. -/
  | decimal (d : Decimal)
  | string (s : String)
  | word (s : String)
  /-- The symbol of an operator, other than the signs. -/
  | operator (op : BinaryOp)
  | plus
  /-- A minus sign, and whether a digit follows at once. -/
  | minus (glued : Bool)
  | not
  | leftParen
  | rightParen
  | leftBracket
  | rightBracket
  | comma
deriving DecidableEq, Repr

namespace Token

/-- Blanks are the space, the tab, the carriage return and the line feed. -/
def isBlank (c : Char) : Bool :=
  c == ' ' || c == '\t' || c == '\r' || c == '\n'

/-- The operator that a token stands for between two operands. -/
def binaryOp? : Token → Option BinaryOp
  | operator op => some op
  | plus => some .add
  | minus _ => some .subtract
  | _ => none

/-- Whether a text starts with a digit. -/
def startsWithDigit (cs : List Char) : Bool :=
  cs.head?.any Char.isDigit

/-- The token of a numeral. -/
def ofNumeral (n : Decimal.Numeral) : Token :=
  if n.fraction.isNone ∧ n.exponent.isNone then integer (Decimal.ofDigits n.integral)
  else decimal n.toDecimal

/-- Reads the token at the front of a text that does not start with a blank. -/
def next? : List Char → Option (Token × List Char)
  | '|' :: '|' :: cs => some (operator .or, cs)
  | '&' :: '&' :: cs => some (operator .and, cs)
  | '=' :: '=' :: cs => some (operator .equal, cs)
  | '!' :: '=' :: cs => some (operator .notEqual, cs)
  | '<' :: '=' :: cs => some (operator .lessOrEqual, cs)
  | '>' :: '=' :: cs => some (operator .greaterOrEqual, cs)
  | '<' :: cs => some (operator .less, cs)
  | '>' :: cs => some (operator .greater, cs)
  | '#' :: cs => some (operator .member, cs)
  | '*' :: cs => some (operator .multiply, cs)
  | '/' :: cs => some (operator .divide, cs)
  | '%' :: cs => some (operator .modulo, cs)
  | '+' :: cs => some (plus, cs)
  | '-' :: cs => some (minus (startsWithDigit cs), cs)
  | '!' :: cs => some (not, cs)
  | '(' :: cs => some (leftParen, cs)
  | ')' :: cs => some (rightParen, cs)
  | '[' :: cs => some (leftBracket, cs)
  | ']' :: cs => some (rightBracket, cs)
  | ',' :: cs => some (comma, cs)
  | '"' :: cs => (Quoted.decode cs).map fun (s, rest) => (string (String.ofList s), rest)
  | c :: cs =>
    if c.isDigit then
      let (numeral, rest) := Decimal.Numeral.read (c :: cs)
      some (ofNumeral numeral, rest)
    else if isWordStart c then
      some (word (String.ofList (c :: cs.takeWhile isWordChar)), cs.dropWhile isWordChar)
    else none
  | [] => none

/-- Reads at most `fuel` tokens and blanks, up to the end of the text. -/
def readAll : Nat → List Char → Option (List Token)
  | _, [] => some []
  | 0, _ :: _ => none
  | fuel + 1, c :: cs =>
    if isBlank c then readAll fuel cs
    else do
      let (token, rest) ← next? (c :: cs)
      let tokens ← readAll fuel rest
      pure (token :: tokens)

/-- The tokens of a text. Every token and every blank takes a character, so the length of the text
bounds their number. -/
def ofChars (cs : List Char) : Option (List Token) :=
  readAll cs.length cs

end Token

end SearchSpace
