import SearchSpace.Expr.Basic
import SearchSpace.Scope

/-!
# The text of an expression

Operators stand between blanks, and an operand is put into parentheses where it would be read
differently without them: to the left of an operator if it binds less tightly, to the right also if
it binds equally tightly, since operators group to the left. A number after a sign is put into
parentheses too, because a minus sign before a digit belongs to the number.
-/

namespace SearchSpace.Expr

variable {ν : Type}

/-- Whether an expression is a number. -/
def isNumber : Expr ν → Bool
  | literal v => v.isNumeric
  | _ => false

/-- Whether the left operand of an operator is put into parentheses. -/
def leftNeedsParens (op : BinaryOp) (left : Expr ν) : Bool :=
  left.kind.precedence < op.precedence

/-- Whether the right operand of an operator is put into parentheses. -/
def rightNeedsParens (op : BinaryOp) (right : Expr ν) : Bool :=
  right.kind.precedence ≤ op.precedence

/-- Whether the operand of an operator of one operand is put into parentheses. -/
def operandNeedsParens (op : UnaryOp) (operand : Expr ν) : Bool :=
  (op ≠ .not && operand.isNumber) || operand.kind.precedence < (NodeKind.unary op).precedence

/-- A text, in parentheses or not. -/
def parenthesize (parens : Bool) (cs : List Char) : List Char :=
  if parens then '(' :: cs ++ [')'] else cs

mutual
/-- The text of an expression, given that of its variables. -/
def chars (name : ν → List Char) : Expr ν → List Char
  | literal v => v.chars
  | var x => name x
  | binary op left right =>
    parenthesize (leftNeedsParens op left) (left.chars name) ++
      ' ' :: op.symbol.toList ++
      ' ' :: parenthesize (rightNeedsParens op right) (right.chars name)
  | unary op operand =>
    op.symbol.toList ++ parenthesize (operandNeedsParens op operand) (operand.chars name)
  | list items => '[' :: charsAll name items ++ [']']

/-- The texts of the items of a list, with a comma and a blank between. -/
def charsAll (name : ν → List Char) : List (Expr ν) → List Char
  | [] => []
  | [e] => e.chars name
  | e :: e' :: es => e.chars name ++ ',' :: ' ' :: charsAll name (e' :: es)
end

/-- The text of an expression over parameters. -/
def text (e : Expr Parameter) : String :=
  String.ofList (e.chars (·.name.text.toList))

end SearchSpace.Expr
