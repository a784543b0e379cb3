/-!
# Operators

The operators of expressions, with the symbols they are written with and their precedence. A higher
precedence binds tighter, and operators of two operands group to the left.
-/

namespace SearchSpace

/-- An operator of two operands. -/
inductive BinaryOp where
  | or
  | and
  | equal
  | notEqual
  | less
  | greater
  | lessOrEqual
  | greaterOrEqual
  /-- Membership of the left operand in the list on the right. -/
  | member
  | add
  | subtract
  | multiply
  | divide
  | modulo
deriving DecidableEq, Repr

/-- An operator of one operand. -/
inductive UnaryOp where
  | positive
  | negative
  | not
deriving DecidableEq, Repr

/-- Every node of an expression is of one of these kinds. -/
inductive NodeKind where
  | binary (op : BinaryOp)
  | unary (op : UnaryOp)
  | list
  | literal
  | var
deriving DecidableEq, Repr

namespace BinaryOp

/-- The symbol between the operands. -/
def symbol : BinaryOp → String
  | or => "||"
  | and => "&&"
  | equal => "=="
  | notEqual => "!="
  | less => "<"
  | greater => ">"
  | lessOrEqual => "<="
  | greaterOrEqual => ">="
  | member => "#"
  | add => "+"
  | subtract => "-"
  | multiply => "*"
  | divide => "/"
  | modulo => "%"

/-- The name of an operator. -/
def name : BinaryOp → String
  | or => "Or"
  | and => "And"
  | equal => "Equal"
  | notEqual => "NotEqual"
  | less => "Less"
  | greater => "Greater"
  | lessOrEqual => "LessOrEqual"
  | greaterOrEqual => "GreaterOrEqual"
  | member => "In"
  | add => "Add"
  | subtract => "Subtract"
  | multiply => "Multiply"
  | divide => "Divide"
  | modulo => "Modulo"

/-- Binding strength, from 0 to 6. -/
def precedence : BinaryOp → Nat
  | or => 0
  | and => 1
  | equal | notEqual => 2
  | less | greater | lessOrEqual | greaterOrEqual => 3
  | member => 4
  | add | subtract => 5
  | multiply | divide | modulo => 6

/-- Whether an operator orders its operands. -/
def isOrdering : BinaryOp → Bool
  | less | greater | lessOrEqual | greaterOrEqual => true
  | _ => false

/-- Whether an operator compares its operands, by equality or by order. -/
def isComparison (op : BinaryOp) : Bool :=
  op = equal || op = notEqual || op.isOrdering

/-- All operators of two operands. -/
def all : List BinaryOp :=
  [or, and, equal, notEqual, less, greater, lessOrEqual, greaterOrEqual, member, add, subtract,
    multiply, divide, modulo]

end BinaryOp

namespace UnaryOp

/-- The symbol before the operand. -/
def symbol : UnaryOp → String
  | positive => "+"
  | negative => "-"
  | not => "!"

/-- The name of an operator. -/
def name : UnaryOp → String
  | positive => "Positive"
  | negative => "Negative"
  | not => "Not"

/-- All operators of one operand. -/
def all : List UnaryOp :=
  [positive, negative, not]

end UnaryOp

namespace NodeKind

/-- The name of a kind of node. -/
def name : NodeKind → String
  | binary op => op.name
  | unary op => op.name
  | list => "List"
  | literal => "Literal"
  | var => "Variable"

/-- The number of children, where it is fixed. -/
def arity? : NodeKind → Option Nat
  | binary _ => some 2
  | unary _ => some 1
  | list => none
  | literal | var => some 0

/-- Binding strength, from 0 to 8; operators of one operand bind tighter than those of two, and
nodes without operator bind tightest. -/
def precedence : NodeKind → Nat
  | binary op => op.precedence
  | unary _ => 7
  | list | literal | var => 8

end NodeKind

/-- A row for each kind of node: its name, the symbol of its operator, its number of children and
its precedence. -/
def nodeTable : List (NodeKind × String) :=
  BinaryOp.all.map (fun op => (.binary op, op.symbol)) ++
    UnaryOp.all.map (fun op => (.unary op, op.symbol)) ++
    [(.list, ""), (.literal, ""), (.var, "")]

end SearchSpace
