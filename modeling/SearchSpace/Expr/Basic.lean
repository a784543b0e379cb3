import SearchSpace.Error

/-!
# Expressions

An `Expr` is a tree of literals, variables, operators and lists. The type of the variables is open:
an expression as written has names (`Expr String`), and one that is evaluated has parameters.

A list is meant to stand on the right of `#` and nowhere else. `Expr.ofBinary`, `Expr.ofUnary` and
`Expr.ofList` make a node and refuse a list in any other place.
-/

namespace SearchSpace

/-- An expression over variables of type `ν`. -/
inductive Expr (ν : Type) where
  | literal (v : Value)
  | var (x : ν)
  | binary (op : BinaryOp) (left right : Expr ν)
  | unary (op : UnaryOp) (operand : Expr ν)
  | list (items : List (Expr ν))

namespace Expr

variable {ν : Type}

/-- The kind of the outermost node. -/
def kind : Expr ν → NodeKind
  | literal _ => .literal
  | var _ => .var
  | binary op _ _ => .binary op
  | unary op _ => .unary op
  | list _ => .list

/-- Whether an expression is a list. -/
def isList : Expr ν → Bool
  | list _ => true
  | _ => false

/-- The direct children, left to right. -/
def children : Expr ν → List (Expr ν)
  | literal _ | var _ => []
  | binary _ left right => [left, right]
  | unary _ operand => [operand]
  | list items => items

mutual
/-- The variables of an expression, as often as they occur, left to right. -/
def vars : Expr ν → List ν
  | literal _ => []
  | var x => [x]
  | binary _ left right => left.vars ++ right.vars
  | unary _ operand => operand.vars
  | list items => varsAll items

/-- The variables of some expressions. -/
def varsAll : List (Expr ν) → List ν
  | [] => []
  | e :: es => e.vars ++ varsAll es
end

/-! ## Equality -/

mutual
/-- Whether two expressions are the same tree; literals are compared by structure. -/
def same [BEq ν] : Expr ν → Expr ν → Bool
  | literal v, literal w => v = w
  | var x, var y => x == y
  | binary op l r, binary op' l' r' => op = op' && l.same l' && r.same r'
  | unary op e, unary op' e' => op = op' && e.same e'
  | list es, list es' => sameAll es es'
  | _, _ => false

/-- Whether two lists of expressions are the same trees. -/
def sameAll [BEq ν] : List (Expr ν) → List (Expr ν) → Bool
  | [], [] => true
  | e :: es, e' :: es' => e.same e' && sameAll es es'
  | _, _ => false
end

instance [BEq ν] : BEq (Expr ν) where
  beq := same

/-! ## Making nodes -/

/-- A node of two operands. Only `#` takes a list on its right, and it takes nothing else there. -/
def ofBinary (op : BinaryOp) (left right : Expr ν) : Except Error (Expr ν) :=
  if left.isList then .error (.invalidExpression (.listOnLeft op))
  else if op = .member && !right.isList then .error (.invalidExpression .listExpected)
  else if op ≠ .member && right.isList then .error (.invalidExpression (.listOnRight op))
  else .ok (binary op left right)

/-- A node of one operand, which is no list. -/
def ofUnary (op : UnaryOp) (operand : Expr ν) : Except Error (Expr ν) :=
  if operand.isList then .error (.invalidExpression (.listUnder op))
  else .ok (unary op operand)

/-- A list, of which no item is a list. -/
def ofList (items : List (Expr ν)) : Except Error (Expr ν) :=
  if items.any isList then .error (.invalidExpression .nestedList)
  else .ok (list items)

end Expr

end SearchSpace
