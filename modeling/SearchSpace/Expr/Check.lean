import SearchSpace.Expr.Printer

/-!
# Checking expressions against a scope

Before an expression is used in a scope, `Expr.check` looks for what would make its evaluation fail
whatever the values are: variables from elsewhere, literals that are no values, and comparisons of a
parameter with something that its domain does not hold or order.
-/

namespace SearchSpace.Expr

/-- The places of the parameters that an expression reads, ascending and each once. -/
def indices (scope : Scope) (e : Expr Parameter) : Except Error (List Nat) := do
  let places ← e.vars.mapM fun p =>
    match scope.indexOf? p with
    | some i => .ok i
    | none => .error (.invalidExpression (.outsideContext p.name.text))
  pure (places.mergeSort (· ≤ ·)).eraseDups

/-- The parameters that an expression reads, each once, those made first in front. -/
def parameters (e : Expr Parameter) : List Parameter :=
  (e.vars.mergeSort (·.id ≤ ·.id)).eraseDups

/-- Checks one operand of a comparison, which may be a variable, against the other. -/
def checkOperand (op : BinaryOp) : Expr Parameter → Expr Parameter → Except Error Unit
  | var p, other =>
    let categorical := match p.domain with
      | .categorical _ => true
      | _ => false
    if op.isOrdering && categorical then
      .error (.invalidExpression (.unorderedCategory p.name.text op))
    else match other with
      | literal v =>
        let mustBelong := match p.domain with
          | .categorical _ | .ordinal _ => true
          | .discrete _ => !op.isOrdering
          | _ => false
        if mustBelong && (p.domain.canonical? v).isNone then
          .error (.invalidValue (.notInDomain v p.name.text))
        else .ok ()
      | _ => .ok ()
  | _, _ => .ok ()

/-- Checks a node without its children. -/
def checkNode (scope : Scope) : Expr Parameter → Except Error Unit
  | literal .inactive => .error (.invalidExpression .inactiveLiteral)
  | literal (.float x) =>
    if x.toFloat.isFinite then .ok ()
    else .error (.invalidValue (.infiniteLiteral x.toFloat))
  | var p =>
    if (scope.indexOf? p).isNone then .error (.invalidExpression (.outsideContext p.name.text))
    else .ok ()
  | binary op left right =>
    if op.isComparison then do
      checkOperand op left right
      checkOperand op right left
    else .ok ()
  | _ => .ok ()

mutual
/-- Checks a node, and then its children from left to right. -/
def check (scope : Scope) : Expr Parameter → Except Error Unit
  | literal v => checkNode scope (literal v)
  | var p => checkNode scope (var p)
  | binary op left right => do
    checkNode scope (binary op left right)
    left.check scope
    right.check scope
  | unary op operand => do
    checkNode scope (unary op operand)
    operand.check scope
  | list items => do
    checkNode scope (list items)
    checkAll scope items

/-- Checks some expressions. -/
def checkAll (scope : Scope) : List (Expr Parameter) → Except Error Unit
  | [] => .ok ()
  | e :: es => do
    e.check scope
    checkAll scope es
end

end SearchSpace.Expr
