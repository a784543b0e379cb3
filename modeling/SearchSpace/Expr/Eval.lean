import SearchSpace.Expr.Basic
import SearchSpace.Scope
import SearchSpace.Integer

/-!
# Evaluating expressions

`Expr.eval` computes the value of an expression on a binding. A variable whose parameter is inactive
has no value but signals that (`Error.inactiveParameter`), and so does every operator around it
except `||`, which lets one side be inactive if the other has a truth value.

A parameter with listed values, compared with anything, compares by the place of the value in its
domain. Arithmetic on integers is exact: a result without a 64-bit form is refused.
-/

namespace SearchSpace.Expr

/-- The truth value of a boolean. -/
def expectBool (v : Value) : Except Error Bool :=
  match v.bool? with
  | some b => .ok b
  | none => .error (.invalidValue (.notBoolean v))

/-! ## Logic -/

/-- One side of `||`: a truth value, or none if it is inactive. -/
def orSide : Except Error Value → Except Error (Option Bool)
  | .ok v => some <$> expectBool v
  | .error e => if e.isInactive then .ok none else .error e

/-- The value of `||` on the outcomes of both sides. With both sides inactive it is inactive in the
manner of the left one. -/
def evalOr (left right : Except Error Value) : Except Error Value := do
  let l ← orSide left
  let r ← orSide right
  match l, r with
  | none, none => left
  | l, r => pure (.bool (l.getD false || r.getD false))

/-! ## Arithmetic -/

/-- The value of an operator of one operand. -/
def evalUnary (op : UnaryOp) (v : Value) : Except Error Value :=
  match op, v with
  | .positive, .int n => .ok (.int n)
  | .positive, .float x => .ok (.float x)
  | .negative, .int n =>
    match Integer.fit? (-n.toInt) with
    | some m => .ok (.int m)
    | none => .error (.invalidValue (.negationOverflow n))
  | .negative, .float x => .ok (.float x.neg)
  | .not, .bool b => .ok (.bool !b)
  | op, v => .error (.invalidValue (.unaryOperand op v))

/-- Whether an operator divides. -/
def divides : BinaryOp → Bool
  | .divide | .modulo => true
  | _ => false

/-- The result of an arithmetic operator on integers. Division goes toward zero and the remainder
has the sign of the dividend; the remainder is refused where the quotient does not fit. -/
def intResult? (op : BinaryOp) (a b : Int) : Option Int64 :=
  match op with
  | .add => Integer.fit? (a + b)
  | .subtract => Integer.fit? (a - b)
  | .multiply => Integer.fit? (a * b)
  | .divide => Integer.fit? (a.tdiv b)
  | _ => (Integer.fit? (a.tdiv b)).bind fun _ => Integer.fit? (a.tmod b)

/-- The result of an arithmetic operator on binary64 numbers. -/
def floatResult (op : BinaryOp) (a b : Float) : Float :=
  match op with
  | .add => a + b
  | .subtract => a - b
  | .multiply => a * b
  | .divide => a / b
  | _ => Binary64.remainder a b

/-- The value of an arithmetic operator: exact on two integers, binary64 as soon as one operand is.
Division by zero is refused for both. -/
def evalArithmetic (op : BinaryOp) (left right : Value) : Except Error Value :=
  match left, right with
  | .int a, .int b =>
    if divides op && b == 0 then .error (.invalidValue .divisionByZero)
    else match intResult? op a.toInt b.toInt with
      | some n => .ok (.int n)
      | none => .error (.invalidValue (.overflow a op b))
  | left, right => match left.signedFloat?, right.signedFloat? with
    | some a, some b =>
      if divides op && b.toFloat == 0.0 then .error (.invalidValue .divisionByZero)
      else .ok (.float (a.combine (floatResult op) b))
    | _, _ => .error (.invalidValue (.notNumbers op left right))

/-! ## Comparison -/

/-- The parameter of a variable whose values are listed. -/
def listed? : Expr Parameter → Option Parameter
  | var p => if p.domain.set?.isSome then some p else none
  | _ => none

/-- The place of a value among those of a parameter. -/
def placeOf (p : Parameter) (v : Value) : Except Error Nat :=
  match p.domain.indexOf? v with
  | some i => .ok i
  | none => .error (.invalidValue (.notInDomain v p.name.text))

/-- Whether two operands with these values are equal. -/
def equalValues (left right : Expr Parameter) (l r : Value) : Except Error Bool :=
  match left.listed?.orElse fun _ => right.listed? with
  | some p => do
    let i ← placeOf p l
    let j ← placeOf p r
    pure (i == j)
  | none => l.equals r

/-- The order of two operands with these values. -/
def orderValues (left right : Expr Parameter) (l r : Value) : Except Error Ordering :=
  match left.listed?.orElse fun _ => right.listed? with
  | some p => match p.domain with
    | .categorical _ => .error (.invalidValue (.noOrder p.name.text))
    | .ordinal _ => p.compareValues l r
    | _ => l.compare r
  | none => l.compare r

/-- Whether an order makes a comparison true. -/
def holds (op : BinaryOp) (o : Ordering) : Bool :=
  match op with
  | .less => o == .lt
  | .greater => o == .gt
  | .lessOrEqual => o != .gt
  | _ => o != .lt

/-! ## Expressions -/

/-- The value of a variable. -/
def evalVar (b : Binding) (p : Parameter) : Except Error Value :=
  match b.scope.indexOf? p with
  | none => .error (.invalidExpression (.unbound p.name.text))
  | some i => do
    match ← b.value i with
    | .inactive => throw (.inactiveParameter p.name.text)
    | v => pure v

mutual
/-- The value of an expression on a binding. -/
def eval (b : Binding) : Expr Parameter → Except Error Value
  | literal .inactive => .error (.invalidExpression .inactiveLiteral)
  | literal v => .ok v
  | var p => evalVar b p
  | list _ => .error (.invalidExpression .bareList)
  | unary op operand => do evalUnary op (← operand.eval b)
  | binary .or left right => evalOr (left.eval b) (right.eval b)
  | binary .and left right => do
    let l ← expectBool (← left.eval b)
    let r ← expectBool (← right.eval b)
    pure (.bool (l && r))
  | binary .member left (list items) => do
    let v ← left.eval b
    pure (.bool (← evalMember b v items))
  | binary .member _ _ => .error (.invalidExpression .listExpected)
  | binary op left right => do
    let l ← left.eval b
    let r ← right.eval b
    if op = .equal then pure (.bool (← equalValues left right l r))
    else if op = .notEqual then pure (.bool !(← equalValues left right l r))
    else if op.isOrdering then pure (.bool (holds op (← orderValues left right l r)))
    else evalArithmetic op l r

/-- Whether a value equals that of one of some expressions, which are evaluated up to that one. A
value of a kind that cannot be compared is not equal. -/
def evalMember (b : Binding) (v : Value) : List (Expr Parameter) → Except Error Bool
  | [] => .ok false
  | e :: es => do
    let w ← e.eval b
    match v.equals w with
    | .ok true => pure true
    | _ => evalMember b v es
end

end SearchSpace.Expr
