import SearchSpace.Proofs.Expr.Reads

/-!
# Arithmetic on integers

An expression of integers that is put together with arithmetic operators has a number on the
mathematical integers (`number`). Its evaluation on integers of 64 bits never leaves these: it gives
that number if each step on the way has a form of 64 bits (`Exact`), and otherwise it finds a value
invalid (`eval_integral`). A step is more than its result: no divisor is zero, and for a remainder the
quotient has a form of 64 bits too.
-/

namespace SearchSpace

/-- Whether an operator of two operands computes a number. -/
def BinaryOp.isArithmetic : BinaryOp → Bool
  | add | subtract | multiply | divide | modulo => true
  | _ => false

namespace Expr

/-! ## Numbers without bounds -/

/-- An integer has a form of 64 bits. -/
def InRange (z : Int) : Prop :=
  Int64.minValue.toInt ≤ z ∧ z ≤ Int64.maxValue.toInt

/-- The result of an arithmetic operator. Division goes toward zero, and the remainder has the sign of
the dividend. -/
def compute (op : BinaryOp) (x y : Int) : Int :=
  match op with
  | .add => x + y
  | .subtract => x - y
  | .multiply => x * y
  | .divide => x.tdiv y
  | _ => x.tmod y

/-- An operator divides by no zero, and its result has a form of 64 bits, for a remainder the quotient
too. -/
def Fits (op : BinaryOp) (x y : Int) : Prop :=
  (divides op = true → y ≠ 0) ∧ (op = .modulo → InRange (x.tdiv y)) ∧ InRange (compute op x y)

/-- A number with a sign before it. -/
def withSign (op : UnaryOp) (x : Int) : Int :=
  match op with
  | .negative => -x
  | _ => x

/-- The number of an expression of integers. -/
def number (b : Binding) : Expr Parameter → Int
  | literal (.int n) => n.toInt
  | var p =>
    match b.valueOf p with
    | .ok (.int n) => n.toInt
    | _ => 0
  | unary op e => withSign op (number b e)
  | binary op left right => compute op (number b left) (number b right)
  | _ => 0

/-- Each step of an expression of integers fits into 64 bits. -/
def Exact (b : Binding) : Expr Parameter → Prop
  | literal v => InRange (number b (literal v))
  | var p => InRange (number b (var p))
  | unary op e => Exact b e ∧ InRange (withSign op (number b e))
  | binary op left right =>
    Exact b left ∧ Exact b right ∧ Fits op (number b left) (number b right)
  | list _ => False

/-- An expression is made of integers, of variables that are bound to integers, and of arithmetic
operators. -/
inductive Integral (b : Binding) : Expr Parameter → Prop
  | literal (n : Int64) : Integral b (literal (.int n))
  | var {p : Parameter} {n : Int64} : b.valueOf p = .ok (.int n) → Integral b (var p)
  | unary {op : UnaryOp} {e : Expr Parameter} : op ≠ .not → Integral b e → Integral b (unary op e)
  | binary {op : BinaryOp} {left right : Expr Parameter} :
      op.isArithmetic = true → Integral b left → Integral b right → Integral b (binary op left right)

/-! ## Single steps -/

/-- A computation gives an integer if a condition holds, and finds a value invalid otherwise. -/
def Checked (P : Prop) (z : Int) (x : Except Error Value) : Prop :=
  (P ∧ ∃ n : Int64, n.toInt = z ∧ x = .ok (.int n)) ∨
    ¬P ∧ ∃ fault, x = .error (.invalidValue fault)

/-- A condition can be put in another way. -/
theorem Checked.of_iff {P Q : Prop} {z : Int} {x : Except Error Value} (h : Checked P z x)
    (hiff : Q ↔ P) : Checked Q z x :=
  h.imp (And.imp_left hiff.2) (And.imp_left (mt hiff.1))

/-- What an integer of 64 bits stands for has such a form. -/
theorem inRange_toInt (n : Int64) : InRange n.toInt :=
  ⟨n.minValue_le_toInt, n.toInt_le⟩

/-- Just a number with a form of 64 bits is brought to it. -/
theorem exists_fit?_iff {z : Int} : (∃ n, Integer.fit? z = some n) ↔ InRange z := by
  constructor
  · rintro ⟨n, hn⟩
    exact Integer.toInt_of_fit? hn ▸ inRange_toInt n
  · intro h
    exact ⟨Int64.ofInt z, if_pos h⟩

/-- The result of an arithmetic operator on 64 bits stands for that without bounds. -/
theorem toInt_of_intResult? {op : BinaryOp} (hop : op.isArithmetic = true) {x y : Int} {n : Int64}
    (h : intResult? op x y = some n) : n.toInt = compute op x y := by
  cases op with
  | add | subtract | multiply | divide => exact Integer.toInt_of_fit? h
  | modulo =>
    obtain ⟨_, -, h⟩ := Option.bind_eq_some_iff.1 h
    exact Integer.toInt_of_fit? h
  | or | and | equal | notEqual | less | greater | lessOrEqual | greaterOrEqual | member => cases hop

/-- An arithmetic operator has a result on 64 bits if that without bounds has a form of 64 bits, and
for a remainder the quotient too. -/
theorem exists_intResult?_iff {op : BinaryOp} (hop : op.isArithmetic = true) {x y : Int} :
    (∃ n, intResult? op x y = some n) ↔
      (op = .modulo → InRange (x.tdiv y)) ∧ InRange (compute op x y) := by
  cases op with
  | add | subtract | multiply | divide =>
    refine exists_fit?_iff.trans (iff_and_self.2 fun _ h => ?_)
    cases h
  | modulo =>
    rw [← exists_fit?_iff, ← exists_fit?_iff]
    simp only [intResult?, compute, Option.bind_eq_some_iff, true_imp_iff]
    constructor
    · rintro ⟨n, m, hm, hn⟩
      exact ⟨⟨m, hm⟩, n, hn⟩
    · rintro ⟨⟨m, hm⟩, n, hn⟩
      exact ⟨n, m, hm, hn⟩
  | or | and | equal | notEqual | less | greater | lessOrEqual | greaterOrEqual | member => cases hop

/-- An arithmetic operator on integers is computed or refused. -/
theorem checked_evalArithmetic {op : BinaryOp} (hop : op.isArithmetic = true) (a b : Int64) :
    Checked (Fits op a.toInt b.toInt) (compute op a.toInt b.toInt)
      (evalArithmetic op (.int a) (.int b)) := by
  have hzero : b = 0 ↔ b.toInt = 0 := by
    rw [← Int64.toInt_inj, Int64.toInt_zero]
  rw [evalArithmetic]
  -- a zero divisor is found before the result is computed
  split
  · next h =>
    rw [Bool.and_eq_true, beq_iff_eq, hzero] at h
    exact .inr ⟨fun hfits => hfits.1 h.1 h.2, _, rfl⟩
  · next h =>
    rw [Bool.and_eq_true, beq_iff_eq, hzero, not_and] at h
    cases hresult : intResult? op a.toInt b.toInt with
    | some n =>
      have hfits := (exists_intResult?_iff hop).1 ⟨n, hresult⟩
      exact .inl ⟨⟨h, hfits⟩, n, toInt_of_intResult? hop hresult, rfl⟩
    | none =>
      refine .inr ⟨fun hfits => ?_, _, rfl⟩
      obtain ⟨n, hn⟩ := (exists_intResult?_iff hop).2 hfits.2
      rw [hresult] at hn
      cases hn

/-- A sign before an integer is computed or refused. -/
theorem checked_evalUnary {op : UnaryOp} (hop : op ≠ .not) (n : Int64) :
    Checked (InRange (withSign op n.toInt)) (withSign op n.toInt) (evalUnary op (.int n)) := by
  cases op with
  | not => exact absurd rfl hop
  | positive => exact .inl ⟨inRange_toInt n, n, rfl, rfl⟩
  | negative =>
    rw [evalUnary]
    cases hfit : Integer.fit? (-n.toInt) with
    | some m => exact .inl ⟨exists_fit?_iff.1 ⟨m, hfit⟩, m, Integer.toInt_of_fit? hfit, rfl⟩
    | none =>
      refine .inr ⟨fun hrange => ?_, _, rfl⟩
      obtain ⟨m, hm⟩ := exists_fit?_iff.2 hrange
      rw [withSign, hfit] at hm
      cases hm

/-! ## Trees -/

/-- An arithmetic operator computes from the values of both operands. -/
theorem eval_arithmetic {b : Binding} {op : BinaryOp} (hop : op.isArithmetic = true)
    (left right : Expr Parameter) : (binary op left right).eval b = (do
      let l ← left.eval b
      let r ← right.eval b
      evalArithmetic op l r) := by
  cases op with
  | add | subtract | multiply | divide | modulo =>
    rw [eval_binary (by decide) (by decide) (by decide)]
    simp only [reduceCtorEq, reduceIte, BinaryOp.isOrdering, Bool.false_eq_true]
  | or | and | equal | notEqual | less | greater | lessOrEqual | greaterOrEqual | member => cases hop

/-- An expression of integers is computed or refused. -/
theorem checked_eval {b : Binding} {e : Expr Parameter} (h : Integral b e) :
    Checked (Exact b e) (number b e) (e.eval b) := by
  induction h with
  | literal n => exact .inl ⟨inRange_toInt n, n, rfl, rfl⟩
  | @var p n hvalue =>
    have hnumber : number b (var p) = n.toInt := by rw [number, hvalue]
    have hexact : Exact b (var p) := by
      rw [Exact, hnumber]
      exact inRange_toInt n
    exact .inl ⟨hexact, n, hnumber.symm, eval_var_of_valueOf hvalue fun h => by cases h⟩
  | @unary op e hop _ ih =>
    rcases ih with ⟨hexact, n, hn, heval⟩ | ⟨hnot, fault, heval⟩
    · have hstep := checked_evalUnary hop n
      have hvalue : (unary op e).eval b = evalUnary op (.int n) := by
        simp only [eval, heval]
        rfl
      rw [← hvalue, hn] at hstep
      exact hstep.of_iff (and_iff_right hexact)
    · refine .inr ⟨fun h => hnot h.1, fault, ?_⟩
      simp only [eval, heval]
      rfl
  | @binary op left right hop _ _ ihleft ihright =>
    -- an operand that is refused is reported before the step is tried
    rcases ihleft with ⟨hexact, n, hn, heval⟩ | ⟨hnot, fault, heval⟩
    · rcases ihright with ⟨hexact', m, hm, heval'⟩ | ⟨hnot, fault, heval'⟩
      · have hstep := checked_evalArithmetic hop n m
        have hvalue : (binary op left right).eval b = evalArithmetic op (.int n) (.int m) := by
          rw [eval_arithmetic hop, heval, heval']
          rfl
        rw [← hvalue, hn, hm] at hstep
        exact hstep.of_iff ((and_iff_right hexact).trans (and_iff_right hexact'))
      · refine .inr ⟨fun h => hnot h.2.1, fault, ?_⟩
        rw [eval_arithmetic hop, heval, heval']
        rfl
    · refine .inr ⟨fun h => hnot h.1, fault, ?_⟩
      rw [eval_arithmetic hop, heval]
      rfl

/-- An expression of integers evaluates to an integer just if each step fits into 64 bits, and then
to the one that stands for its number. Otherwise a value is found invalid. -/
theorem eval_integral {b : Binding} {e : Expr Parameter} (h : Integral b e) :
    ((∃ n, e.eval b = .ok (.int n)) ↔ Exact b e) ∧
      (∀ n, e.eval b = .ok (.int n) → n.toInt = number b e) ∧
      (¬Exact b e → ∃ fault, e.eval b = .error (.invalidValue fault)) := by
  rcases checked_eval h with ⟨hexact, n, hn, heval⟩ | ⟨hnot, fault, heval⟩
  · rw [heval]
    refine ⟨iff_of_true ⟨n, rfl⟩ hexact, ?_, fun hnot => absurd hexact hnot⟩
    intro m hm
    cases hm
    exact hn
  · rw [heval]
    refine ⟨iff_of_false (fun ⟨_, h⟩ => by cases h) hnot, ?_, fun _ => ⟨fault, rfl⟩⟩
    intro m hm
    cases hm

/-- A parameter that can have the least integer. -/
def offset : Parameter :=
  ⟨0, ⟨"offset", by decide⟩, .ints ⟨Int64.minValue, 10, 4, by decide, by decide⟩, .int 0, by decide⟩

/-- A binding to the least integer. -/
def least : Binding :=
  ⟨⟨[offset], by decide⟩, [.int Int64.minValue]⟩

/-- The remainder by minus one, plus one. -/
def remainderPlusOne : Expr Parameter :=
  binary .add (binary .modulo (var offset) (unary .negative (literal (.int 1)))) (literal (.int 1))

/-- The remainder of the least integer by minus one is zero, but is refused, since the quotient has no
form of 64 bits. -/
theorem eval_integral_remainder :
    Integral least remainderPlusOne ∧ number least remainderPlusOne = 1 ∧
      ¬Exact least remainderPlusOne ∧
      ∃ fault, remainderPlusOne.eval least = .error (.invalidValue fault) := by
  have h : Integral least remainderPlusOne :=
    .binary rfl (.binary rfl (.var rfl) (.unary (by decide) (.literal 1))) (.literal 1)
  have hnot : ¬Exact least remainderPlusOne := by
    rintro ⟨⟨-, -, hfits⟩, -⟩
    have hquotient := (hfits.2.1 rfl).2
    exact absurd hquotient (by decide)
  exact ⟨h, by decide, hnot, (eval_integral h).2.2 hnot⟩

end Expr

end SearchSpace
