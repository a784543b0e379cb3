import SearchSpace.Proofs.Binary64.Extended
import SearchSpace.Proofs.Decimal.ReadBack
import SearchSpace.Proofs.Expr.Writing

/-!
# The text of an expression denotes it

The text of an expression denotes the expression with the names of its parameters, on every level up
to its own precedence (`printed`). Its literals must be such as can be written: none that stands
for an object or an inactive parameter, and no number that is not finite.
-/

namespace SearchSpace

namespace Expr

variable {ν μ : Type}

/-! ## Trees -/

mutual
/-- An expression with other variables. -/
def rename (f : ν → μ) : Expr ν → Expr μ
  | literal v => literal v
  | var x => var (f x)
  | binary op left right => binary op (left.rename f) (right.rename f)
  | unary op operand => unary op (operand.rename f)
  | list items => list (renameAll f items)

/-- Expressions with other variables. -/
def renameAll (f : ν → μ) : List (Expr ν) → List (Expr μ)
  | [] => []
  | e :: es => e.rename f :: renameAll f es
end

mutual
/-- The literals of an expression, left to right. -/
def literals : Expr ν → List Value
  | literal v => [v]
  | var _ => []
  | binary _ left right => left.literals ++ right.literals
  | unary _ operand => operand.literals
  | list items => literalsAll items

/-- The literals of some expressions. -/
def literalsAll : List (Expr ν) → List Value
  | [] => []
  | e :: es => e.literals ++ literalsAll es
end

end Expr

/-- Whether a value can be written as a literal. -/
def Value.IsWritable : Value → Prop
  | .object _ | .inactive => False
  | .float x => x.toFloat.isFinite = true
  | _ => True

namespace Expr

/-! ## Literals and names -/

/-- An integer with its sign is an operand. -/
theorem writes_int (n : Int64) : Writes (Layout.intChars n.toInt) (.operand (literal (.int n))) := by
  refine ⟨_, Token.spells_int n.toInt, ?_⟩
  have hfit := Integer.fit?_toInt n
  rw [Token.ofInt]
  split
  · next hneg =>
    refine .negativeInteger ?_
    rw [integerLiteral, if_pos rfl, Int.ofNat_natAbs_of_nonpos (Int.le_of_lt hneg), Int.neg_neg,
      hfit]
    rfl
  · next hneg =>
    refine .integer ?_
    rw [integerLiteral, if_neg Bool.false_ne_true, Int.natAbs_of_nonneg (Int.not_lt.1 hneg), hfit]
    rfl

/-- A word is the operand that it stands for. -/
theorem writes_word {c : Char} {cs : List Char} (hc : isWordStart c = true)
    (hcs : ∀ c ∈ cs, isWordChar c = true) :
    Writes (c :: cs) (.operand (ofWord (String.ofList (c :: cs)))) :=
  ⟨_, Token.spells_word hc hcs, .word⟩

/-- A number in binary64 with its sign is an operand. -/
theorem writes_float {x : SignedFloat} (h : x.toFloat.isFinite = true) :
    Writes (Layout.literal.chars x.toFloat) (.operand (literal (.float x))) := by
  obtain ⟨negative, n, hn, hparts, hchars, hfinite, hx⟩ := Layout.exists_signed_numeral h
  have htoken := Token.ofNumeral_of_isSome hparts
  have hliteral : decimalLiteral negative n.toDecimal = some (literal (.float x)) := by
    rw [decimalLiteral]
    show (if n.toDecimal.toFloat.isFinite then some (literal (.float
      (.ofFloat (if negative then -n.toDecimal.toFloat else n.toDecimal.toFloat)))) else none) = _
    rw [if_pos hfinite, hx, SignedFloat.ofFloat_toFloat (Binary64.isNaN_of_isFinite h)]
  rw [hchars]
  cases negative with
  | false =>
    refine ⟨_, Token.spells_numeral hn.isText, ?_⟩
    rw [htoken]
    exact .decimal hliteral
  | true =>
    refine ⟨_, Token.spells_negative hn.isText, ?_⟩
    rw [htoken]
    exact .negativeDecimal hliteral

/-- A value that can be written is an operand. -/
theorem writes_literal {v : Value} (h : v.IsWritable) : Writes v.chars (.operand (literal v)) := by
  cases v with
  | none => exact writes_word rfl (List.all_eq_true.1 rfl)
  | bool b => cases b <;> exact writes_word rfl (List.all_eq_true.1 rfl)
  | int n => exact writes_int n
  | float x => exact writes_float h
  | string s => exact ⟨_, Token.spells_string s, .string⟩
  | object key => exact h.elim
  | inactive => exact h.elim

/-- The name of a parameter is a word. -/
theorem toList_name (name : Identifier) : ∃ c cs, name.text.toList = c :: cs ∧
    isWordStart c = true ∧ ∀ c ∈ cs, isWordChar c = true := by
  have hvalid := name.valid
  rw [isIdentifier, Bool.and_eq_true] at hvalid
  have hchars := hvalid.1
  cases hlist : name.text.toList with
  | nil =>
    rw [hlist] at hchars
    cases hchars
  | cons c cs =>
    rw [hlist] at hchars
    have hchars : (isWordStart c && cs.all isWordChar) = true := hchars
    rw [Bool.and_eq_true, List.all_eq_true] at hchars
    exact ⟨c, cs, rfl, hchars⟩

/-- The name of a parameter is no word that stands for a value. -/
@[simp] theorem ofWord_name (name : Identifier) : ofWord name.text = var name.text := by
  have hvalid := name.valid
  rw [isIdentifier, Bool.and_eq_true] at hvalid
  have hkeyword := hvalid.2
  simp [isKeyword] at hkeyword
  simp [ofWord, hkeyword]

/-- The name of a parameter is the operand that stands for it. -/
theorem writes_name (name : Identifier) :
    Writes name.text.toList (.operand (var name.text)) := by
  obtain ⟨c, cs, hlist, hc, hcs⟩ := toList_name name
  have hwrites := writes_word hc hcs
  rwa [← hlist, String.ofList_toList, ofWord_name] at hwrites

/-! ## Trees -/

/-- The text of a literal does not start with an equality sign, and only that of a number can start
with a digit. -/
theorem chars_value_eq_cons {v : Value} (h : v.IsWritable) :
    ∃ c cs, v.chars = c :: cs ∧ c ≠ '=' ∧ (v.isNumeric = false → c.isDigit = false) := by
  have hdigit : ∀ {c : Char}, c.isDigit = true → c ≠ '=' := by
    intro c hc heq
    rw [heq] at hc
    cases hc
  cases v with
  | none | string s => exact ⟨_, _, rfl, by decide, fun _ => by decide⟩
  | bool b => cases b <;> exact ⟨_, _, rfl, by decide, fun _ => by decide⟩
  | int n =>
    show ∃ c cs, Layout.intChars n.toInt = c :: cs ∧ _
    rw [Layout.intChars]
    split
    · exact ⟨_, _, rfl, by decide, fun hnumber => by cases hnumber⟩
    · obtain ⟨c, cs, hcs, hc⟩ := Layout.natChars_eq_cons n.toInt.natAbs
      exact ⟨c, cs, hcs, hdigit hc, fun hnumber => by cases hnumber⟩
  | float x =>
    obtain ⟨negative, n, hn, -, hchars, -⟩ := Layout.exists_signed_numeral h
    show ∃ c cs, Layout.literal.chars x.toFloat = c :: cs ∧ _
    rw [hchars]
    cases negative with
    | true => exact ⟨_, _, rfl, by decide, fun hnumber => by cases hnumber⟩
    | false =>
      obtain ⟨c, cs, hcs, hc⟩ := hn.isText.eq_cons
      exact ⟨c, cs, hcs, hdigit hc, fun hnumber => by cases hnumber⟩
  | object key => exact h.elim
  | inactive => exact h.elim

/-- The text of an operand does not start with an equality sign, and only that of a number can start
with a digit. -/
theorem chars_eq_cons {e : Expr Parameter} (hlevel : 7 ≤ e.kind.precedence)
    (he : ∀ v ∈ e.literals, v.IsWritable) :
    ∃ c cs, e.chars (·.name.text.toList) = c :: cs ∧ c ≠ '=' ∧
      (e.isNumber = false → c.isDigit = false) := by
  cases e with
  | literal v => exact chars_value_eq_cons (he v (List.mem_singleton_self v))
  | var p =>
    obtain ⟨c, cs, hlist, hc, -⟩ := toList_name p.name
    refine ⟨c, cs, hlist, ?_, fun _ => (Token.isWordChar_of_isWordStart hc).2⟩
    rintro rfl
    cases hc
  | binary op left right => exact absurd hlevel (Nat.not_le.2 (precedence_lt op))
  | unary op operand =>
    cases op <;> exact ⟨_, _, rfl, by decide, fun _ => by decide⟩
  | list items => exact ⟨_, _, rfl, by decide, fun _ => by decide⟩

/-- The text of an expression denotes it on every level up to its precedence, and as an operand where
it is one. -/
structure Printed (e : Expr Parameter) : Prop where
  level : ∀ least ≤ e.kind.precedence,
    Writes (e.chars (·.name.text.toList)) (.level least (e.rename (·.name.text)))
  operand : 7 ≤ e.kind.precedence →
    Writes (e.chars (·.name.text.toList)) (.operand (e.rename (·.name.text)))

/-- What is an operand is an expression of any level. -/
theorem printed_of_operand {e : Expr Parameter}
    (h : Writes (e.chars (·.name.text.toList)) (.operand (e.rename (·.name.text)))) : Printed e :=
  ⟨fun least _ => h.ofOperand least, fun _ => h⟩

/-- In parentheses, every expression is one of any level. -/
theorem Printed.parenthesize {e : Expr Parameter} (h : Printed e) {parens : Bool} {least : Nat}
    (hleast : parens = false → least ≤ e.kind.precedence) :
    Writes (Expr.parenthesize parens (e.chars (·.name.text.toList)))
      (.level least (e.rename (·.name.text))) := by
  cases parens with
  | true => exact (h.level 0 (Nat.zero_le _)).parens.ofOperand least
  | false => exact h.level least (hleast rfl)

/-- The text of an operator between two operands. -/
theorem Printed.binary {op : BinaryOp} {left right : Expr Parameter} (hl : Printed left)
    (hr : Printed right) : Printed (.binary op left right) := by
  refine ⟨fun least hleast => ?_, fun hlevel => ?_⟩
  · refine .binary hleast (hl.parenthesize fun hparens => ?_) (hr.parenthesize fun hparens => ?_)
    · exact Nat.not_lt.1 (of_decide_eq_false hparens)
    · exact Nat.not_le.1 (of_decide_eq_false hparens)
  · exact absurd hlevel (Nat.not_le.2 (precedence_lt op))

/-- The text of a sign or a negation before an operand. -/
theorem Printed.unary {op : UnaryOp} {operand : Expr Parameter} (h : Printed operand)
    (he : ∀ v ∈ operand.literals, v.IsWritable) : Printed (.unary op operand) := by
  refine printed_of_operand ?_
  rw [chars]
  cases hparens : operandNeedsParens op operand with
  | true => exact .unary op (h.level 0 (Nat.zero_le _)).parens (by decide) fun _ => by decide
  | false =>
    rw [operandNeedsParens, Bool.or_eq_false_iff] at hparens
    have hlevel : 7 ≤ operand.kind.precedence := Nat.not_lt.1 (of_decide_eq_false hparens.2)
    have hwrites := h.operand hlevel
    obtain ⟨c, cs, hcs, hequal, hdigit⟩ := chars_eq_cons hlevel he
    rw [Expr.parenthesize, if_neg Bool.false_ne_true]
    rw [hcs] at hwrites ⊢
    refine .unary op hwrites hequal fun hop => hdigit ?_
    simpa [hop] using hparens.1

mutual
/-- The text of every expression whose literals can be written denotes it. -/
theorem printed : ∀ (e : Expr Parameter), (∀ v ∈ e.literals, v.IsWritable) → Printed e
  | literal v, he => printed_of_operand (writes_literal (he v (List.mem_singleton_self v)))
  | var p, _ => printed_of_operand (writes_name p.name)
  | binary _ left right, he =>
    have hleft := printed left fun v hv => he v (List.mem_append_left _ hv)
    have hright := printed right fun v hv => he v (List.mem_append_right _ hv)
    hleft.binary hright
  | unary _ operand, he => (printed operand he).unary he
  | list [], _ => printed_of_operand writes_emptyList
  | list (e :: es), he => printed_of_operand (writes_items (e :: es) (List.cons_ne_nil e es) he).list

/-- The texts of the items of a list denote them. -/
theorem writes_items : ∀ (es : List (Expr Parameter)), es ≠ [] →
    (∀ v ∈ literalsAll es, v.IsWritable) →
    Writes (charsAll (·.name.text.toList) es ++ [']']) (.items (renameAll (·.name.text) es))
  | [], hne, _ => absurd rfl hne
  | [e], _, he => by
    have h := printed e fun v hv => he v (List.mem_append_left _ hv)
    exact (h.level 0 (Nat.zero_le _)).last
  | e :: e' :: es, _, he => by
    have h := printed e fun v hv => he v (List.mem_append_left _ hv)
    have h' := writes_items (e' :: es) (List.cons_ne_nil e' es) fun v hv =>
      he v (List.mem_append_right _ hv)
    show Writes (_ ++ ',' :: ' ' :: charsAll _ (e' :: es) ++ [']']) _
    rw [List.append_assoc]
    exact (h.level 0 (Nat.zero_le _)).more h'.blank
end

end Expr

end SearchSpace
