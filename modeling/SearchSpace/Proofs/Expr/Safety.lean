import SearchSpace.Proofs.Expr.Reads
import SearchSpace.Proofs.Expr.Resolution

/-!
# Evaluation after the check

The check of an expression looks at no values, and the values of a row may be anything. What the
check and the constructors do rule out are the faults of the expression itself: a list out of place,
a variable from elsewhere, a mark of inactivity among the literals. `eval_of_check` says that nothing
is left then but a value that does not fit an operator and a variable that is inactive.
-/

namespace SearchSpace.Expr

/-! ## Computing with values -/

/-- The error of a value that an operator has no use for. -/
def IsInvalidValue (e : Error) : Prop :=
  ∃ fault, e = .invalidValue fault

/-- A value that is no mark of inactivity. -/
def IsActive (v : Value) : Prop :=
  v ≠ .inactive

/-- A value is a truth value or invalid. -/
theorem lands_expectBool (v : Value) : Lands (fun _ => True) IsInvalidValue (expectBool v) := by
  rw [expectBool]
  split
  · trivial
  · exact ⟨_, rfl⟩

/-- An operator of one operand gives a value or finds the operand invalid. -/
theorem lands_evalUnary (op : UnaryOp) (v : Value) :
    Lands IsActive IsInvalidValue (evalUnary op v) := by
  unfold evalUnary
  split
  case h_3 =>
    split
    · exact fun h => nomatch h
    · exact ⟨_, rfl⟩
  case h_6 => exact ⟨_, rfl⟩
  all_goals exact fun h => nomatch h

/-- An arithmetic operator gives a value or finds an operand invalid. -/
theorem lands_evalArithmetic (op : BinaryOp) (l r : Value) :
    Lands IsActive IsInvalidValue (evalArithmetic op l r) := by
  unfold evalArithmetic
  split
  · split_ifs
    · exact ⟨_, rfl⟩
    · split
      · exact fun h => nomatch h
      · exact ⟨_, rfl⟩
  · split
    · split_ifs
      · exact ⟨_, rfl⟩
      · exact fun h => nomatch h
    · exact ⟨_, rfl⟩

/-- Two values are equal, or different, or cannot be compared. -/
theorem lands_equals (v w : Value) : Lands (fun _ => True) IsInvalidValue (v.equals w) := by
  unfold Value.equals
  split
  case h_7 =>
    split
    · trivial
    · exact ⟨_, rfl⟩
  all_goals trivial

/-- Two values have an order or cannot be ordered. -/
theorem lands_compare (v w : Value) : Lands (fun _ => True) IsInvalidValue (v.compare w) := by
  unfold Value.compare
  split
  · trivial
  · trivial
  · split
    · rw [Value.compareFloats]
      split_ifs
      · trivial
      · trivial
      · trivial
      · exact ⟨_, rfl⟩
    · exact ⟨_, rfl⟩

/-- A value has a place among those of a parameter, or is not one of them. -/
theorem lands_placeOf (p : Parameter) (v : Value) :
    Lands (fun _ => True) IsInvalidValue (placeOf p v) := by
  rw [placeOf]
  split
  · trivial
  · exact ⟨_, rfl⟩

/-- Two operands are equal, or different, or cannot be compared. -/
theorem lands_equalValues (left right : Expr Parameter) (l r : Value) :
    Lands (fun _ => True) IsInvalidValue (equalValues left right l r) := by
  rw [equalValues]
  split
  · next p _ => exact (lands_placeOf p l).bind fun _ _ => (lands_placeOf p r).bind fun _ _ => trivial
  · exact lands_equals l r

/-- Two operands have an order or cannot be ordered. The order that a parameter declares is asked for
only where it declares one. -/
theorem lands_orderValues (left right : Expr Parameter) (l r : Value) :
    Lands (fun _ => True) IsInvalidValue (orderValues left right l r) := by
  rw [orderValues]
  split
  · next p _ =>
    split
    · exact ⟨_, rfl⟩
    · next hordinal =>
      simp only [Parameter.compareValues, hordinal]
      refine Lands.bind (P := fun _ => True) ?_ fun _ _ =>
        Lands.bind (P := fun _ => True) ?_ fun _ _ => trivial
      all_goals
        split
        · trivial
        · exact ⟨_, rfl⟩
    · exact lands_compare l r
  · exact lands_compare l r

/-! ## Operators -/

section
variable {Q : Error → Prop} (hQ : ∀ e, IsInvalidValue e → Q e)
include hQ

/-- What goes wrong with values goes wrong in an expression. -/
theorem lands_of_values {α : Type} {P : α → Prop} {x : Except Error α}
    (h : Lands P IsInvalidValue x) : Lands P Q x :=
  h.imp (fun _ => id) hQ

/-- One side of `||` is a truth value or inactive, if its evaluation lands. -/
theorem lands_orSide {x : Except Error Value} (h : Lands IsActive Q x) :
    Lands (fun _ => True) Q (orSide x) := by
  cases x with
  | ok v => exact (lands_of_values hQ (lands_expectBool v)).bind fun _ _ => trivial
  | error e =>
    rw [orSide]
    split
    · trivial
    · exact h

/-- A disjunction lands if both sides do. -/
theorem lands_evalOr {l r : Except Error Value} (hl : Lands IsActive Q l)
    (hr : Lands IsActive Q r) : Lands IsActive Q (evalOr l r) := by
  refine (lands_orSide hQ hl).bind fun x _ => (lands_orSide hQ hr).bind fun y _ => ?_
  split
  · -- with both sides inactive the outcome is that of the left one
    exact hl
  · exact fun h => nomatch h

/-- A conjunction lands if both sides do. -/
theorem lands_evalAnd {b : Binding} {left right : Expr Parameter}
    (hl : Lands IsActive Q (left.eval b)) (hr : Lands IsActive Q (right.eval b)) :
    Lands IsActive Q ((binary .and left right).eval b) := by
  refine hl.bind fun l _ => (lands_of_values hQ (lands_expectBool l)).bind fun _ _ => ?_
  refine hr.bind fun r _ => (lands_of_values hQ (lands_expectBool r)).bind fun _ _ => ?_
  exact fun h => nomatch h

/-- An operator that is neither logical nor `#` lands if both operands do. -/
theorem lands_binary {b : Binding} {op : BinaryOp} {left right : Expr Parameter} (hor : op ≠ .or)
    (hand : op ≠ .and) (hmember : op ≠ .member) (hl : Lands IsActive Q (left.eval b))
    (hr : Lands IsActive Q (right.eval b)) : Lands IsActive Q ((binary op left right).eval b) := by
  rw [eval_binary hor hand hmember]
  refine hl.bind fun l _ => hr.bind fun r _ => ?_
  have hequal := lands_of_values hQ (lands_equalValues left right l r)
  have horder := lands_of_values hQ (lands_orderValues left right l r)
  split_ifs
  · exact hequal.bind fun _ _ h => nomatch h
  · exact hequal.bind fun _ _ h => nomatch h
  · exact horder.bind fun _ _ h => nomatch h
  · exact lands_of_values hQ (lands_evalArithmetic op l r)

end

/-! ## Variables -/

/-- What may go wrong in the evaluation of an expression with some variables: a value is invalid, or
one of the variables is inactive. -/
def IsExpected (b : Binding) (vars : List Parameter) (e : Error) : Prop :=
  IsInvalidValue e ∨ ∃ p ∈ vars, e = .inactiveParameter p.name.text ∧ b.valueOf p = .ok .inactive

variable {b : Binding} {vars vars' : List Parameter}

/-- An invalid value may go wrong whatever the variables are. -/
theorem expected_of_invalid : ∀ e, IsInvalidValue e → IsExpected b vars e :=
  fun _ => .inl

/-- What may go wrong with some variables may go wrong with more. -/
theorem lands_of_subset {α : Type} {P : α → Prop} {x : Except Error α} (hsub : vars ⊆ vars')
    (h : Lands P (IsExpected b vars) x) : Lands P (IsExpected b vars') x :=
  h.imp (fun _ => id) fun _ he => he.imp_right fun ⟨p, hp, hinactive⟩ => ⟨p, hsub hp, hinactive⟩

/-- A variable of the scope has the value of the row at its place, or is inactive. -/
theorem lands_evalVar {scope : Scope} {row : List Value} (hrow : row.length = scope.size)
    {p : Parameter} (hp : (scope.indexOf? p).isSome = true) :
    Lands IsActive (IsExpected ⟨scope, row⟩ [p]) (evalVar ⟨scope, row⟩ p) := by
  obtain ⟨i, hi⟩ := Option.isSome_iff_exists.1 hp
  have hlt : i < row.length := hrow ▸ (List.findIdx?_eq_some_iff_getElem.1 hi).1
  have hvalue : Binding.value ⟨scope, row⟩ i = .ok row[i] := by
    rw [Binding.value, List.getElem?_eq_getElem hlt]
  have hbound : Binding.valueOf ⟨scope, row⟩ p = .ok row[i] := by
    simp only [Binding.valueOf, hi, hvalue]
  simp only [evalVar, hi, hvalue]
  refine Lands.bind (P := fun v => v = row[i]) rfl fun v hv => ?_
  split
  · exact .inr ⟨p, List.mem_singleton_self p, rfl, hv ▸ hbound⟩
  · next hactive => exact hactive

/-! ## Trees -/

mutual
/-- An expression that is no list, and that the constructors make and the check accepts, gives a
value, or finds one invalid, or has an inactive variable. -/
theorem lands_eval {scope : Scope} {row : List Value} (hrow : row.length = scope.size) :
    ∀ (e : Expr Parameter), (∀ node ∈ e.subtrees, node.PlacesLists ∧ node.HasMembers) →
      e.isList = false → e.check scope = .ok () →
      Lands IsActive (IsExpected ⟨scope, row⟩ e.vars) (e.eval ⟨scope, row⟩)
  | literal v, _, _, hcheck => by
    cases v with
    | inactive => cases hcheck
    | _ => exact fun h => nomatch h
  | var p, _, _, hcheck => lands_evalVar hrow (isSome_of_checkNode hcheck)
  | list items, _, hlist, _ => nomatch hlist
  | unary op operand, hplaces, _, hcheck => by
    rw [subtrees, List.forall_mem_cons] at hplaces
    obtain ⟨_, -, hcheck⟩ := bind_eq_ok.1 hcheck
    refine (lands_eval hrow operand hplaces.2 hplaces.1.1 hcheck).bind fun v _ => ?_
    exact lands_of_values expected_of_invalid (lands_evalUnary op v)
  | binary op left right, hplaces, _, hcheck => by
    rw [subtrees, List.forall_mem_cons, List.forall_mem_append] at hplaces
    obtain ⟨⟨⟨hleftList, hmember⟩, hmembers⟩, hleftPlaces, hrightPlaces⟩ := hplaces
    obtain ⟨_, -, hcheck⟩ := bind_eq_ok.1 hcheck
    obtain ⟨_, hleftCheck, hrightCheck⟩ := bind_eq_ok.1 hcheck
    have hleft := lands_of_subset (List.subset_append_left left.vars right.vars)
      (lands_eval hrow left hleftPlaces hleftList hleftCheck)
    by_cases hop : op = .member
    · subst hop
      cases right with
      | list items =>
        rw [subtrees, List.forall_mem_cons] at hrightPlaces
        obtain ⟨_, -, hrightCheck⟩ := bind_eq_ok.1 hrightCheck
        refine hleft.bind fun v _ => ?_
        have hitems := lands_of_subset (List.subset_append_right left.vars (varsAll items))
          (lands_evalMember hrow v items hrightPlaces.2 hrightPlaces.1.1 hrightCheck)
        exact hitems.bind fun _ _ h => nomatch h
      | _ => cases hmembers rfl
    -- elsewhere than on the right of `#` there is no list
    have hrightList : right.isList = false := Bool.eq_false_iff.2 (mt hmember hop)
    have hright := lands_of_subset (List.subset_append_right left.vars right.vars)
      (lands_eval hrow right hrightPlaces hrightList hrightCheck)
    by_cases hor : op = .or
    · subst hor
      exact lands_evalOr expected_of_invalid hleft hright
    by_cases hand : op = .and
    · subst hand
      exact lands_evalAnd expected_of_invalid hleft hright
    exact lands_binary expected_of_invalid hor hand hop hleft hright

/-- Whether a value is that of one of some items is found out, or the evaluation of an item goes
wrong in an expected way. -/
theorem lands_evalMember {scope : Scope} {row : List Value} (hrow : row.length = scope.size)
    (v : Value) : ∀ (es : List (Expr Parameter)),
      (∀ node ∈ subtreesAll es, node.PlacesLists ∧ node.HasMembers) →
      (∀ e ∈ es, e.isList = false) → checkAll scope es = .ok () →
      Lands (fun _ => True) (IsExpected ⟨scope, row⟩ (varsAll es)) (evalMember ⟨scope, row⟩ v es)
  | [], _, _, _ => trivial
  | e :: es, hplaces, hlists, hcheck => by
    rw [subtreesAll, List.forall_mem_append] at hplaces
    obtain ⟨hlist, hlists⟩ := List.forall_mem_cons.1 hlists
    obtain ⟨_, hcheck, hchecks⟩ := bind_eq_ok.1 hcheck
    have hitem := lands_of_subset (List.subset_append_left e.vars (varsAll es))
      (lands_eval hrow e hplaces.1 hlist hcheck)
    have hitems := lands_of_subset (List.subset_append_right e.vars (varsAll es))
      (lands_evalMember hrow v es hplaces.2 hlists hchecks)
    refine hitem.bind fun w _ => ?_
    split
    · trivial
    · exact hitems
end

/-- An expression that is no list, and is read from a text or made by the constructors, and that the
check accepts in a scope, has on every row with a value for each parameter a value that is no mark
of inactivity, or finds a value invalid, or reads a variable to which the row gives the mark. -/
theorem eval_of_check {scope : Scope} {e : Expr Parameter}
    (hmade : e.Made ∨ ∃ context text, read context text = .ok e) (hlist : e.isList = false)
    (hcheck : e.check scope = .ok ()) {row : List Value} (hrow : row.length = scope.size) :
    (∃ v, e.eval ⟨scope, row⟩ = .ok v ∧ v ≠ .inactive) ∨
      (∃ fault, e.eval ⟨scope, row⟩ = .error (.invalidValue fault)) ∨
      ∃ p ∈ e.vars, e.eval ⟨scope, row⟩ = .error (.inactiveParameter p.name.text) ∧
        Binding.valueOf ⟨scope, row⟩ p = .ok .inactive := by
  have hmade' : e.Made := hmade.elim id fun ⟨_, _, hread⟩ => made_of_read hread
  have hlands := lands_eval hrow e hmade'.places hlist hcheck
  cases heval : e.eval ⟨scope, row⟩ with
  | ok v =>
    rw [heval] at hlands
    exact .inl ⟨v, rfl, hlands⟩
  | error err =>
    rw [heval] at hlands
    rcases hlands with ⟨fault, rfl⟩ | ⟨p, hp, rfl, hinactive⟩
    · exact .inr (.inl ⟨fault, rfl⟩)
    · exact .inr (.inr ⟨p, hp, rfl, hinactive⟩)

/-- The condition on a row in which its second parameter is inactive. -/
theorem eval_of_check_condition :
    (condition.Made ∨ ∃ context text, read context text = .ok condition) ∧
      condition.isList = false ∧ condition.check ranges = .ok () ∧
      [Value.int 7, .inactive].length = ranges.size ∧
      ((∃ v, condition.eval ⟨ranges, [.int 7, .inactive]⟩ = .ok v ∧ v ≠ .inactive) ∨
        (∃ fault, condition.eval ⟨ranges, [.int 7, .inactive]⟩ = .error (.invalidValue fault)) ∨
        ∃ p ∈ condition.vars,
          condition.eval ⟨ranges, [.int 7, .inactive]⟩ = .error (.inactiveParameter p.name.text) ∧
          Binding.valueOf ⟨ranges, [.int 7, .inactive]⟩ p = .ok .inactive) :=
  ⟨.inl made_condition, rfl, rfl, rfl, eval_of_check (.inl made_condition) rfl rfl rfl⟩

end SearchSpace.Expr
