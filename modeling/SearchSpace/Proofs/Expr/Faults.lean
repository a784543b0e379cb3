import SearchSpace.Proofs.Expr.Safety

/-!
# How an evaluation fails

The check rules out some of the faults of an expression (`Expr.eval_of_check`). Without it any of
them may be found by the evaluation, but no others than these: a value or an expression is invalid, a
variable is inactive, or the vector is too short to have a value for one (`Expr.lands_fault`).
-/

namespace SearchSpace.Expr

/-- The errors of an evaluation. -/
def IsFault : Error → Prop
  | .invalidValue _ | .invalidExpression _ | .inactiveParameter _ | .outOfBounds _ _ => True
  | _ => False

/-- An invalid value is one of them. -/
theorem fault_of_invalid : ∀ e, IsInvalidValue e → IsFault e := by
  rintro _ ⟨fault, rfl⟩
  trivial

variable {b : Binding}

/-- A variable has a value, or its parameter is unbound, inactive or without one. -/
theorem lands_fault_var (p : Parameter) : Lands IsActive IsFault (evalVar b p) := by
  unfold evalVar
  split
  · trivial
  · refine Lands.bind (P := fun _ => True) ?_ fun v _ => ?_
    · rw [Binding.value]
      split <;> trivial
    · split
      · trivial
      · next hactive => exact hactive

mutual
/-- An expression has a value or fails with one of the errors. -/
theorem lands_fault : ∀ e : Expr Parameter, Lands IsActive IsFault (e.eval b)
  | literal v => by
    cases v with
    | inactive => trivial
    | _ => exact fun h => nomatch h
  | var p => lands_fault_var p
  | list _ => trivial
  | unary op operand => by
    refine (lands_fault operand).bind fun v _ => ?_
    exact lands_of_values fault_of_invalid (lands_evalUnary op v)
  | binary op left right => by
    have hleft := lands_fault left
    have hright := lands_fault right
    by_cases hor : op = .or
    · subst hor
      exact lands_evalOr fault_of_invalid hleft hright
    by_cases hand : op = .and
    · subst hand
      exact lands_evalAnd fault_of_invalid hleft hright
    by_cases hmember : op = .member
    · subst hmember
      cases right with
      | list items =>
        refine hleft.bind fun v _ => (lands_fault_member v items).bind fun _ _ => ?_
        exact fun h => nomatch h
      | _ => trivial
    exact lands_binary fault_of_invalid hor hand hmember hleft hright

/-- The search for a value among those of some expressions ends or fails as one of them does. -/
theorem lands_fault_member (v : Value) :
    ∀ es : List (Expr Parameter), Lands (fun _ => True) IsFault (evalMember b v es)
  | [] => trivial
  | e :: es => by
    refine (lands_fault e).bind fun w _ => ?_
    split
    · trivial
    · exact lands_fault_member v es
end

end SearchSpace.Expr
