import SearchSpace.Expr.Eval
import SearchSpace.Expr.Check
import SearchSpace.Proofs.Outcome
import SearchSpace.Proofs.DependencyGraph.Ascending

/-!
# What an expression reads

The evaluation of an expression looks at a binding only through the variables of the expression
(`eval_congr`). In a scope in which `Expr.indices` gives the places of these, it looks only at the
values at these places (`eval_congr_of_indices`).
-/

namespace SearchSpace.Expr

variable {b b' : Binding}

/-- An operator that is neither logical nor `#` computes from the values of both operands. -/
theorem eval_binary {op : BinaryOp} {left right : Expr Parameter} (hor : op ≠ .or)
    (hand : op ≠ .and) (hmember : op ≠ .member) :
    (binary op left right).eval b = (do
      let l ← left.eval b
      let r ← right.eval b
      if op = .equal then pure (.bool (← equalValues left right l r))
      else if op = .notEqual then pure (.bool !(← equalValues left right l r))
      else if op.isOrdering then pure (.bool (holds op (← orderValues left right l r)))
      else evalArithmetic op l r) := by
  cases op with
  | or => exact absurd rfl hor
  | and => exact absurd rfl hand
  | member => exact absurd rfl hmember
  | _ => simp only [eval]

/-- A variable has the value of its parameter, if that is not the mark of inactivity. -/
theorem eval_var_of_valueOf {p : Parameter} {v : Value} (h : b.valueOf p = .ok v)
    (hactive : v ≠ .inactive) : (var p).eval b = .ok v := by
  rw [Binding.valueOf] at h
  rw [eval, evalVar]
  split at h
  · next i hi =>
    rw [hi]
    simp only [h]
    cases v with
    | inactive => exact absurd rfl hactive
    | none | bool b | int n | float x | string s | object key => rfl
  · cases h

mutual
/-- The value of an expression depends only on those of its variables. -/
theorem eval_congr : ∀ (e : Expr Parameter), (∀ p ∈ e.vars, evalVar b p = evalVar b' p) →
    e.eval b = e.eval b'
  | literal v, _ => by cases v <;> rfl
  | var p, h => h p (List.mem_singleton_self p)
  | list items, _ => rfl
  | unary op e, h => by
    have he := eval_congr e h
    simp only [eval, he]
  | binary op left right, h => by
    have hleft := eval_congr left fun p hp => h p (List.mem_append_left _ hp)
    have hright := eval_congr right fun p hp => h p (List.mem_append_right _ hp)
    by_cases hor : op = .or
    · subst hor
      simp only [eval, hleft, hright]
    by_cases hand : op = .and
    · subst hand
      simp only [eval, hleft, hright]
    by_cases hmember : op = .member
    · subst hmember
      cases right with
      | list items =>
        have hitems := fun v => evalMember_congr v items fun p hp =>
          h p (List.mem_append_right _ hp)
        simp only [eval, hleft, hitems]
      | _ => simp only [eval]
    rw [eval_binary hor hand hmember, eval_binary hor hand hmember, hleft, hright]

/-- Whether a value is that of one of some expressions depends only on the variables of these. -/
theorem evalMember_congr (v : Value) : ∀ (es : List (Expr Parameter)),
    (∀ p ∈ varsAll es, evalVar b p = evalVar b' p) → evalMember b v es = evalMember b' v es
  | [], _ => rfl
  | e :: es, h => by
    have he := eval_congr e fun p hp => h p (List.mem_append_left _ hp)
    have hes := evalMember_congr v es fun p hp => h p (List.mem_append_right _ hp)
    simp only [evalMember, he, hes]
end

/-- The places that an expression reads are those of its variables, ascending. -/
theorem indices_eq_ok {scope : Scope} {e : Expr Parameter} {places : List Nat} :
    e.indices scope = .ok places ↔ ∃ found,
      List.Forall₂ (fun p i => scope.indexOf? p = some i) e.vars found ∧
        DependencyGraph.ascending found = places := by
  simp only [indices, bind_eq_ok, mapM_eq_ok]
  refine exists_congr fun found => and_congr ⟨fun h => h.imp ?_, fun h => h.imp ?_⟩ ?_
  · intro p i hi
    cases hp : scope.indexOf? p with
    | none => rw [hp] at hi; cases hi
    | some j => rw [hp] at hi; cases hi; rfl
  · intro p i hi
    rw [hi]
  · exact ⟨fun h => Except.ok.inj h, fun h => congrArg Except.ok h⟩

/-- The variables of an expression are found in the scope, at the places that it reads. -/
theorem exists_mem_of_indices {scope : Scope} {e : Expr Parameter} {places : List Nat}
    (h : e.indices scope = .ok places) {p : Parameter} (hp : p ∈ e.vars) :
    ∃ i ∈ places, scope.indexOf? p = some i := by
  obtain ⟨found, hfound, rfl⟩ := indices_eq_ok.1 h
  obtain ⟨n, hn, rfl⟩ := List.getElem_of_mem hp
  have hlt : n < found.length := hfound.length_eq ▸ hn
  refine ⟨found[n], DependencyGraph.mem_ascending.2 (List.getElem_mem hlt), ?_⟩
  exact hfound.get hn hlt

/-- An expression has the same value on two vectors with the same values at the places that it
reads. -/
theorem eval_congr_of_indices {scope : Scope} {e : Expr Parameter} {places : List Nat}
    (h : e.indices scope = .ok places) {v w : List Value} (hlength : v.length = w.length)
    (hagree : ∀ i ∈ places, v[i]? = w[i]?) : e.eval ⟨scope, v⟩ = e.eval ⟨scope, w⟩ := by
  refine eval_congr e fun p hp => ?_
  obtain ⟨i, hi, hindex⟩ := exists_mem_of_indices h hp
  simp only [evalVar, hindex, Binding.value, hagree i hi, hlength]

end SearchSpace.Expr
