import SearchSpace.Proofs.Space.Fixpoint

/-!
# The check and activation

The check of a vector derives activity anew, on the vector as it is given, and stops at the first
thing wrong; activation rewrites the vector as it goes. `Space.Reachable.isValid_iff` says that both
agree: nothing is wrong with a vector just if activation leaves it alone, the marks in it stand where
a condition wants them, the other values belong to their domains, and no clause holds.
-/

namespace SearchSpace

variable {scope : Scope} {conditions : Conditions} {v w : List Value}

/-! ## Clauses -/

/-- A clause does not hold if it is unmet. -/
theorem clauseHolds_eq_false {clause : Expr Parameter} :
    clauseHolds scope clause v = .ok false ↔ IsUnmet (clause.eval ⟨scope, v⟩) := by
  unfold clauseHolds IsUnmet
  split
  · next b heval => simp [heval]
  · next x hx heval => simpa [heval] using hx false
  · next e heval => cases e <;> simp [heval, Error.isInactive]

/-- None of some clauses holds just if all are unmet. -/
theorem holdingClause?_eq_none {clauses : List (Expr Parameter)} :
    holdingClause? scope clauses v = .ok none ↔
      ∀ clause ∈ clauses, IsUnmet (clause.eval ⟨scope, v⟩) := by
  induction clauses with
  | nil => simp [holdingClause?]
  | cons clause clauses ih =>
    rw [List.forall_mem_cons, ← ih, ← clauseHolds_eq_false, holdingClause?, bind_eq_ok]
    constructor
    · rintro ⟨holds, hholds, h⟩
      cases holds with
      | true => cases h
      | false => exact ⟨hholds, h⟩
    · rintro ⟨hholds, h⟩
      exact ⟨false, hholds, h⟩

namespace Space

variable {t : Space}

/-! ## Values -/

/-- A vector is valid just if nothing is wrong with its length, its values and the clauses. -/
theorem isValid_eq_true_iff : t.isValid v = .ok true ↔ v.length = t.scope.size ∧
    t.firstViolation? v t.graph.order = .ok none ∧
      ∀ clause ∈ t.clauses, IsUnmet (clause.eval ⟨t.scope, v⟩) := by
  rw [← holdingClause?_eq_none, isValid, bind_eq_ok]
  constructor
  · rintro ⟨violation, hviolation, hnone⟩
    cases violation with
    | some violation => cases hnone
    | none =>
      rw [violation?] at hviolation
      split at hviolation
      · cases hviolation
      · next hlength =>
        obtain ⟨first, hfirst, hviolation⟩ := bind_eq_ok.1 hviolation
        cases first with
        | some violation => cases hviolation
        | none =>
          obtain ⟨clause, hclause, hviolation⟩ := bind_eq_ok.1 hviolation
          cases clause with
          | some clause => cases hviolation
          | none => exact ⟨Decidable.not_not.1 hlength, hfirst, hclause⟩
  · rintro ⟨hlength, hfirst, hclause⟩
    refine ⟨none, ?_, rfl⟩
    rw [violation?, if_neg (Decidable.not_not.2 hlength), hfirst]
    simp only [hclause]
    rfl

/-- Nothing is wrong with a value just if it is a mark where the parameter is inactive, is no mark
where it is active, and belongs to the domain if it is no mark. -/
theorem exists_active_iff {i : Nat} {p : Parameter} {x : Value} :
    (∃ active, isActive scope conditions i v = .ok active ∧
        valueViolation? p active x = none) ↔
      (∃ active, isActive scope conditions i v = .ok active ∧ (active = false → x = .inactive)) ∧
        (x = .inactive → ∃ c, conditions.at? i = some c ∧
          c.eval ⟨scope, v⟩ ≠ .ok (.bool true)) ∧
        (x ≠ .inactive → p.domain.admits x = true) := by
  simp only [valueViolation?_eq_none]
  constructor
  · rintro ⟨active, hactive, hx⟩
    cases active with
    | true =>
      have hne : x ≠ .inactive := by
        rintro rfl
        simp at hx
      exact ⟨⟨true, hactive, by simp⟩, fun h => absurd h hne, fun _ => hx⟩
    | false =>
      obtain ⟨c, hc, hunmet⟩ := isActive_eq_false.1 hactive
      refine ⟨⟨false, hactive, fun _ => hx⟩, fun _ => ⟨c, hc, fun htrue => ?_⟩,
        fun hne => absurd hx hne⟩
      rcases hunmet with hfalse | ⟨name, herror⟩
      · cases htrue.symm.trans hfalse
      · cases htrue.symm.trans herror
  · rintro ⟨⟨active, hactive, hmark⟩, hcondition, hdomain⟩
    refine ⟨active, hactive, ?_⟩
    cases active with
    | true =>
      refine hdomain fun hx => ?_
      obtain ⟨c, hc, hfalse⟩ := hcondition hx
      exact hfalse (isActive_eq_true.1 hactive c hc)
    | false => exact hmark rfl

/-- Nothing is wrong with the values of a vector just if activation leaves it alone, a mark stands
only where there is a condition that is not true, and the other values belong to their domains. -/
theorem Consistent.firstViolation?_eq_none_iff (ht : t.Consistent) (hv : v.length = t.scope.size) :
    t.firstViolation? v t.graph.order = .ok none ↔ t.setActives v = .ok v ∧
      (∀ i : Nat, v[i]? = some .inactive →
        ∃ c, t.conditions.at? i = some c ∧ c.eval ⟨t.scope, v⟩ ≠ .ok (.bool true)) ∧
      ∀ (i : Nat) (p : Parameter) (x : Value), t.scope.parameters[i]? = some p → v[i]? = some x →
        x ≠ .inactive → p.domain.admits x = true := by
  obtain ⟨hsize, htopological⟩ := DependencyGraph.isTopological_of_ofConditions ht.graph
  have horder : ∀ i, i ∈ t.graph.order ↔ i < v.length := by
    intro i
    rw [htopological.perm.mem_iff, List.mem_range, hsize, ht.length_conditions, hv]
  have hparameter : ∀ i < v.length, ∃ p, t.scope.parameters[i]? = some p := fun i hi =>
    ⟨_, List.getElem?_eq_getElem (lt_of_lt_of_eq hi hv)⟩
  rw [ht.setActives_eq_ok_iff hv, ← settled_iff_isActivation horder, firstViolation?_eq_none]
  constructor
  · intro h
    have hvalue : ∀ i p x, t.scope.parameters[i]? = some p → v[i]? = some x → _ :=
      fun i p x hp hx => exists_active_iff.1
        ((h i ((horder i).2 (List.getElem?_eq_some_iff.1 hx).1)).imp fun active hactive =>
          ⟨hactive.1, hactive.2 p x hp hx⟩)
    refine ⟨⟨rfl, fun _ _ => rfl, fun i hi => ?_⟩, fun i hmark => ?_, fun i p x hp hx =>
      (hvalue i p x hp hx).2.2⟩
    · have hlt := (horder i).1 hi
      obtain ⟨p, hp⟩ := hparameter i hlt
      obtain ⟨⟨active, hactive, hmark⟩, -, -⟩ :=
        hvalue i p _ hp (List.getElem?_eq_getElem hlt)
      refine ⟨active, hactive, ?_⟩
      cases active with
      | true => rfl
      | false => rw [List.getElem?_eq_getElem hlt, hmark rfl]; rfl
    · obtain ⟨p, hp⟩ := hparameter i (List.getElem?_eq_some_iff.1 hmark).1
      exact (hvalue i p _ hp hmark).2.1 rfl
  · rintro ⟨hsettled, hmarks, hdomains⟩ i hi
    obtain ⟨active, hactive, hsame⟩ := hsettled.activity i hi
    refine ⟨active, hactive, fun p x hp hx => ?_⟩
    have hmark : active = false → x = .inactive := by
      rintro rfl
      rw [hx] at hsame
      exact Option.some.inj hsame
    obtain ⟨active', hactive', hx'⟩ := exists_active_iff.2 ⟨⟨active, hactive, hmark⟩,
      fun hinactive => hmarks i (hinactive ▸ hx), hdomains i p x hp hx⟩
    cases hactive.symm.trans hactive'
    exact hx'

/-- In every state of a space, a vector passes the check just if it has one value for each
parameter, marking the inactive parameters leaves it as it is, a mark stands only where there is a
condition that is not true, the other values belong to their domains, and no clause holds. -/
theorem Reachable.isValid_iff (ht : t.Reachable) (v : List Value) :
    t.isValid v = .ok true ↔ v.length = t.scope.size ∧ t.setActives v = .ok v ∧
      (∀ i : Nat, v[i]? = some .inactive →
        ∃ c, t.conditions.at? i = some c ∧ c.eval ⟨t.scope, v⟩ ≠ .ok (.bool true)) ∧
      (∀ (i : Nat) (p : Parameter) (x : Value), t.scope.parameters[i]? = some p → v[i]? = some x →
        x ≠ .inactive → p.domain.admits x = true) ∧
      ∀ clause ∈ t.clauses, IsUnmet (clause.eval ⟨t.scope, v⟩) := by
  rw [isValid_eq_true_iff]
  refine and_congr_right fun hv => ?_
  rw [ht.consistent.firstViolation?_eq_none_iff hv, and_assoc, and_assoc]

/-- In the space with a condition and a clause, a vector with a mark where `width` is large, on which
the clause reads the inactive `depth`. -/
theorem isValid_iff_bounded :
    ∃ t : Space, t.Reachable ∧ t.isValid [.int 7, .inactive] = .ok true ∧
      (t.isValid [.int 7, .inactive] = .ok true ↔ [Value.int 7, .inactive].length = t.scope.size ∧
        t.setActives [.int 7, .inactive] = .ok [.int 7, .inactive] ∧
        (∀ i : Nat, [Value.int 7, .inactive][i]? = some .inactive →
          ∃ c, t.conditions.at? i = some c ∧
            c.eval ⟨t.scope, [.int 7, .inactive]⟩ ≠ .ok (.bool true)) ∧
        (∀ (i : Nat) (p : Parameter) (x : Value), t.scope.parameters[i]? = some p →
          [Value.int 7, .inactive][i]? = some x → x ≠ .inactive → p.domain.admits x = true) ∧
        ∀ clause ∈ t.clauses, IsUnmet (clause.eval ⟨t.scope, [.int 7, .inactive]⟩)) := by
  have hruns : (build 0 bounded).toOption.any (fun t =>
      (t.isValid [.int 7, .inactive]).toOption.any fun valid => valid) = true := by
    decide +kernel
  obtain ⟨t, ht, hruns⟩ := exists_ok_of_any hruns
  obtain ⟨valid, hvalid, heq⟩ := exists_ok_of_any hruns
  have hreachable : t.Reachable := ⟨0, bounded, t, [], ht, rfl⟩
  exact ⟨t, hreachable, heq ▸ hvalid, hreachable.isValid_iff [.int 7, .inactive]⟩

end Space

end SearchSpace
