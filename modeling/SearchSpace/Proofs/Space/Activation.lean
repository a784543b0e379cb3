import SearchSpace.Space.Validity
import SearchSpace.Proofs.Parameter.Domain
import SearchSpace.Proofs.DependencyGraph.Order
import SearchSpace.Proofs.Expr.Reads

/-!
# What activation settles

A graph that is made from conditions has in its order the places that a condition reads before the
place of its parameter (`DependencyGraph.Follows`). Activation in such an order puts the mark of an
inactive parameter just where a condition does not hold, and what it leaves behind is judged in the
same way at the end as it was on the way (`activate_settles`): no value that a condition has read is
changed afterwards. So the check of a configuration, which looks at the final values only, finds
nothing wrong with admitted values after activation (`Space.firstViolation?_of_activate`).
-/

namespace SearchSpace

/-- The order of a graph is one of the places of some conditions, and what a condition reads comes
before the place of its parameter. -/
structure DependencyGraph.Follows (graph : DependencyGraph) (scope : Scope)
    (conditions : Conditions) : Prop where
  order_perm : graph.order.Perm (List.range conditions.length)
  parentsFirst : ParentsFirst graph.parents graph.order
  reads : ∀ i condition, conditions.at? i = some condition →
    ∃ places, condition.indices scope = .ok places ∧
      ∀ j ∈ places, j ∈ parentsIn graph.parents i

/-- The graph of some conditions follows them. -/
theorem DependencyGraph.follows_of_ofConditions {scope : Scope} {conditions : Conditions}
    {graph : DependencyGraph} (h : ofConditions scope conditions = .ok graph) :
    graph.Follows scope conditions := by
  obtain ⟨lists, hlists, hgraph⟩ := bind_eq_ok.1 h
  rw [mapM_eq_ok] at hlists
  obtain ⟨hparents, hperm, hfirst⟩ := ofParents_order hgraph
  refine ⟨hlists.length_eq ▸ hperm, hfirst, ?_⟩
  intro i condition hcondition
  obtain ⟨hi, heq⟩ : ∃ hi : i < conditions.length, conditions[i] = some condition := by
    rw [Conditions.at?, Option.join_eq_some_iff] at hcondition
    exact List.getElem?_eq_some_iff.1 hcondition
  have hlt : i < lists.length := hlists.length_eq ▸ hi
  have hread := hlists.get hi hlt
  simp only [List.get_eq_getElem, heq, parentsOf] at hread
  refine ⟨lists[i], hread, fun j hj => ?_⟩
  rw [hparents, parentsIn, List.getElem?_map, List.getElem?_eq_getElem hlt]
  exact mem_ascending.2 hj

/-! ## Activation -/

variable {scope : Scope} {conditions : Conditions} {order : List Nat} {v w : List Value}

/-- Whether a parameter is active depends only on the values that its condition reads. -/
theorem isActive_congr {i : Nat} (hlength : v.length = w.length)
    (h : ∀ condition, conditions.at? i = some condition →
      ∃ places, condition.indices scope = .ok places ∧ ∀ j ∈ places, v[j]? = w[j]?) :
    isActive scope conditions i v = isActive scope conditions i w := by
  unfold isActive
  cases hcondition : conditions.at? i with
  | none => rfl
  | some condition =>
    obtain ⟨places, hplaces, hagree⟩ := h condition hcondition
    simp only [conditionHolds, Expr.eval_congr_of_indices hplaces hlength hagree]

/-- A vector `w` has the values of `v`, except that the inactive parameters at the places of an
order are marked, where it is `w` itself that tells which ones are inactive. -/
structure Settled (scope : Scope) (conditions : Conditions) (order : List Nat)
    (v w : List Value) : Prop where
  length_eq : w.length = v.length
  unchanged : ∀ i ∉ order, w[i]? = v[i]?
  activity : ∀ i ∈ order, ∃ active, isActive scope conditions i w = .ok active ∧
    w[i]? = if active then v[i]? else (v[i]?).map fun _ => .inactive

/-- Activation in an order that has the places that a condition reads before its own settles the
values. -/
theorem activate_settles {parents : List (List Nat)}
    (hreads : ∀ i condition, conditions.at? i = some condition →
      ∃ places, condition.indices scope = .ok places ∧
        ∀ j ∈ places, j ∈ DependencyGraph.parentsIn parents i)
    (hfirst : DependencyGraph.ParentsFirst parents order) (hnodup : order.Nodup)
    (h : activate scope conditions order v = .ok w) : Settled scope conditions order v w := by
  induction order generalizing v with
  | nil =>
    cases h
    exact ⟨rfl, fun _ _ => rfl, fun i hi => absurd hi List.not_mem_nil⟩
  | cons i order ih =>
    obtain ⟨hi, hnodup⟩ := List.nodup_cons.1 hnodup
    obtain ⟨hparents, hfirst⟩ := hfirst
    obtain ⟨active, hactive, h⟩ := bind_eq_ok.1 h
    -- the values after this step
    obtain ⟨v', hv', h⟩ : ∃ v', v' = (if active then v else v.set i .inactive) ∧
        activate scope conditions order v' = .ok w := by
      refine ⟨_, rfl, ?_⟩
      cases active <;> exact h
    have hset : ∀ j, j ≠ i → v'[j]? = v[j]? := by
      intro j hj
      rw [hv']
      split
      · rfl
      · exact List.getElem?_set_ne (Ne.symm hj)
    have hlength : v'.length = v.length := by
      rw [hv']
      split
      · rfl
      · exact List.length_set
    have hrest := ih hfirst hnodup h
    refine ⟨hrest.length_eq.trans hlength, ?_, ?_⟩
    · intro j hj
      obtain ⟨hne, hj⟩ := not_or.1 (mt List.mem_cons.2 hj)
      rw [hrest.unchanged j hj, hset j hne]
    · intro j hj
      rcases List.mem_cons.1 hj with rfl | hj
      · refine ⟨active, ?_, ?_⟩
        · rw [← hactive]
          refine isActive_congr (hrest.length_eq.trans hlength) fun condition hcondition => ?_
          obtain ⟨places, hplaces, hsub⟩ := hreads j condition hcondition
          refine ⟨places, hplaces, fun k hk => ?_⟩
          have hlater := hparents k (hsub k hk)
          obtain ⟨hne, hk⟩ := not_or.1 (mt List.mem_cons.2 hlater)
          rw [hrest.unchanged k hk, hset k hne]
        · rw [hrest.unchanged j hi, hv']
          cases active with
          | true => rfl
          | false => exact List.getElem?_set_self'
      · obtain ⟨b, hb, hw⟩ := hrest.activity j hj
        refine ⟨b, hb, ?_⟩
        have hne : j ≠ i := fun heq => hi (heq ▸ hj)
        rw [hw, hset j hne]

/-- Activation in the order of a graph that follows the conditions settles the values. -/
theorem DependencyGraph.Follows.settled {graph : DependencyGraph}
    (hgraph : graph.Follows scope conditions)
    (h : activate scope conditions graph.order v = .ok w) :
    Settled scope conditions graph.order v w :=
  activate_settles hgraph.reads hgraph.parentsFirst
    (hgraph.order_perm.nodup_iff.2 List.nodup_range) h

/-! ## The check -/

namespace Space

/-- Nothing is wrong with the mark of an inactive parameter, or with an admitted value of an active
one. -/
theorem valueViolation?_eq_none {p : Parameter} {active : Bool} {v : Value} :
    valueViolation? p active v = none ↔
      if active then p.domain.admits v = true else v = .inactive := by
  cases active with
  | false => cases v <;> simp [valueViolation?]
  | true =>
    by_cases hv : v = .inactive
    · subst hv
      simp [valueViolation?, p.domain.not_admits_inactive]
    · simp only [valueViolation?, if_true]
      split <;> simp_all

/-- Nothing is wrong with the values at some places just if nothing is wrong with any of them. -/
theorem firstViolation?_eq_none {s : Space} {w : List Value} {order : List Nat} :
    s.firstViolation? w order = .ok none ↔
      ∀ i ∈ order, ∃ active, isActive s.scope s.conditions i w = .ok active ∧
        ∀ p v, s.scope.parameters[i]? = some p → w[i]? = some v →
          valueViolation? p active v = none := by
  induction order with
  | nil => simp [firstViolation?]
  | cons i order ih =>
    rw [List.forall_mem_cons, ← ih, firstViolation?, bind_eq_ok, ← exists_and_right]
    refine exists_congr fun active => ?_
    rw [and_assoc]
    refine and_congr_right fun _ => ?_
    cases s.scope.parameters[i]? with
    | none => simp
    | some p =>
      cases w[i]? with
      | none => simp
      | some v =>
        cases hviolation : valueViolation? p active v with
        | none => simp [hviolation]
        | some violation =>
          refine iff_of_false (fun h => ?_) fun h => ?_
          · simp only [hviolation] at h
            cases h
          have hnone := h.1 p v rfl rfl
          rw [hviolation] at hnone
          cases hnone

/-- Nothing is wrong with admitted values after activation. -/
theorem firstViolation?_of_activate {s : Space} {v w : List Value}
    (hgraph : s.graph.Follows s.scope s.conditions)
    (hvalues : List.Forall₂ (fun p v => p.domain.admits v = true) s.scope.parameters v)
    (h : activate s.scope s.conditions s.graph.order v = .ok w) :
    s.firstViolation? w s.graph.order = .ok none := by
  have hsettled := hgraph.settled h
  refine firstViolation?_eq_none.2 fun i hi => ?_
  obtain ⟨active, hactive, hw⟩ := hsettled.activity i hi
  refine ⟨active, hactive, fun p x hp hx => valueViolation?_eq_none.2 ?_⟩
  rw [hx] at hw
  cases active with
  | true =>
    obtain ⟨hlt, rfl⟩ := List.getElem?_eq_some_iff.1 hp
    obtain ⟨hlt', rfl⟩ := List.getElem?_eq_some_iff.1 hw.symm
    exact hvalues.get hlt hlt'
  | false =>
    obtain ⟨y, -, hy⟩ := Option.map_eq_some_iff.1 hw.symm
    exact hy.symm

/-- Admitted values on which no clause holds after activation are a valid configuration then. -/
theorem isValid_of_activate {s : Space} {v w : List Value}
    (hgraph : s.graph.Follows s.scope s.conditions)
    (hvalues : List.Forall₂ (fun p v => p.domain.admits v = true) s.scope.parameters v)
    (h : activate s.scope s.conditions s.graph.order v = .ok w)
    (hclause : holdingClause? s.scope s.clauses w = .ok none) : s.isValid w = .ok true := by
  have hlength : w.length = s.scope.size :=
    (hgraph.settled h).length_eq.trans hvalues.length_eq.symm
  have hviolation : s.violation? w = .ok none := by
    have hfirst := firstViolation?_of_activate hgraph hvalues h
    rw [violation?, if_neg (Decidable.not_not.2 hlength), hfirst]
    simp only [hclause]
    rfl
  rw [isValid, hviolation]
  rfl

end Space

end SearchSpace
