import SearchSpace.Proofs.Space.Consistency

/-!
# Activity as a fixpoint

Activation goes over a vector once, in place, and judges each condition on a vector of which a part
is still as it was. `IsActivation v w` says without an order what it is to leave behind: `w` has the
values of `v`, except where the condition of a parameter does not hold on `w` itself. In an order of
the dependency graph in which parents come first, activation succeeds on `v` just if there is such a
vector, and leaves it (`activate_eq_ok_iff`). So there is at most one, no order matters, and a
second activation changes nothing (`Space.Reachable.setActives_fixpoint`).
-/

namespace SearchSpace

variable {scope : Scope} {conditions : Conditions} {order : List Nat} {v w : List Value}

/-! ## Conditions that do not hold -/

/-- A condition or a clause with this outcome does not hold: it is false, or it has read an inactive
parameter. -/
def IsUnmet (outcome : Except Error Value) : Prop :=
  outcome = .ok (.bool false) ∨ ∃ name, outcome = .error (.inactiveParameter name)

/-- A condition holds if its value is true. -/
theorem conditionHolds_eq_true {i : Nat} {c : Expr Parameter} :
    conditionHolds scope i c v = .ok true ↔ c.eval ⟨scope, v⟩ = .ok (.bool true) := by
  unfold conditionHolds
  split
  · next b heval => simp [heval]
  · next x hx heval => simpa [heval] using hx true
  · next e heval => cases e <;> simp [heval, Error.isInactive]

/-- A condition does not hold if it is unmet. -/
theorem conditionHolds_eq_false {i : Nat} {c : Expr Parameter} :
    conditionHolds scope i c v = .ok false ↔ IsUnmet (c.eval ⟨scope, v⟩) := by
  unfold conditionHolds IsUnmet
  split
  · next b heval => simp [heval]
  · next x hx heval => simpa [heval] using hx false
  · next e heval => cases e <;> simp [heval, Error.isInactive]

/-- A parameter is active if its condition, where it has one, is true. -/
theorem isActive_eq_true {i : Nat} : isActive scope conditions i v = .ok true ↔
    ∀ c, conditions.at? i = some c → c.eval ⟨scope, v⟩ = .ok (.bool true) := by
  unfold isActive
  split
  · next c hc => simp [hc, conditionHolds_eq_true]
  · next hnone => simp [hnone]

/-- A parameter is inactive if it has a condition and that is unmet. -/
theorem isActive_eq_false {i : Nat} : isActive scope conditions i v = .ok false ↔
    ∃ c, conditions.at? i = some c ∧ IsUnmet (c.eval ⟨scope, v⟩) := by
  unfold isActive
  split
  · next c hc => simp [hc, conditionHolds_eq_false]
  · next hnone => simp [hnone]

/-! ## The fixpoint -/

/-- `w` has the values of `v`, except that a parameter is marked as inactive where its condition
does not hold on `w` itself; every condition holds on `w` or does not. -/
structure IsActivation (scope : Scope) (conditions : Conditions) (v w : List Value) : Prop where
  length_eq : w.length = v.length
  unconditional : ∀ i < v.length, conditions.at? i = none → w[i]? = v[i]?
  conditional : ∀ i < v.length, ∀ c, conditions.at? i = some c →
    c.eval ⟨scope, w⟩ = .ok (.bool true) ∧ w[i]? = v[i]? ∨
      IsUnmet (c.eval ⟨scope, w⟩) ∧ w[i]? = some .inactive

/-- Values that are settled at all places are those of an activation, and the other way round. -/
theorem settled_iff_isActivation (horder : ∀ i, i ∈ order ↔ i < v.length) :
    Settled scope conditions order v w ↔ IsActivation scope conditions v w := by
  constructor
  · intro h
    refine ⟨h.length_eq, fun i hi hnone => ?_, fun i hi c hc => ?_⟩ <;>
      obtain ⟨active, hactive, hw⟩ := h.activity i ((horder i).2 hi)
    · cases active with
      | true => exact hw
      | false =>
        obtain ⟨c, hc, -⟩ := isActive_eq_false.1 hactive
        rw [hnone] at hc
        cases hc
    · cases active with
      | true => exact .inl ⟨isActive_eq_true.1 hactive c hc, hw⟩
      | false =>
        obtain ⟨c', hc', hunmet⟩ := isActive_eq_false.1 hactive
        cases hc.symm.trans hc'
        rw [List.getElem?_eq_getElem hi] at hw
        exact .inr ⟨hunmet, hw⟩
  · intro h
    refine ⟨h.length_eq, fun i hi => ?_, fun i hi => ?_⟩
    · have hle := Nat.not_lt.1 (mt (horder i).2 hi)
      rw [List.getElem?_eq_none hle, List.getElem?_eq_none (h.length_eq ▸ hle)]
    · have hlt := (horder i).1 hi
      cases hc : conditions.at? i with
      | none =>
        refine ⟨true, isActive_eq_true.2 fun c hsome => ?_, h.unconditional i hlt hc⟩
        rw [hc] at hsome
        cases hsome
      | some c =>
        rcases h.conditional i hlt c hc with ⟨htrue, hw⟩ | ⟨hunmet, hw⟩
        · refine ⟨true, isActive_eq_true.2 fun c' hc' => ?_, hw⟩
          cases hc.symm.trans hc'
          exact htrue
        · refine ⟨false, isActive_eq_false.2 ⟨c, hc, hunmet⟩, ?_⟩
          rw [hw, List.getElem?_eq_getElem hlt]
          rfl

/-- Activation in an order that has the places that a condition reads before its own finds the
settled values, if there are any. -/
theorem Settled.activate_eq {parents : List (List Nat)}
    (hreads : ∀ i condition, conditions.at? i = some condition →
      ∃ places, condition.indices scope = .ok places ∧
        ∀ j ∈ places, j ∈ DependencyGraph.parentsIn parents i)
    (hfirst : DependencyGraph.ParentsFirst parents order) (hnodup : order.Nodup)
    (h : Settled scope conditions order v w) : activate scope conditions order v = .ok w := by
  induction order generalizing v with
  | nil =>
    have heq : v = w := List.ext_getElem? fun i => (h.unchanged i List.not_mem_nil).symm
    rw [heq]
    rfl
  | cons i order ih =>
    obtain ⟨hi, hnodup⟩ := List.nodup_cons.1 hnodup
    obtain ⟨hparents, hfirst⟩ := hfirst
    obtain ⟨active, hactive, hw⟩ := h.activity i (.head order)
    -- what the condition of this place reads has its final values already
    have hnow : isActive scope conditions i v = .ok active := by
      rw [← hactive]
      refine isActive_congr h.length_eq.symm fun condition hcondition => ?_
      obtain ⟨places, hplaces, hsub⟩ := hreads i condition hcondition
      exact ⟨places, hplaces, fun k hk => (h.unchanged k (hparents k (hsub k hk))).symm⟩
    have hrest : Settled scope conditions order (if active then v else v.set i .inactive) w := by
      have hother : ∀ j, j ≠ i →
          (if active then v else v.set i .inactive)[j]? = v[j]? := by
        intro j hj
        split
        · rfl
        · exact List.getElem?_set_ne (Ne.symm hj)
      refine ⟨?_, fun j hj => ?_, fun j hj => ?_⟩
      · rw [h.length_eq]
        split
        · rfl
        · exact List.length_set.symm
      · by_cases heq : j = i
        · subst heq
          rw [hw]
          cases active with
          | true => rfl
          | false => exact List.getElem?_set_self'.symm
        · rw [hother j heq]
          exact h.unchanged j fun hmem => (List.mem_cons.1 hmem).elim heq hj
      · have hne : j ≠ i := fun heq => hi (heq ▸ hj)
        rw [hother j hne]
        exact h.activity j (.tail i hj)
    rw [activate, hnow]
    cases active with
    | true => exact ih hfirst hnodup hrest
    | false => exact ih hfirst hnodup hrest

/-- An order of all nodes of a graph, each once, in which the parents of a node come before it. -/
structure DependencyGraph.IsTopological (graph : DependencyGraph) (order : List Nat) : Prop where
  perm : order.Perm (List.range graph.size)
  parentsFirst : ParentsFirst graph.parents order

/-- The order of a graph is one in which parents come first. -/
theorem DependencyGraph.isTopological_of_ofConditions {graph : DependencyGraph}
    (h : ofConditions scope conditions = .ok graph) :
    graph.size = conditions.length ∧ graph.IsTopological graph.order := by
  obtain ⟨lists, hlists, hgraph⟩ := bind_eq_ok.1 h
  obtain ⟨hparents, hperm, hfirst⟩ := ofParents_order hgraph
  have hsize : graph.size = lists.length := by rw [size, hparents, List.length_map]
  refine ⟨hsize.trans (mapM_eq_ok.1 hlists).length_eq.symm, ?_, hfirst⟩
  rw [hsize]
  exact hperm

/-- In an order of the dependency graph in which parents come first, activation succeeds just if
there is a fixpoint, and leaves it. -/
theorem activate_eq_ok_iff {graph : DependencyGraph}
    (hgraph : DependencyGraph.ofConditions scope conditions = .ok graph)
    (hlength : v.length = conditions.length) (horder : graph.IsTopological order) :
    activate scope conditions order v = .ok w ↔ IsActivation scope conditions v w := by
  have hfollows := DependencyGraph.follows_of_ofConditions hgraph
  have hsize := (DependencyGraph.isTopological_of_ofConditions hgraph).1
  have hmem : ∀ i, i ∈ order ↔ i < v.length := by
    intro i
    rw [horder.perm.mem_iff, List.mem_range, hsize, hlength]
  have hnodup : order.Nodup := horder.perm.nodup_iff.2 List.nodup_range
  rw [← settled_iff_isActivation hmem]
  exact ⟨activate_settles hfollows.reads horder.parentsFirst hnodup,
    fun h => h.activate_eq hfollows.reads horder.parentsFirst hnodup⟩

/-- A vector that activation leaves behind is a fixpoint of itself. -/
theorem IsActivation.self (h : IsActivation scope conditions v w) :
    IsActivation scope conditions w w := by
  refine ⟨rfl, fun _ _ _ => rfl, fun i hi c hc => ?_⟩
  exact (h.conditional i (h.length_eq ▸ hi) c hc).imp_left fun heval => ⟨heval.1, rfl⟩

namespace Space

/-! ## Spaces that calls lead to -/

/-- A space that has been built, after some calls. -/
def Reachable (t : Space) : Prop :=
  ∃ id d s calls, build id d = .ok s ∧ s.after calls = t

/-- A space that calls lead to is consistent. -/
theorem Reachable.consistent {t : Space} (ht : t.Reachable) : t.Consistent := by
  obtain ⟨id, d, s, calls, hs, rfl⟩ := ht
  exact (consistent_of_build hs).after calls

/-- In a consistent space, marking the inactive parameters of a vector succeeds just if there is a
fixpoint, and gives it. -/
theorem Consistent.setActives_eq_ok_iff {t : Space} (ht : t.Consistent)
    (hv : v.length = t.scope.size) :
    t.setActives v = .ok w ↔ IsActivation t.scope t.conditions v w := by
  rw [setActives, if_neg (Decidable.not_not.2 hv)]
  exact activate_eq_ok_iff ht.graph (hv.trans ht.length_conditions.symm)
    (DependencyGraph.isTopological_of_ofConditions ht.graph).2

/-- In every state of a space, marking the inactive parameters of a vector succeeds just if activity
has a fixpoint on it; this is then the only one, and what is left behind. Doing it again changes
nothing, and every order of the graph in which parents come first gives the same values, or none. -/
theorem Reachable.setActives_fixpoint {t : Space} (ht : t.Reachable) {v : List Value}
    (hv : v.length = t.scope.size) :
    ((∃ w, t.setActives v = .ok w) ↔ ∃ w, IsActivation t.scope t.conditions v w) ∧
      (∀ w, IsActivation t.scope t.conditions v w → t.setActives v = .ok w ∧
        ∀ w', IsActivation t.scope t.conditions v w' → w' = w) ∧
      (∀ w, t.setActives v = .ok w → t.setActives w = .ok w) ∧
      ∀ order, t.graph.IsTopological order →
        ∀ w, activate t.scope t.conditions order v = .ok w ↔ t.setActives v = .ok w := by
  have hiff := fun w => @Consistent.setActives_eq_ok_iff v w t ht.consistent hv
  refine ⟨exists_congr hiff, fun w hw => ⟨(hiff w).2 hw, fun w' hw' => ?_⟩, fun w hw => ?_,
    fun order horder w => ?_⟩
  · have heq : Except.ok w' = Except.ok w := ((hiff w').2 hw').symm.trans ((hiff w).2 hw)
    exact Except.ok.inj heq
  · have hfix := (hiff w).1 hw
    exact (ht.consistent.setActives_eq_ok_iff (hfix.length_eq.trans hv)).2 hfix.self
  · rw [hiff w]
    exact activate_eq_ok_iff ht.consistent.graph (hv.trans ht.consistent.length_conditions.symm)
      horder

/-- The step of a range without a grid. -/
theorem zero_step : (0 : Int64) ≤ 0 := by
  decide

/-- A range of integers. -/
def height : Parameter :=
  ⟨2, ⟨"height", by decide⟩, .ints ⟨0, 4, 0, by decide, zero_step⟩, .int 0, by decide⟩

/-- A space in which `depth` takes part where `width` is small, and `height` where `depth` or `width`
is very small. -/
def chained : Description where
  name := "chained"
  parameters := [Assignment.width, Assignment.depth, height]
  conditions := [(height, .tree (.binary .or
      (.binary .less (.var Assignment.depth) (.literal (.int 3)))
      (.binary .less (.var Assignment.width) (.literal (.int 2))))),
    (Assignment.depth, .tree (.binary .less (.var Assignment.width) (.literal (.int 5))))]
  clauses := []
  seed := 1

/-- The graph of the conditions of `chained`, of which one reads `width` and the other `depth` and
`width`. -/
theorem ofConditions_chained {scope : Scope} (hscope : scope.parameters = chained.parameters)
    {narrow low : Expr Parameter} (hnarrow : narrow.vars = [Assignment.width])
    (hlow : low.vars = [Assignment.depth, Assignment.width]) :
    DependencyGraph.ofConditions scope [none, some narrow, some low] =
      .ok ⟨[[], [0], [0, 1]], [[1, 2], [2], []], [0, 1, 2]⟩ := by
  obtain ⟨parameters, valid⟩ := scope
  cases hscope
  have hone : narrow.indices ⟨chained.parameters, valid⟩ = .ok [0] := by
    refine Expr.indices_eq_ok.2 ⟨[0], ?_, DependencyGraph.ascending_eq_self (by decide)⟩
    rw [hnarrow]
    exact .cons rfl .nil
  have htwo : low.indices ⟨chained.parameters, valid⟩ = .ok [0, 1] := by
    refine Expr.indices_eq_ok.2 ⟨[1, 0], ?_, DependencyGraph.ascending_eq_iff.2 ⟨by decide, ?_⟩⟩
    · rw [hlow]
      exact .cons rfl (.cons rfl .nil)
    · exact fun _ => (List.Perm.swap 1 0 []).mem_iff
  refine bind_eq_ok.2 ⟨[[], [0], [0, 1]], ?_, ?_⟩
  · exact mapM_eq_ok.2 (.cons rfl (.cons hone (.cons htwo .nil)))
  have hpairwise : ∀ l ∈ [[], [0], [0, 1]], l.Pairwise (· < ·) := by decide
  have hascending : ∀ l ∈ [[], [0], [0, 1]], DependencyGraph.ascending l = id l :=
    fun l hl => DependencyGraph.ascending_eq_self (hpairwise l hl)
  rw [DependencyGraph.ofParents, List.map_congr_left hascending, List.map_id]
  rfl

/-- A vector with a large `width`, on which both conditions do not hold, the second one because the
disjunction in it has one side that is inactive and one that is false. -/
theorem setActives_fixpoint_chained :
    ∃ t : Space, t.Reachable ∧ [Value.int 7, .int 2, .int 1].length = t.scope.size ∧
      t.setActives [.int 7, .int 2, .int 1] = .ok [.int 7, .inactive, .inactive] ∧
      ((∃ w, t.setActives [.int 7, .int 2, .int 1] = .ok w) ↔
        ∃ w, IsActivation t.scope t.conditions [.int 7, .int 2, .int 1] w) ∧
      (∀ w, IsActivation t.scope t.conditions [.int 7, .int 2, .int 1] w →
        t.setActives [.int 7, .int 2, .int 1] = .ok w ∧
        ∀ w', IsActivation t.scope t.conditions [.int 7, .int 2, .int 1] w' → w' = w) ∧
      (∀ w, t.setActives [.int 7, .int 2, .int 1] = .ok w → t.setActives w = .ok w) ∧
      ∀ order, t.graph.IsTopological order →
        ∀ w, activate t.scope t.conditions order [.int 7, .int 2, .int 1] = .ok w ↔
          t.setActives [.int 7, .int 2, .int 1] = .ok w := by
  obtain ⟨assignment, hassignment⟩ :
    ∃ a, Assignment.ofParameters chained.parameters = .ok a := ⟨_, rfl⟩
  have hbuild : build 0 chained = .ok ⟨⟨0, _, ⟨chained.parameters, by decide⟩, _⟩, _, _, _, _⟩ :=
    build_eq_ok_iff.2 ⟨rfl, rfl, rfl, rfl, rfl, rfl, rfl, ofConditions_chained rfl rfl rfl,
      hassignment, _, rfl⟩
  have hreachable : Reachable _ := ⟨0, chained, _, [], hbuild, rfl⟩
  exact ⟨_, hreachable, rfl, rfl, hreachable.setActives_fixpoint rfl⟩

end Space

end SearchSpace
