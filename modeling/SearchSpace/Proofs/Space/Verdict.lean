import SearchSpace.Proofs.Space.Fixpoint

/-!
# Every vector gets a verdict

The check of a vector may meet anything in it: values of a wrong kind, objects, not-a-number, marks
where none belong. Conditions and clauses that are well behaved on proper values may well fail on
such ones. They never get to see them, though. A condition is asked only after the values of the
parameters that it reads have been found proper, and a clause only after all values have; what else
stands in the vector by then may as well be hidden (`hide`). So where the conditions and clauses of
a space are decided on proper values, its check finds every vector valid or invalid, and fails on
none (`Space.Reachable.exists_isValid`).
-/

namespace SearchSpace

/-- A condition or a clause with this outcome is decided: it has a truth value, or it has read an
inactive parameter. -/
def IsDecided (outcome : Except Error Value) : Prop :=
  (∃ b, outcome = .ok (.bool b)) ∨ ∃ name, outcome = .error (.inactiveParameter name)

/-- A value is proper for a parameter if it is the mark of an inactive one or belongs to the
domain. -/
def Parameter.IsProper (p : Parameter) (x : Value) : Prop :=
  x = .inactive ∨ p.domain.admits x = true

/-- An expression is decided on every vector of proper values. -/
def Expr.IsDecidedIn (scope : Scope) (e : Expr Parameter) : Prop :=
  ∀ values, List.Forall₂ Parameter.IsProper scope.parameters values →
    IsDecided (e.eval ⟨scope, values⟩)

variable {scope : Scope} {conditions : Conditions} {order : List Nat} {v : List Value}

/-! ## Hiding values -/

/-- The vector with the values at some places hidden behind the mark of an inactive parameter. -/
def hide (places : List Nat) (v : List Value) : List Value :=
  v.mapIdx fun i x => if i ∈ places then .inactive else x

/-- Hiding values leaves those at the other places. -/
theorem getElem?_hide_of_not_mem {places : List Nat} {i : Nat} (hi : i ∉ places) :
    (hide places v)[i]? = v[i]? := by
  rw [hide, List.getElem?_mapIdx]
  simp only [if_neg hi, Option.map_id']

/-- The values of a vector at all places but some are proper. -/
def ProperExcept (scope : Scope) (places : List Nat) (v : List Value) : Prop :=
  ∀ (i : Nat) (p : Parameter) (x : Value), i ∉ places → scope.parameters[i]? = some p →
    v[i]? = some x → p.IsProper x

/-- With the other values hidden, all values are proper. -/
theorem ProperExcept.hide {places : List Nat} (h : ProperExcept scope places v)
    (hv : v.length = scope.size) :
    List.Forall₂ Parameter.IsProper scope.parameters (hide places v) := by
  have hlength : (SearchSpace.hide places v).length = v.length := List.length_mapIdx
  refine List.forall₂_iff_get.2 ⟨(hlength.trans hv).symm, fun i hi hi' => ?_⟩
  have hlt : i < v.length := hlength ▸ hi'
  simp only [SearchSpace.hide, List.get_eq_getElem, List.getElem_mapIdx]
  split
  · exact .inl rfl
  · next hplace =>
    exact h i _ _ hplace (List.getElem?_eq_getElem hi) (List.getElem?_eq_getElem hlt)

/-! ## Conditions and clauses -/

/-- A condition that is decided holds or does not. -/
theorem exists_conditionHolds {i : Nat} {c : Expr Parameter}
    (h : IsDecided (c.eval ⟨scope, v⟩)) : ∃ b, conditionHolds scope i c v = .ok b := by
  unfold conditionHolds
  rcases h with ⟨b, heval⟩ | ⟨name, heval⟩ <;> rw [heval]
  · exact ⟨b, rfl⟩
  · exact ⟨false, rfl⟩

/-- Whether a parameter is active is found out if what its condition reads is proper. -/
theorem exists_isActive (hv : v.length = scope.size) (hproper : ProperExcept scope order v) {i : Nat}
    (hdecided : ∀ c, conditions.at? i = some c → c.IsDecidedIn scope)
    (hreads : ∀ c, conditions.at? i = some c →
      ∃ places, c.indices scope = .ok places ∧ ∀ j ∈ places, j ∉ order) :
    ∃ active, isActive scope conditions i v = .ok active := by
  have hlength : (hide order v).length = v.length := List.length_mapIdx
  have hsame : isActive scope conditions i v = isActive scope conditions i (hide order v) := by
    refine isActive_congr hlength.symm fun c hc => ?_
    obtain ⟨places, hplaces, hout⟩ := hreads c hc
    exact ⟨places, hplaces, fun j hj => (getElem?_hide_of_not_mem (hout j hj)).symm⟩
  rw [hsame, isActive]
  split
  · next c hc => exact exists_conditionHolds (hdecided c hc _ (hproper.hide hv))
  · exact ⟨true, rfl⟩

/-- Whether one of some clauses holds is found out if they are decided. -/
theorem exists_holdingClause? {clauses : List (Expr Parameter)}
    (h : ∀ clause ∈ clauses, IsDecided (clause.eval ⟨scope, v⟩)) :
    ∃ clause, holdingClause? scope clauses v = .ok clause := by
  induction clauses with
  | nil => exact ⟨none, rfl⟩
  | cons clause clauses ih =>
    obtain ⟨hclause, hclauses⟩ := List.forall_mem_cons.1 h
    obtain ⟨b, hb⟩ : ∃ b, clauseHolds scope clause v = .ok b := by
      unfold clauseHolds
      rcases hclause with ⟨b, heval⟩ | ⟨name, heval⟩ <;> rw [heval]
      · exact ⟨b, rfl⟩
      · exact ⟨false, rfl⟩
    rw [holdingClause?, hb]
    cases b with
    | true => exact ⟨some clause, rfl⟩
    | false => exact ih hclauses

namespace Space

open Assignment (width depth)

variable {t : Space}

/-- A value with which nothing is wrong is proper. -/
theorem isProper_of_valueViolation? {p : Parameter} {active : Bool} {x : Value}
    (h : valueViolation? p active x = none) : p.IsProper x := by
  have hx := valueViolation?_eq_none.1 h
  cases active with
  | true => exact .inr hx
  | false => exact .inl hx

/-- The first thing wrong with the values at some places is found, or that there is none, where the
parents of each come before it and the values at all other places are proper. If there is none, then
all values are proper. -/
theorem exists_firstViolation? {parents : List (List Nat)} (hv : v.length = t.scope.size)
    (hdecided : ∀ i c, t.conditions.at? i = some c → c.IsDecidedIn t.scope)
    (hreads : ∀ i c, t.conditions.at? i = some c → ∃ places, c.indices t.scope = .ok places ∧
      ∀ j ∈ places, j ∈ DependencyGraph.parentsIn parents i)
    (hfirst : DependencyGraph.ParentsFirst parents order)
    (hproper : ProperExcept t.scope order v) :
    ∃ violation, t.firstViolation? v order = .ok violation ∧
      (violation = none → ProperExcept t.scope [] v) := by
  induction order with
  | nil => exact ⟨none, rfl, fun _ => hproper⟩
  | cons i order ih =>
    obtain ⟨hparents, hfirst⟩ := hfirst
    obtain ⟨active, hactive⟩ := exists_isActive hv hproper (hdecided i) fun c hc => by
      obtain ⟨places, hplaces, hsub⟩ := hreads i c hc
      exact ⟨places, hplaces, fun j hj => hparents j (hsub j hj)⟩
    -- the values behind this one may be looked at once this one is proper too
    have hrest : (∀ p x, t.scope.parameters[i]? = some p → v[i]? = some x → p.IsProper x) →
        ProperExcept t.scope order v := by
      intro hi j p x hj hp hx
      by_cases heq : j = i
      · subst heq
        exact hi p x hp hx
      · exact hproper j p x (List.not_mem_cons_of_ne_of_not_mem heq hj) hp hx
    rw [firstViolation?, hactive]
    cases hp : t.scope.parameters[i]? with
    | none =>
      refine ih hfirst (hrest fun q y hq hy => ?_)
      cases hp.symm.trans hq
    | some p =>
      cases hx : v[i]? with
      | none =>
        refine ih hfirst (hrest fun q y hq hy => ?_)
        cases hx.symm.trans hy
      | some x =>
        simp only [Except.bind, bind]
        cases hviolation : valueViolation? p active x with
        | some violation =>
          refine ⟨some violation, rfl, fun hnone => ?_⟩
          cases hnone
        | none =>
          refine ih hfirst (hrest fun q y hq hy => ?_)
          cases hp.symm.trans hq
          cases hx.symm.trans hy
          exact isProper_of_valueViolation? hviolation

/-- In every state of a space whose conditions and clauses are decided on proper values, every
vector, whatever stands in it and however long it is, is found valid or invalid. -/
theorem Reachable.exists_isValid (ht : t.Reachable)
    (hconditions : ∀ i c, t.conditions.at? i = some c → c.IsDecidedIn t.scope)
    (hclauses : ∀ clause ∈ t.clauses, clause.IsDecidedIn t.scope) (v : List Value) :
    ∃ valid, t.isValid v = .ok valid := by
  rw [isValid, violation?]
  split
  · exact ⟨false, rfl⟩
  · next hv =>
    have hv := Decidable.not_not.1 hv
    have hgraph := DependencyGraph.follows_of_ofConditions ht.consistent.graph
    -- at first no place is left out of the order
    have hproper : ProperExcept t.scope t.graph.order v := by
      intro i p x hi hp _
      refine absurd (hgraph.order_perm.mem_iff.2 (List.mem_range.2 ?_)) hi
      rw [ht.consistent.length_conditions]
      exact (List.getElem?_eq_some_iff.1 hp).1
    obtain ⟨violation, hviolation, hnone⟩ :=
      exists_firstViolation? hv hconditions hgraph.reads hgraph.parentsFirst hproper
    rw [hviolation]
    cases violation with
    | some violation => exact ⟨false, rfl⟩
    | none =>
      have hvalues : List.Forall₂ Parameter.IsProper t.scope.parameters v :=
        List.forall₂_iff_get.2 ⟨hv.symm, fun i hi hi' =>
          hnone rfl i _ _ List.not_mem_nil (List.getElem?_eq_getElem hi)
            (List.getElem?_eq_getElem hi')⟩
      obtain ⟨clause, hclause⟩ := exists_holdingClause? fun clause hmem =>
        hclauses clause hmem v hvalues
      refine ⟨clause.isNone, ?_⟩
      simp only [hclause]
      cases clause <;> rfl

/-- A value that is proper for a range of integers is the mark of an inactive parameter or an
integer. -/
theorem eq_of_isProper_ints {p : Parameter} {r : IntRange} (hr : p.domain = .ints r) {x : Value}
    (hx : p.IsProper x) : x = .inactive ∨ ∃ n, x = .int n := by
  rcases hx with rfl | hx
  · exact .inl rfl
  · rw [hr] at hx
    cases x with
    | int n => exact .inr ⟨n, rfl⟩
    | _ => cases hx

/-- The condition and the clause on two ranges are decided on proper values. -/
theorem isDecidedIn_bounded (hscope : scope.parameters = [width, depth]) :
    (Expr.binary .less (.var width) (.literal (.int 5))).IsDecidedIn scope ∧
      (Expr.binary .equal (.var depth) (.literal (.int 6))).IsDecidedIn scope := by
  obtain ⟨parameters, valid⟩ := scope
  cases hscope
  constructor
  · rintro values (_ | ⟨hx, hrest⟩)
    rcases eq_of_isProper_ints rfl hx with rfl | ⟨n, rfl⟩
    · exact .inr ⟨_, rfl⟩
    · exact .inl ⟨_, rfl⟩
  · rintro values (_ | ⟨hx, _ | ⟨hy, hrest⟩⟩)
    rcases eq_of_isProper_ints rfl hy with rfl | ⟨n, rfl⟩
    · exact .inr ⟨_, rfl⟩
    · exact .inl ⟨_, rfl⟩

/-- The parameters, conditions and clauses of the space of `bounded`. -/
theorem parts_of_build_bounded {id : Nat} {t : Space} (ht : build id bounded = .ok t) :
    t.scope.parameters = [width, depth] ∧
      t.conditions = [none, some (.binary .less (.var width) (.literal (.int 5)))] ∧
      t.clauses = [.binary .equal (.var depth) (.literal (.int 6))] := by
  obtain ⟨⟨_, _, scope, clauses⟩, conditions, graph, assignment, generator⟩ := t
  obtain ⟨-, -, -, -, hscope, hconditions, hclauses, -⟩ := build_eq_ok_iff.1 ht
  cases hscope
  cases hconditions
  cases hclauses
  exact ⟨rfl, rfl, rfl⟩

/-- In the space with a condition and a clause, a vector with a text in the place of `width`, on which
the condition of `depth` fails if it is asked. -/
theorem exists_isValid_bounded :
    ∃ t : Space, t.Reachable ∧ (∀ i c, t.conditions.at? i = some c → c.IsDecidedIn t.scope) ∧
      (∀ clause ∈ t.clauses, clause.IsDecidedIn t.scope) ∧
      (∀ active, isActive t.scope t.conditions 1 [.string "wide", .object "depth"] ≠ .ok active) ∧
      ∃ valid, t.isValid [.string "wide", .object "depth"] = .ok valid := by
  have hbuild : (build 0 bounded).toOption.isSome = true := by
    decide +kernel
  cases ht : build 0 bounded with
  | error e => rw [ht] at hbuild; cases hbuild
  | ok t =>
    obtain ⟨hscope, hconditions, hclauses⟩ := parts_of_build_bounded ht
    obtain ⟨hcondition, hclause⟩ := isDecidedIn_bounded hscope
    have hreachable : t.Reachable := ⟨0, bounded, t, [], ht, rfl⟩
    have hdecided : ∀ i c, t.conditions.at? i = some c → c.IsDecidedIn t.scope := by
      intro i c hc
      rw [hconditions] at hc
      rcases i with _ | _ | i
      · cases hc
      · cases hc
        exact hcondition
      · cases hc
    have hclauses' : ∀ clause ∈ t.clauses, clause.IsDecidedIn t.scope := by
      intro clause hmem
      rw [hclauses, List.mem_singleton] at hmem
      exact hmem ▸ hclause
    refine ⟨t, hreachable, hdecided, hclauses', fun active hactive => ?_,
      hreachable.exists_isValid hdecided hclauses' _⟩
    rw [hconditions] at hactive
    generalize t.scope = scope at hscope hactive
    obtain ⟨parameters, valid⟩ := scope
    cases hscope
    cases hactive

end Space

end SearchSpace
