import SearchSpace.Proofs.Assignment.Representation
import SearchSpace.Proofs.Space.Activation
import SearchSpace.Proofs.Space.Call

/-!
# Consistent spaces

A space that `Space.build` makes is consistent: its conditions can be used in its scope, its graph
is the one of its conditions, and its default values can be activated and are then ruled out by no
clause. Every call preserves that, whether it succeeds or fails (`Consistent.perform`), so it holds
after every run (`Consistent.after`). In a consistent space the default configuration exists and is
valid (`Consistent.default_valid`).
-/

namespace SearchSpace.Space

open Assignment (width depth)

/-- The conditions, the graph and the default values of a space fit together. -/
structure Consistent (s : Space) : Prop where
  length_conditions : s.conditions.length = s.scope.size
  check : ∀ c, some c ∈ s.conditions → c.check s.scope = .ok ()
  graph : DependencyGraph.ofConditions s.scope s.conditions = .ok s.graph
  defaults : ∃ values, activeDefaults s.toFrame s.conditions s.graph = .ok values

/-! ## Building -/

/-- An expression that is resolved can be used in the scope. -/
theorem Source.check_of_resolve {scope : Scope} {source : Source} {e : Expr Parameter}
    (h : source.resolve scope = .ok e) : e.check scope = .ok () := by
  obtain ⟨e', h⟩ : ∃ e' : Expr Parameter, (do e'.check scope; pure e') = .ok e := by
    cases source with
    | tree e' => exact ⟨e', h⟩
    | text s =>
      obtain ⟨e', -, h⟩ := bind_eq_ok.1 h
      exact ⟨e', h⟩
  obtain ⟨u, hcheck, h⟩ := bind_eq_ok.1 h
  cases h
  exact hcheck

/-- The conditions that are put in their places can be used in the scope if those before can. -/
theorem placeConditions_spec {space : String} {scope : Scope} {conditions placed : Conditions}
    {given : List (Parameter × Source)}
    (h : placeConditions space scope conditions given = .ok placed)
    (hcheck : ∀ c, some c ∈ conditions → c.check scope = .ok ()) :
    placed.length = conditions.length ∧ ∀ c, some c ∈ placed → c.check scope = .ok () := by
  induction given generalizing conditions with
  | nil =>
    cases h
    exact ⟨rfl, hcheck⟩
  | cons entry given ih =>
    obtain ⟨p, source⟩ := entry
    rw [placeConditions] at h
    split at h
    · cases h
    · next i _ =>
      split at h
      · cases h
      · obtain ⟨condition, hresolve, h⟩ := bind_eq_ok.1 h
        obtain ⟨hlength, hplaced⟩ := ih h fun c hc => by
          rcases List.mem_or_eq_of_mem_set hc with hc | hc
          · exact hcheck c hc
          · cases hc
            exact Source.check_of_resolve hresolve
        exact ⟨by rw [hlength, List.length_set], hplaced⟩

/-- A scope has the parameters it is made of. -/
theorem parameters_of_ofList {parameters : List Parameter} {scope : Scope}
    (h : Scope.ofList parameters = .ok scope) : scope.parameters = parameters := by
  unfold Scope.ofList at h
  split at h
  · cases h
    rfl
  · cases h

/-- The space that a description gives: each part of it is what the others and the description make
of it, and its default values can be activated. -/
structure Builds (id : Nat) (d : Description) (s : Space) : Prop where
  find?_isText : d.parameters.find? isText = none
  id_eq : s.id = id
  name_eq : s.name = d.name
  generator_eq : s.generator = ⟨d.seed⟩
  scope : Scope.ofList d.parameters = .ok s.scope
  conditions : placeConditions d.name s.scope (d.parameters.map fun _ => none) d.conditions =
    .ok s.conditions
  clauses : d.clauses.mapM (·.resolve s.scope) = .ok s.clauses
  graph : DependencyGraph.ofConditions s.scope s.conditions = .ok s.graph
  assignment : Assignment.ofParameters d.parameters = .ok s.assignment
  defaults : ∃ values, activeDefaults s.toFrame s.conditions s.graph = .ok values

/-- Building a space succeeds with the one that the description gives. -/
theorem build_eq_ok_iff {id : Nat} {d : Description} {s : Space} :
    build id d = .ok s ↔ Builds id d s := by
  constructor
  · intro h
    unfold build at h
    split at h
    · cases h
    · next htext =>
      obtain ⟨scope, hscope, h⟩ := bind_eq_ok.1 h
      obtain ⟨conditions, hconditions, h⟩ := bind_eq_ok.1 h
      obtain ⟨clauses, hclauses, h⟩ := bind_eq_ok.1 h
      obtain ⟨graph, hgraph, h⟩ := bind_eq_ok.1 h
      obtain ⟨assignment, hassignment, h⟩ := bind_eq_ok.1 h
      obtain ⟨values, hvalues, h⟩ := bind_eq_ok.1 h
      cases h
      exact ⟨htext, rfl, rfl, rfl, hscope, hconditions, hclauses, hgraph, hassignment,
        values, hvalues⟩
  · obtain ⟨⟨_, _, scope, clauses⟩, conditions, graph, assignment, _⟩ := s
    rintro ⟨htext, rfl, rfl, rfl, hscope, hconditions, hclauses, hgraph, hassignment,
      values, hvalues⟩
    rw [build, htext]
    refine bind_eq_ok.2 ⟨scope, hscope, bind_eq_ok.2 ⟨conditions, hconditions, ?_⟩⟩
    refine bind_eq_ok.2 ⟨clauses, hclauses, bind_eq_ok.2 ⟨graph, hgraph, ?_⟩⟩
    exact bind_eq_ok.2 ⟨assignment, hassignment, bind_eq_ok.2 ⟨values, hvalues, rfl⟩⟩

/-- A space that is built is consistent. -/
theorem consistent_of_build {id : Nat} {d : Description} {s : Space} (h : build id d = .ok s) :
    s.Consistent := by
  have hbuilds := build_eq_ok_iff.1 h
  obtain ⟨hlength, hcheck⟩ := placeConditions_spec hbuilds.conditions fun c hc => by
    obtain ⟨p, -, hp⟩ := List.mem_map.1 hc
    cases hp
  refine ⟨?_, hcheck, hbuilds.graph, hbuilds.defaults⟩
  rw [hlength, List.length_map, ← parameters_of_ofList hbuilds.scope]
  rfl

/-! ## Changing -/

/-- What replacing a condition checks, and what it changes. -/
theorem setCondition_eq_ok {s s' : Space} {p : Parameter} {condition : Option (Expr Parameter)}
    (h : s.setCondition p condition = .ok s') :
    ∃ i graph values, (∀ c, condition = some c → c.check s.scope = .ok ()) ∧
      DependencyGraph.ofConditions s.scope (s.conditions.set i condition) = .ok graph ∧
      activeDefaults s.toFrame (s.conditions.set i condition) graph = .ok values ∧
      s' = { s with conditions := s.conditions.set i condition, graph } := by
  unfold Space.setCondition at h
  split at h
  · cases h
  · next i _ =>
    obtain ⟨hcondition, h⟩ : (∀ c, condition = some c → c.check s.scope = .ok ()) ∧
        (do
          let graph ← DependencyGraph.ofConditions s.scope (s.conditions.set i condition)
          let _ ← activeDefaults s.toFrame (s.conditions.set i condition) graph
          pure { s with conditions := s.conditions.set i condition, graph }) = .ok s' := by
      cases condition with
      | none => exact ⟨fun c hc => (nomatch hc), h⟩
      | some c =>
        obtain ⟨u, hcheck, h⟩ := bind_eq_ok.1 h
        cases u
        refine ⟨fun c' hc' => ?_, h⟩
        cases hc'
        exact hcheck
    obtain ⟨graph, hgraph, h⟩ := bind_eq_ok.1 h
    obtain ⟨values, hvalues, h⟩ := bind_eq_ok.1 h
    cases h
    exact ⟨i, graph, values, hcondition, hgraph, hvalues, rfl⟩

/-- A law that is assigned changes nothing but the laws. -/
theorem assign_eq_ok {s s' : Space} {distribution : Distribution} {indices : List Nat}
    (h : s.assign distribution indices = .ok s') :
    ∃ assignment, s.assignment.assign s.scope.parameters distribution indices = .ok assignment ∧
      s' = { s with assignment } := by
  obtain ⟨assignment, hassign, h⟩ := bind_eq_ok.1 h
  cases h
  exact ⟨assignment, hassign, rfl⟩

/-- A space with a new condition is consistent. -/
theorem Consistent.setCondition {s s' : Space} (hs : s.Consistent) {p : Parameter}
    {condition : Option (Expr Parameter)} (h : s.setCondition p condition = .ok s') :
    s'.Consistent := by
  obtain ⟨i, graph, values, hcondition, hgraph, hvalues, rfl⟩ := setCondition_eq_ok h
  refine ⟨List.length_set.trans hs.length_conditions, fun c hc => ?_, hgraph, values, hvalues⟩
  rcases List.mem_or_eq_of_mem_set hc with hc | hc
  · exact hs.check c hc
  · exact hcondition c hc.symm

/-- A space with another law or generator is consistent. -/
theorem Consistent.of_eq {s s' : Space} (hs : s.Consistent) (hframe : s'.toFrame = s.toFrame)
    (hconditions : s'.conditions = s.conditions) (hgraph : s'.graph = s.graph) :
    s'.Consistent := by
  obtain ⟨frame, conditions, graph, assignment, generator⟩ := s
  obtain ⟨frame', conditions', graph', assignment', generator'⟩ := s'
  cases hframe
  cases hconditions
  cases hgraph
  exact ⟨hs.length_conditions, hs.check, hs.graph, hs.defaults⟩

/-! ## Calls -/

/-- The space that a call leaves has a property that it had before, if every changed space has it. -/
theorem committed_induction {s : Space} {result : Except Error Space} {P : Space → Prop} (hs : P s)
    (h : ∀ s', result = .ok s' → P s') : P (s.committed result).2 := by
  cases result with
  | error e => exact hs
  | ok s' => exact h s' rfl

/-- A call that gives the changed space or none leaves the space as it is if it fails. -/
theorem eq_of_committed_eq_error {s s' : Space} {result : Except Error Space} {e : Error}
    (h : s.committed result = (.error e, s')) : s' = s := by
  cases result with
  | error e' =>
    cases h
    rfl
  | ok s'' => cases h

/-- A call on a consistent space leaves a consistent space. -/
theorem Consistent.perform {s : Space} (hs : s.Consistent) (call : Call) :
    (call.perform.outcome s).2.Consistent := by
  cases call with
  | setCondition p condition =>
    rw [Call.perform, setConditionInPlace_eq]
    exact committed_induction hs fun s' hs' => hs.setCondition hs'
  | assign distribution indices =>
    rw [Call.perform, assignInPlace_eq]
    refine committed_induction hs fun s' hs' => ?_
    obtain ⟨assignment, -, rfl⟩ := assign_eq_ok hs'
    exact hs.of_eq rfl rfl rfl
  | setSeed seed => exact hs.of_eq rfl rfl rfl
  | samples other n =>
    rw [outcome_samples]
    exact hs.of_eq rfl rfl rfl
  | samplesFrom generator other n =>
    rw [outcome_samplesFrom]
    exact hs

/-- A run of calls on a consistent space leaves a consistent space. -/
theorem Consistent.after {s : Space} (hs : s.Consistent) (calls : List Call) :
    (s.after calls).Consistent := by
  induction calls generalizing s with
  | nil => exact hs
  | cons call calls ih => exact ih (hs.perform call)

/-- A call that fails changes nothing but the generator. -/
theorem eq_of_perform_eq_error {s s' : Space} {call : Call} {e : Error}
    (h : call.perform.outcome s = (.error e, s')) :
    s' = { s with generator := s'.generator } := by
  cases call with
  | setCondition p condition =>
    rw [Call.perform, setConditionInPlace_eq] at h
    rw [eq_of_committed_eq_error h]
  | assign distribution indices =>
    rw [Call.perform, assignInPlace_eq] at h
    rw [eq_of_committed_eq_error h]
  | setSeed seed => cases h
  | samples other n =>
    rw [outcome_samples] at h
    rw [← (Prod.mk.inj h).2]
    rfl
  | samplesFrom generator other n =>
    rw [outcome_samplesFrom] at h
    rw [← (Prod.mk.inj h).2]

/-! ## The default configuration -/

/-- The default values are admitted. -/
theorem admits_defaults (scope : Scope) :
    List.Forall₂ (fun p v => p.domain.admits v = true) scope.parameters scope.defaults := by
  rw [Scope.defaults, List.forall₂_map_right_iff, List.forall₂_same]
  exact fun p _ => p.default_mem

/-- The default configuration of a consistent space exists and is valid. -/
theorem Consistent.default_valid {s : Space} (hs : s.Consistent) :
    ∃ c, s.defaultConfiguration = .ok c ∧ s.checkConfiguration c = .ok true := by
  obtain ⟨values, hvalues⟩ := hs.defaults
  obtain ⟨active, hactive, h⟩ := bind_eq_ok.1 hvalues
  obtain ⟨clause, hclause, h⟩ := bind_eq_ok.1 h
  have hnone : clause = none := by
    cases clause with
    | none => rfl
    | some clause => cases h
  subst hnone
  refine ⟨⟨s.toFrame, active⟩, ?_, ?_⟩
  · rw [defaultConfiguration, hactive]
    rfl
  · rw [checkConfiguration, if_neg (Decidable.not_not.2 rfl)]
    have hgraph := DependencyGraph.follows_of_ofConditions hs.graph
    exact isValid_of_activate hgraph (admits_defaults s.scope) hactive hclause

/-! ## Runs -/

/-- After any calls on a space that has been built, each condition can be used in the scope, the
graph is that of the conditions, and the default configuration exists and is valid; and a further
call that fails leaves conditions, graph, clauses and laws as they are. -/
theorem invariant_after {id : Nat} {d : Description} {s : Space} (h : build id d = .ok s)
    (calls : List Call) :
    (∀ c, some c ∈ (s.after calls).conditions → c.check (s.after calls).scope = .ok ()) ∧
      DependencyGraph.ofConditions (s.after calls).scope (s.after calls).conditions =
        .ok (s.after calls).graph ∧
      (∃ c, (s.after calls).defaultConfiguration = .ok c ∧
        (s.after calls).checkConfiguration c = .ok true) ∧
      ∀ (call : Call) (e : Error) (s' : Space),
        call.perform.outcome (s.after calls) = (.error e, s') →
          s'.conditions = (s.after calls).conditions ∧ s'.graph = (s.after calls).graph ∧
            s'.clauses = (s.after calls).clauses ∧
            s'.assignment = (s.after calls).assignment := by
  have hafter := (consistent_of_build h).after calls
  refine ⟨hafter.check, hafter.graph, hafter.default_valid, fun call e s' hcall => ?_⟩
  have hsame := eq_of_perform_eq_error hcall
  rw [hsame]
  exact ⟨rfl, rfl, rfl, rfl⟩

/-- A space in which `depth` takes part where `width` is small, and must not be six. -/
def bounded : Description where
  name := "bounded"
  parameters := Assignment.twoRanges
  conditions := [(depth, .tree (.binary .less (.var width) (.literal (.int 5))))]
  clauses := [.tree (.binary .equal (.var depth) (.literal (.int 6)))]
  seed := 1

/-- Calls on that space: a condition that would close a cycle, a condition taken away, a law of
which there are too few places, and a draw. -/
def boundedCalls : List Call :=
  [.setCondition width (some (.var depth)), .setCondition depth none,
    .assign Assignment.twoNumbers [1], .samples none 2]

/-- The space with a condition and a clause, after these calls. -/
theorem invariant_after_bounded :
    ∃ s, build 0 bounded = .ok s ∧
      (∀ c, some c ∈ (s.after boundedCalls).conditions →
        c.check (s.after boundedCalls).scope = .ok ()) ∧
      DependencyGraph.ofConditions (s.after boundedCalls).scope (s.after boundedCalls).conditions =
        .ok (s.after boundedCalls).graph ∧
      (∃ c, (s.after boundedCalls).defaultConfiguration = .ok c ∧
        (s.after boundedCalls).checkConfiguration c = .ok true) ∧
      ∀ (call : Call) (e : Error) (s' : Space),
        call.perform.outcome (s.after boundedCalls) = (.error e, s') →
          s'.conditions = (s.after boundedCalls).conditions ∧
            s'.graph = (s.after boundedCalls).graph ∧
            s'.clauses = (s.after boundedCalls).clauses ∧
            s'.assignment = (s.after boundedCalls).assignment := by
  have hbuild : (build 0 bounded).toOption.isSome = true := by decide +kernel
  cases hs : build 0 bounded with
  | error e => rw [hs] at hbuild; cases hbuild
  | ok s => exact ⟨s, rfl, invariant_after hs boundedCalls⟩

end SearchSpace.Space
