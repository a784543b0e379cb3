import SearchSpace.Space.Sampling
import SearchSpace.Space.Validity
import SearchSpace.Proofs.Assignment.Step

/-!
# Calls on a space

A space lives in one place and is changed there, so a call that fails could leave behind what it
had written before. `Call.perform` is each call as a program of that kind: its writes are steps of
their own, and those before a failure stay. The writes of a call come after all its checks, so that
its outcome is that of `Space.setCondition` or `Space.assign`, which give either the whole changed
space or none (`setConditionInPlace_eq`, `assignInPlace_eq`).
-/

namespace SearchSpace.Space

/-- A program that changes a space in place. What it has written stays if it fails. -/
abbrev InPlace := ExceptT Error (StateM Space)

/-- What a program gives on a space, and the space that it leaves. -/
def InPlace.outcome {α : Type} (program : InPlace α) (s : Space) : Except Error α × Space :=
  program.run.run s

/-- Reading the space does not change it. -/
theorem InPlace.outcome_get_bind {α : Type} (f : Space → InPlace α) (s : Space) :
    InPlace.outcome (get >>= f) s = (f s).outcome s :=
  rfl

/-- The outcome of a call that gives the changed space or none. -/
def committed (s : Space) : Except Error Space → Except Error Unit × Space
  | .ok s' => (.ok (), s')
  | .error e => (.error e, s)

/-- A check before the first write: if it fails, nothing has been written. -/
theorem InPlace.outcome_check_bind {α : Type} {x : Except Error α} {f : α → InPlace Unit}
    {g : α → Except Error Space} {s : Space}
    (h : ∀ a, (f a).outcome s = s.committed (g a)) :
    InPlace.outcome (liftM x >>= f) s = s.committed (x >>= g) := by
  cases x with
  | error e => rfl
  | ok a => exact h a

/-! ## Conditions -/

/-- Replaces the condition of a parameter, or takes it away, in place. -/
def setConditionInPlace (p : Parameter) (condition : Option (Expr Parameter)) : InPlace Unit := do
  let s ← get
  let some i := s.scope.indexOf? p | throw (.invalidValue (.notInSpace p.name.text s.name))
  if let some c := condition then c.check s.scope
  let conditions := s.conditions.set i condition
  let graph ← DependencyGraph.ofConditions s.scope conditions
  let _ ← activeDefaults s.toFrame conditions graph
  modify fun s => { s with conditions }
  modify fun s => { s with graph }

/-- A condition is replaced in place with the outcome of `setCondition`. -/
theorem setConditionInPlace_eq (p : Parameter) (condition : Option (Expr Parameter)) (s : Space) :
    (setConditionInPlace p condition).outcome s = s.committed (s.setCondition p condition) := by
  unfold setConditionInPlace setCondition
  rw [InPlace.outcome_get_bind]
  cases s.scope.indexOf? p with
  | none => rfl
  | some i =>
    have hwrite : ∀ (graph : DependencyGraph) (values : List Value), InPlace.outcome (do
          modify fun s' => { s' with conditions := s.conditions.set i condition }
          modify fun s' => { s' with graph }) s =
        s.committed (.ok { s with conditions := s.conditions.set i condition, graph }) :=
      fun _ _ => rfl
    cases condition with
    | none =>
      refine InPlace.outcome_check_bind fun graph => ?_
      exact InPlace.outcome_check_bind fun values => hwrite graph values
    | some c =>
      refine InPlace.outcome_check_bind fun _ => ?_
      refine InPlace.outcome_check_bind fun graph => ?_
      exact InPlace.outcome_check_bind fun values => hwrite graph values

/-! ## Laws -/

/-- The groups of their own, with the default laws, of the parameters at some places. -/
def ownGroups (parameters : List Parameter) : List Nat → Except Error (List Group)
  | [] => .ok []
  | i :: places =>
    match parameters[i]? with
    | some p => do
      let law ← Distribution.ofParameter p
      pure (⟨law, [i]⟩ :: (← ownGroups parameters places))
    | none => ownGroups parameters places

/-- Gives the parameters at some places a law together, in place. The default laws of the parameters
that lose their groups are found before the first group is taken out. -/
def assignInPlace (distribution : Distribution) (indices : List Nat) : InPlace Unit := do
  let s ← get
  let parameters := s.scope.parameters
  if let some e := Assignment.fault? parameters distribution indices then throw e
  let own ← ownGroups parameters (s.assignment.orphans indices)
  modify fun s => { s with
    assignment := (s.assignment.overlapping indices).foldl Assignment.unlink s.assignment }
  modify fun s => { s with
    assignment := s.assignment.pushBack parameters ⟨distribution, indices⟩ }
  modify fun s => { s with
    assignment := own.foldl (Assignment.pushBack parameters) s.assignment }

/-- Groups whose laws are found on the way are those whose laws are found beforehand. -/
theorem foldlM_pushDefault_eq (parameters : List Parameter) (places : List Nat) (a : Assignment) :
    places.foldlM (fun a i => (parameters[i]?).elim (.ok a) (a.pushDefault parameters i)) a =
      ownGroups parameters places >>= fun own =>
        pure (own.foldl (Assignment.pushBack parameters) a) := by
  induction places generalizing a with
  | nil => rfl
  | cons i places ih =>
    rw [List.foldlM_cons, ownGroups]
    cases parameters[i]? with
    | none => exact ih a
    | some p =>
      cases hlaw : Distribution.ofParameter p with
      | error e =>
        simp only [Option.elim_some, Assignment.pushDefault, hlaw]
        rfl
      | ok law =>
        simp only [Option.elim_some, Assignment.pushDefault, hlaw]
        refine (ih _).trans ?_
        cases ownGroups parameters places <;> rfl

/-- A law is assigned in place with the outcome of `assign`. -/
theorem assignInPlace_eq (distribution : Distribution) (indices : List Nat) (s : Space) :
    (assignInPlace distribution indices).outcome s =
      s.committed (s.assign distribution indices) := by
  unfold assignInPlace
  rw [InPlace.outcome_get_bind]
  cases hfault : Assignment.fault? s.scope.parameters distribution indices with
  | some e =>
    simp only [hfault]
    rw [assign, Assignment.assign, hfault]
    rfl
  | none =>
    rw [assign, Assignment.assign_eq hfault, foldlM_pushDefault_eq, bind_assoc]
    simp only [hfault]
    exact InPlace.outcome_check_bind fun own => rfl

/-! ## Calls -/

/-- What can be done with a space that may change it. -/
inductive Call where
  /-- Replaces the condition of a parameter, or takes it away. -/
  | setCondition (p : Parameter) (condition : Option (Expr Parameter))
  /-- Gives the parameters at some places a law together. -/
  | assign (distribution : Distribution) (indices : List Nat)
  /-- Restarts the generator. -/
  | setSeed (seed : UInt64)
  /-- Draws from the space's own generator. -/
  | samples (other : Option OwnedAssignment) (n : Nat)
  /-- Draws from another generator. -/
  | samplesFrom (generator : Generator) (other : Option OwnedAssignment) (n : Nat)

/-- The program of a call. -/
def Call.perform : Call → InPlace Unit
  | .setCondition p condition => setConditionInPlace p condition
  | .assign distribution indices => assignInPlace distribution indices
  | .setSeed seed => modify (·.setSeed seed)
  | .samples other n => do
    let s ← get
    set (s.samples other n).2
    liftM ((s.samples other n).1.map fun _ => ())
  | .samplesFrom generator other n => do
    let s ← get
    liftM (((s.samplesWith other n).run.run generator).1.map fun _ => ())

/-- A draw from the space's own generator leaves that as it is at the end, and the rest. -/
theorem outcome_samples (s : Space) (other : Option OwnedAssignment) (n : Nat) :
    (Call.samples other n).perform.outcome s =
      ((s.samples other n).1.map fun _ => (), (s.samples other n).2) := by
  rw [Call.perform, InPlace.outcome_get_bind]
  generalize s.samples other n = drawn
  rfl

/-- A draw from another generator leaves the space as it is. -/
theorem outcome_samplesFrom (s : Space) (generator : Generator) (other : Option OwnedAssignment)
    (n : Nat) :
    (Call.samplesFrom generator other n).perform.outcome s =
      (((s.samplesWith other n).run.run generator).1.map fun _ => (), s) := by
  rw [Call.perform, InPlace.outcome_get_bind]
  generalize (s.samplesWith other n).run.run generator = drawn
  rfl

/-- The space that some calls leave, one after the other, whether they succeed or fail. -/
def after (s : Space) (calls : List Call) : Space :=
  calls.foldl (fun s call => (call.perform.outcome s).2) s

end SearchSpace.Space
