import SearchSpace.Proofs.Assignment.Drawing
import SearchSpace.Proofs.Space.Consistency

/-!
# Sampled configurations are valid

The vectors that a space draws have an admitted value for every parameter, so that the check finds
nothing wrong with them once their inactive parameters are marked, and a vector on which a clause
holds is refused (`mem_accept`). Draws are made until there are as many configurations as are wanted
(`always_collectFrom`). So a draw that succeeds gives just that many, all of them valid, in every
state that a space can come to (`valid_of_samplesWith`), and they stay valid as long as the
conditions are the same.
-/

namespace SearchSpace.Space

open Rejection (Sampler)

/-! ## Accepting -/

/-- A vector that is accepted comes from a drawn one by activation, and no clause holds on it. -/
theorem mem_accept {s : Space} {rows kept : List (List Value)} (h : s.accept rows = .ok kept) :
    kept.length ≤ rows.length ∧ ∀ values ∈ kept, ∃ row ∈ rows,
      activate s.scope s.conditions s.graph.order row = .ok values ∧
        holdingClause? s.scope s.clauses values = .ok none := by
  induction rows generalizing kept with
  | nil =>
    cases h
    exact ⟨Nat.le_refl 0, fun values hvalues => nomatch hvalues⟩
  | cons row rows ih =>
    obtain ⟨values, hactive, h⟩ := bind_eq_ok.1 h
    obtain ⟨clause, hclause, h⟩ := bind_eq_ok.1 h
    obtain ⟨rest, hrest, h⟩ := bind_eq_ok.1 h
    obtain ⟨hlength, hkept⟩ := ih hrest
    have htail : ∀ values ∈ rest, ∃ row' ∈ row :: rows,
        activate s.scope s.conditions s.graph.order row' = .ok values ∧
          holdingClause? s.scope s.clauses values = .ok none := by
      intro values' hvalues'
      obtain ⟨row', hrow', hspec⟩ := hkept values' hvalues'
      exact ⟨row', .tail row hrow', hspec⟩
    cases clause with
    | some clause =>
      cases h
      exact ⟨Nat.le_succ_of_le hlength, htail⟩
    | none =>
      cases h
      refine ⟨Nat.succ_le_succ hlength, fun values' hvalues' => ?_⟩
      rcases List.mem_cons.1 hvalues' with rfl | hvalues'
      · exact ⟨row, .head rows, hactive, hclause⟩
      · exact htail values' hvalues'

/-! ## Collecting -/

/-- Collecting gives as many vectors as are wanted, if it gives any, and all of them are valid. -/
theorem always_collectFrom {s : Space} {a : Assignment} {order : List Nat}
    (hgraph : s.graph.Follows s.scope s.conditions)
    (hthreads : Assignment.Threads s.scope.parameters a order fun _ => False)
    (hdomains : ∀ p ∈ s.scope.parameters, ∀ r, p.domain ≠ .floats r)
    (hlaws : ∀ group ∈ a.groups, group.distribution.law.OfIntegers) (n : Nat) :
    ∀ (fuel budget : Nat) {accepted : List (List Value)}, accepted.length ≤ n →
      (∀ values ∈ accepted, s.isValid values = .ok true) →
      Sampler.Always (s.collectFrom a n fuel budget accepted) fun vectors =>
        vectors.length = n ∧ ∀ values ∈ vectors, s.isValid values = .ok true := by
  have hfinish : ∀ accepted : List (List Value), accepted.length ≤ n →
      (∀ values ∈ accepted, s.isValid values = .ok true) →
      Sampler.Always (collectFrom.finish n accepted) fun vectors =>
        vectors.length = n ∧ ∀ values ∈ vectors, s.isValid values = .ok true := by
    intro accepted hlength hvalid
    rw [collectFrom.finish]
    split
    · exact Sampler.always_throw
    · next hfull => exact Sampler.always_pure ⟨by omega, hvalid⟩
  intro fuel
  induction fuel with
  | zero => exact fun _ accepted hlength hvalid => hfinish accepted hlength hvalid
  | succ fuel ih =>
    intro budget accepted hlength hvalid
    rw [collectFrom]
    split
    · refine ((hthreads.always_sampleRows hdomains hlaws _).adapt _).bind fun rows hrows => ?_
      obtain ⟨hcount, hadmitted⟩ := hrows
      refine (Sampler.always_outcome fun kept hkept => mem_accept hkept).bind fun kept hkept => ?_
      obtain ⟨hsize, hkept⟩ := hkept
      refine ih _ ?_ ?_
      · rw [List.length_append]
        omega
      · intro values hvalues
        rcases List.mem_append.1 hvalues with hvalues | hvalues
        · exact hvalid values hvalues
        · obtain ⟨row, hrow, hactive, hclause⟩ := hkept values hvalues
          exact isValid_of_activate hgraph (hadmitted row hrow) hactive hclause
    · exact hfinish accepted hlength hvalid

/-! ## Tables of laws -/

/-- Laws that have been made for the space of a frame, and in which parameters may have been given
other laws since. -/
inductive MadeFor (frame : Frame) : OwnedAssignment → Prop where
  | ofFrame {o : OwnedAssignment} : OwnedAssignment.ofFrame frame = .ok o → MadeFor frame o
  | assign {o o' : OwnedAssignment} {distribution : Distribution} {indices : List Nat} :
    MadeFor frame o → distribution.law.Made → o.assign distribution indices = .ok o' →
      MadeFor frame o'

/-- The laws from which a space draws: its own, or others made for it. -/
def tableOf (s : Space) (other : Option OwnedAssignment) : Assignment :=
  other.elim s.assignment (·.assignment)

/-- The law that a call assigns, if it assigns one, is made by the constructors. -/
def Call.AssignsMade (call : Call) : Prop :=
  ∀ distribution indices, call = .assign distribution indices → distribution.law.Made

/-- Every parameter of a list is in one group of an assignment. -/
def Covers (parameters : List Parameter) (a : Assignment) : Prop :=
  ∃ order, Assignment.Threads parameters a order fun _ => False

/-- A law that is assigned leaves every parameter in one group. -/
theorem Covers.assign {parameters : List Parameter} {a a' : Assignment} (h : Covers parameters a)
    (hp : ∀ p ∈ parameters, p.domain.defaultLaw?.isSome) {distribution : Distribution}
    {indices : List Nat} (hmade : distribution.law.Made)
    (hassign : a.assign parameters distribution indices = .ok a') : Covers parameters a' := by
  obtain ⟨order, h⟩ := h
  obtain ⟨order', h'⟩ := @Assignment.Threads.step _ _ _ h hp (distribution, indices) hmade
  refine ⟨order', ?_⟩
  rwa [Assignment.step, hassign] at h'

/-- New laws for some parameters have every parameter in one group. -/
theorem covers_ofParameters {parameters : List Parameter} {a : Assignment}
    (hp : ∀ p ∈ parameters, p.domain.defaultLaw?.isSome)
    (h : Assignment.ofParameters parameters = .ok a) : Covers parameters a := by
  obtain ⟨b, hb, hthreads⟩ := Assignment.exists_ofParameters hp
  cases h.symm.trans hb
  exact hthreads

/-- Laws that have been made for a space have every parameter in one group. -/
theorem MadeFor.covers {frame : Frame} {o : OwnedAssignment} (h : MadeFor frame o)
    (hp : ∀ p ∈ frame.scope.parameters, p.domain.defaultLaw?.isSome) :
    o.owner = frame ∧ Covers frame.scope.parameters o.assignment := by
  induction h with
  | ofFrame h =>
    obtain ⟨a, ha, h⟩ := bind_eq_ok.1 h
    cases h
    exact ⟨rfl, covers_ofParameters hp ha⟩
  | assign _ hmade hassign ih =>
    obtain ⟨howner, hcovers⟩ := ih
    obtain ⟨a, ha, h⟩ := bind_eq_ok.1 hassign
    cases h
    rw [howner] at ha
    exact ⟨howner, hcovers.assign hp hmade ha⟩

/-! ## States of a space -/

/-- A call leaves the frame of a space as it is. -/
@[simp] theorem toFrame_perform (s : Space) (call : Call) :
    (call.perform.outcome s).2.toFrame = s.toFrame := by
  cases call with
  | setCondition p condition =>
    rw [Call.perform, setConditionInPlace_eq]
    refine @committed_induction s _ (fun s' => s'.toFrame = s.toFrame) rfl fun s' hs' => ?_
    obtain ⟨_, _, _, _, _, _, rfl⟩ := setCondition_eq_ok hs'
    rfl
  | assign distribution indices =>
    rw [Call.perform, assignInPlace_eq]
    refine @committed_induction s _ (fun s' => s'.toFrame = s.toFrame) rfl fun s' hs' => ?_
    obtain ⟨_, _, rfl⟩ := assign_eq_ok hs'
    rfl
  | setSeed seed => rfl
  | samples other n =>
    rw [outcome_samples]
    rfl
  | samplesFrom generator other n => rw [outcome_samplesFrom]

/-- A run of calls leaves the frame of a space as it is. -/
@[simp] theorem toFrame_after (s : Space) (calls : List Call) :
    (s.after calls).toFrame = s.toFrame := by
  induction calls generalizing s with
  | nil => rfl
  | cons call calls ih => exact (ih _).trans (toFrame_perform s call)

/-- A call that assigns no other laws than those that are made leaves every parameter in one
group. -/
theorem Covers.perform {s : Space} (h : Covers s.scope.parameters s.assignment)
    (hp : ∀ p ∈ s.scope.parameters, p.domain.defaultLaw?.isSome) {call : Call}
    (hcall : call.AssignsMade) :
    Covers s.scope.parameters (call.perform.outcome s).2.assignment := by
  cases call with
  | setCondition p condition =>
    rw [Call.perform, setConditionInPlace_eq]
    refine @committed_induction s _ (fun s' => Covers _ s'.assignment) h fun s' hs' => ?_
    obtain ⟨_, _, _, _, _, _, rfl⟩ := setCondition_eq_ok hs'
    exact h
  | assign distribution indices =>
    rw [Call.perform, assignInPlace_eq]
    refine @committed_induction s _ (fun s' => Covers _ s'.assignment) h fun s' hs' => ?_
    obtain ⟨assignment, hassign, rfl⟩ := assign_eq_ok hs'
    exact h.assign hp (hcall distribution indices rfl) hassign
  | setSeed seed => exact h
  | samples other n =>
    rw [outcome_samples]
    exact h
  | samplesFrom generator other n =>
    rw [outcome_samplesFrom]
    exact h

/-- A run of calls leaves every parameter in one group. -/
theorem Covers.after {s : Space} (h : Covers s.scope.parameters s.assignment)
    (hp : ∀ p ∈ s.scope.parameters, p.domain.defaultLaw?.isSome) {calls : List Call}
    (hcalls : ∀ call ∈ calls, call.AssignsMade) :
    Covers s.scope.parameters (s.after calls).assignment := by
  induction calls generalizing s with
  | nil => exact h
  | cons call calls ih =>
    obtain ⟨hcall, hcalls⟩ := List.forall_mem_cons.1 hcalls
    have hframe := toFrame_perform s call
    have hnext := h.perform hp hcall
    rw [← hframe] at hp hnext
    have hrest := ih hnext hp hcalls
    rw [hframe] at hrest
    exact hrest

/-- The parameters of a space that has been built are those of its description, all of them can be
drawn, and each is in one group. -/
theorem covers_of_build {id : Nat} {d : Description} {s : Space} (h : build id d = .ok s) :
    s.scope.parameters = d.parameters ∧
      (∀ p ∈ s.scope.parameters, p.domain.defaultLaw?.isSome) ∧
      Covers s.scope.parameters s.assignment := by
  have hbuilds := build_eq_ok_iff.1 h
  have hparameters : s.scope.parameters = d.parameters := parameters_of_ofList hbuilds.scope
  have hp : ∀ p ∈ s.scope.parameters, p.domain.defaultLaw?.isSome := by
    intro p hp
    rw [hparameters] at hp
    have hnot := List.find?_eq_none.1 hbuilds.find?_isText p hp
    cases hdomain : p.domain with
    | text => exact absurd (by rw [isText, hdomain]) hnot
    | _ => rfl
  refine ⟨hparameters, hp, covers_ofParameters hp ?_⟩
  rw [hparameters]
  exact hbuilds.assignment

/-- States of a space with the same conditions have the same graph. -/
theorem Consistent.graph_eq {s t : Space} (hs : s.Consistent) (ht : t.Consistent)
    (hframe : t.toFrame = s.toFrame) (hconditions : t.conditions = s.conditions) :
    t.graph = s.graph := by
  have hgraph := ht.graph
  rw [hframe, hconditions, hs.graph] at hgraph
  exact (Except.ok.inj hgraph).symm

/-- The check of a vector depends only on the frame, the conditions and the graph. -/
theorem isValid_congr {s t : Space} (hframe : t.toFrame = s.toFrame)
    (hconditions : t.conditions = s.conditions) (hgraph : t.graph = s.graph)
    (values : List Value) : t.isValid values = s.isValid values := by
  have hfirst : ∀ order, t.firstViolation? values order = s.firstViolation? values order := by
    intro order
    induction order with
    | nil => rfl
    | cons i order ih => simp only [firstViolation?, hframe, hconditions, ih]
  simp only [isValid, violation?, hfirst, hframe, hgraph]

/-! ## Drawing -/

/-- The configurations drawn from a table that covers the parameters are as many as are wanted, and
they are valid. -/
theorem Covers.always_configurations {s : Space} {a : Assignment}
    (h : Covers s.scope.parameters a) (hs : s.Consistent)
    (hdomains : ∀ p ∈ s.scope.parameters, ∀ r, p.domain ≠ .floats r)
    (hlaws : ∀ group ∈ a.groups, group.distribution.law.OfIntegers) (n : Nat) :
    Sampler.Always (samplesWith.configurations s n a) fun cs =>
      cs.length = n ∧ ∀ c ∈ cs, c.frame = s.toFrame ∧ s.isValid c.values = .ok true := by
  obtain ⟨order, hthreads⟩ := h
  have hgraph := DependencyGraph.follows_of_ofConditions hs.graph
  rw [samplesWith.configurations]
  split
  · next hzero => exact Sampler.always_pure ⟨hzero.symm, fun c hc => nomatch hc⟩
  · rw [draw]
    generalize attemptsPerValue * n = budget
    have hcollect : Sampler.Always (s.collectFrom a n budget budget []) fun vectors =>
        vectors.length = n ∧ ∀ values ∈ vectors, s.isValid values = .ok true :=
      always_collectFrom hgraph hthreads hdomains hlaws n budget budget (Nat.zero_le n)
        fun values hvalues => nomatch hvalues
    refine hcollect.bind fun vectors hvectors => ?_
    obtain ⟨hlength, hvalid⟩ := hvectors
    refine Sampler.always_pure ⟨by rw [List.length_map, hlength], fun c hc => ?_⟩
    obtain ⟨values, hvalues, rfl⟩ := List.mem_map.1 hc
    exact ⟨rfl, hvalid values hvalues⟩

/-- The configurations drawn from a space's own laws or from others made for it are as many as are
wanted, and they are valid. -/
theorem Covers.always_samplesWith {s : Space} {other : Option OwnedAssignment}
    (h : Covers s.scope.parameters (s.tableOf other)) (hs : s.Consistent)
    (hdomains : ∀ p ∈ s.scope.parameters, ∀ r, p.domain ≠ .floats r)
    (hlaws : ∀ group ∈ (s.tableOf other).groups, group.distribution.law.OfIntegers) (n : Nat) :
    Sampler.Always (s.samplesWith other n) fun cs =>
      cs.length = n ∧ ∀ c ∈ cs, c.frame = s.toFrame ∧ s.isValid c.values = .ok true := by
  cases other with
  | none => exact h.always_configurations hs hdomains hlaws n
  | some o =>
    rw [samplesWith]
    split
    · exact Sampler.always_throw
    · exact h.always_configurations hs hdomains hlaws n

/-- In every state of a space whose parameters are ranges of integers or listed sets, a draw from
laws of integers that succeeds gives just as many configurations as are wanted, and each of them is
valid then and at any later time at which the conditions are the same. -/
theorem valid_of_samplesWith {id : Nat} {d : Description} {s : Space} (hbuild : build id d = .ok s)
    (hdomains : ∀ p ∈ d.parameters, ∀ r, p.domain ≠ .floats r) {calls : List Call}
    (hcalls : ∀ call ∈ calls, call.AssignsMade) {other : Option OwnedAssignment}
    (hother : ∀ o, other = some o → MadeFor s.toFrame o)
    (hlaws : ∀ group ∈ ((s.after calls).tableOf other).groups,
      group.distribution.law.OfIntegers)
    {n : Nat} {g g' : Generator} {cs : List Configuration}
    (h : ((s.after calls).samplesWith other n).run.run g = (.ok cs, g')) :
    cs.length = n ∧ ∀ c ∈ cs, ∀ later : List Call,
      ((s.after calls).after later).conditions = (s.after calls).conditions →
        ((s.after calls).after later).checkConfiguration c = .ok true := by
  obtain ⟨hparameters, hp, hown⟩ := covers_of_build hbuild
  have hconsistent := (consistent_of_build hbuild).after calls
  have hframe := toFrame_after s calls
  rw [← hparameters] at hdomains
  have hcovers : Covers s.scope.parameters ((s.after calls).tableOf other) := by
    cases other with
    | none => exact hown.after hp hcalls
    | some o => exact ((hother o rfl).covers hp).2
  rw [← hframe] at hdomains hcovers
  obtain ⟨hlength, hcs⟩ :=
    hcovers.always_samplesWith hconsistent hdomains hlaws n g cs (congrArg Prod.fst h)
  refine ⟨hlength, fun c hc later hconditions => ?_⟩
  obtain ⟨howner, hvalid⟩ := hcs c hc
  have hlater := toFrame_after (s.after calls) later
  have hgraph := hconsistent.graph_eq (hconsistent.after later) hlater hconditions
  rw [checkConfiguration, if_neg (Decidable.not_not.2 (by rw [howner, hlater])),
    isValid_congr hlater hconditions hgraph, hvalid]

/-- Two configurations of the space with a condition and a clause, drawn from laws that have been
made for it after some calls on it. -/
theorem valid_of_samplesWith_bounded :
    ∃ s o cs g', build 0 bounded = .ok s ∧ OwnedAssignment.ofFrame s.toFrame = .ok o ∧
      ((s.after boundedCalls).samplesWith (some o) 2).run.run ⟨5⟩ = (.ok cs, g') ∧
      cs.length = 2 ∧ ∀ c ∈ cs, ∀ later : List Call,
        ((s.after boundedCalls).after later).conditions = (s.after boundedCalls).conditions →
          ((s.after boundedCalls).after later).checkConfiguration c = .ok true := by
  have hdomains : ∀ p ∈ bounded.parameters, ∀ r, p.domain ≠ .floats r := by
    intro p hp r hr
    rcases List.mem_pair.1 hp with rfl | rfl <;> cases hr
  have hcalls : ∀ call ∈ boundedCalls, call.AssignsMade := by
    intro call hcall distribution indices hassign
    subst hassign
    have hmem : distribution = Assignment.twoNumbers ∧ indices = [1] := by
      simpa [boundedCalls] using hcall
    rw [hmem.1]
    exact Assignment.made_twoNumbers
  have hruns : (build 0 bounded).toOption.any (fun s =>
      (OwnedAssignment.ofFrame s.toFrame).toOption.any fun o =>
        decide (∀ group ∈ o.assignment.groups, group.distribution.law.OfIntegers) &&
          (((s.after boundedCalls).samplesWith (some o) 2).run.run ⟨5⟩).1.toOption.any
            fun _ => true) = true := by
    decide +kernel
  obtain ⟨s, hs, hruns⟩ := exists_ok_of_any hruns
  obtain ⟨o, ho, hruns⟩ := exists_ok_of_any hruns
  rw [Bool.and_eq_true] at hruns
  obtain ⟨cs, hcs, -⟩ := exists_ok_of_any hruns.2
  have hother : ∀ o', some o = some o' → MadeFor s.toFrame o' := by
    intro o' ho'
    cases ho'
    exact .ofFrame ho
  exact ⟨s, o, cs, _, hs, ho, Prod.ext hcs rfl,
    valid_of_samplesWith hs hdomains hcalls hother (of_decide_eq_true hruns.1) (Prod.ext hcs rfl)⟩

end SearchSpace.Space
