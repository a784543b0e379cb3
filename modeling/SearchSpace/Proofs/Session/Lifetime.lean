import SearchSpace.Proofs.Space.Consistency
import SearchSpace.Proofs.Space.Sampling
import SearchSpace.Proofs.Session.Handles

/-!
# The lifetime of a space

A run of a session is a list of `Action`s: something is made and given a handle, what has a handle
is given another one, what exists is changed, a callback is registered, or a handle is taken away.
An action that fails gives no handle.

After each run a space can be had from a weak handle just if it has an owner, and its callbacks run
with the action that takes the last owner away, all of them and in the order of their registration
(`lives_with_its_owners`), and taking a handle away reports just these (`fired_of_drop?`). A space
that has lost its last owner does not get one again (`kept_of_perform`).
-/

namespace SearchSpace

open Rejection (Sampler)

/-- The configurations drawn are of the space. -/
theorem Space.always_frame_samplesWith (s : Space) (other : Option OwnedAssignment) (n : Nat) :
    Sampler.Always (s.samplesWith other n) fun cs => ∀ c ∈ cs, c.frame = s.toFrame := by
  have hdrawn : ∀ a, Sampler.Always (samplesWith.configurations s n a) fun cs =>
      ∀ c ∈ cs, c.frame = s.toFrame := by
    intro a
    rw [samplesWith.configurations]
    split
    · exact Sampler.always_pure (List.forall_mem_nil _)
    · have hany : Sampler.Always (s.draw a n) fun _ => True := fun _ _ _ => trivial
      refine hany.bind fun vectors _ => Sampler.always_pure fun c hc => ?_
      obtain ⟨values, -, rfl⟩ := List.mem_map.1 hc
      rfl
  cases other with
  | none => exact hdrawn _
  | some o =>
    rw [samplesWith]
    split
    · exact Sampler.always_throw
    · exact hdrawn _

namespace Session

open Resource

/-! ## Actions -/

/-- Whether something has nothing to do with spaces. -/
def isApart : Entity → Bool
  | .parameter _ | .scope _ | .expr _ | .distribution _ | .generator _ => true
  | .space _ | .weak _ | .assignment _ | .configuration _ => false

/-- What can be done in a session. What an action makes gets the handle `name`, and `source` is a
handle of what it is made of. -/
inductive Action where
  /-- Makes a parameter. -/
  | parameter (name text : String) (d : Parameter.Description)
  /-- Makes a law that can be told apart. -/
  | law (name : String) (law : Law)
  /-- Gives a handle to something that has nothing to do with spaces. -/
  | hold (name : String) (entity : Entity)
  /-- Makes a space. -/
  | build (name : String) (d : Space.Description)
  /-- Gives another handle to what has one. -/
  | clone (name source : String)
  /-- Gives a handle to the space that a configuration is of, or laws are for. -/
  | owner (name source : String)
  /-- Gives a weak handle to a space. -/
  | downgrade (name source : String)
  /-- Gives a handle to the space of a weak handle. -/
  | upgrade (name source : String)
  /-- Makes the configuration of the default values. -/
  | defaults (name source : String)
  /-- Makes a configuration of given values. -/
  | configuration (name source : String) (values : List Value)
  /-- Draws configurations from the space's own generator, with its own laws or with laws that have
  a handle. The first ones drawn get handles. -/
  | samples (names : List String) (source : String) (laws : Option String) (n : Nat)
  /-- Draws configurations from another generator. -/
  | samplesFrom (names : List String) (source : String) (generator : Generator)
      (laws : Option String) (n : Nat)
  /-- Makes laws kept apart from a space. -/
  | assignment (name source : String)
  /-- Changes laws kept apart from a space. -/
  | assign (source : String) (distribution : Distribution) (indices : List Nat)
  /-- Changes a space. -/
  | change (source : String) (call : Space.Call)
  /-- Registers a callback on a parameter or a space. -/
  | onDestroy (source tag : String)
  /-- Takes a handle away. -/
  | drop (name : String)

/-- Gives handles to configurations, one after the other. -/
def putAll (s : Session) (named : List (String × Configuration)) : Session :=
  named.foldl (fun s (name, c) => s.put name (.configuration c)) s

/-- The laws to draw from: none if those of the space are meant. -/
def laws? (s : Session) : Option String → Option (Option OwnedAssignment)
  | none => some none
  | some name => (s.assignment? name).map fun (_, a) => some a

/-- The session after an action, if that succeeds. -/
def perform? (s : Session) : Action → Option Session
  | .parameter name text d => do
    let (p, s) ← (s.newParameter text d).toOption
    pure (s.put name (.parameter p))
  | .law name law =>
    let (d, s) := s.newDistribution law
    pure (s.put name (.distribution d))
  | .hold name entity => if isApart entity then pure (s.put name entity) else none
  | .build name d => do
    let (_, s) ← (s.newSpace name d).toOption
    pure s
  | .clone name source => do
    let entity ← s.find? source
    pure (s.put name entity)
  | .owner name source => do
    let entity ← s.find? source
    let id ← s.kept? entity
    pure (s.put name (.space id))
  | .downgrade name source => do
    let space ← s.space? source
    pure (s.put name (.weak space.id))
  | .upgrade name source => do
    let id ← s.weak? source
    let space ← (s.upgrade id).toOption
    pure (s.put name (.space space.id))
  | .defaults name source => do
    let space ← s.space? source
    let c ← space.defaultConfiguration.toOption
    pure (s.put name (.configuration c))
  | .configuration name source values => do
    let space ← s.space? source
    let c ← (Configuration.ofValues space.toFrame values).toOption
    pure (s.put name (.configuration c))
  | .samples names source laws n => do
    let space ← s.space? source
    let other ← s.laws? laws
    let (result, space) := space.samples other n
    pure ((s.updateSpace space).putAll (names.zip (result.toOption.getD [])))
  | .samplesFrom names source generator laws n => do
    let space ← s.space? source
    let other ← s.laws? laws
    let result := ((space.samplesWith other n).run.run generator).1
    pure (s.putAll (names.zip (result.toOption.getD [])))
  | .assignment name source => do
    let space ← s.space? source
    let (_, s) ← (s.newAssignment name space.toFrame).toOption
    pure s
  | .assign source distribution indices => do
    let (id, a) ← s.assignment? source
    let a ← (a.assign distribution indices).toOption
    pure (s.updateAssignment id a)
  | .change source call => do
    let space ← s.space? source
    pure (s.updateSpace (call.perform.outcome space).2)
  | .onDestroy source tag => do
    let r ← s.resource? source
    pure (s.onDestroy r tag)
  | .drop name => do
    let (_, s) ← s.drop? name
    pure s

/-- The session after an action, which stays as it is if the action fails. -/
def perform (s : Session) (action : Action) : Session :=
  (s.perform? action).getD s

/-- The session after some actions. -/
def after (actions : List Action) : Session :=
  actions.foldl perform empty

/-- The tags of the callbacks that an action registers on a space. -/
def Action.registers (s : Session) (id : Nat) : Action → List String
  | .onDestroy source tag => if s.resource? source = some (.space id) then [tag] else []
  | _ => []

/-- The tags of the callbacks that are registered on a space, action after action. -/
def registeredFrom (id : Nat) (s : Session) : List Action → List String
  | [] => []
  | action :: actions => action.registers s id ++ registeredFrom id (s.perform action) actions

/-- The tags of the callbacks that are registered on a space in a run. -/
def registered (id : Nat) (actions : List Action) : List String :=
  registeredFrom id empty actions

/-! ## What an action keeps -/

variable {s s' : Session} {gone : Nat → Prop} {tags : Nat → List String}

/-- What has nothing to do with spaces only holds parameters. -/
theorem isParameter_of_isApart {entity : Entity} (h : isApart entity = true) :
    ∀ r ∈ heldBy entity, r.IsParameter := by
  intro r hr
  cases r with
  | parameter => trivial
  | space id =>
    rcases space_mem_heldBy.1 hr with rfl | ⟨c, rfl, -⟩
    · cases h
    · cases h
  | assignment id =>
    rw [assignment_mem_heldBy.1 hr] at h
    cases h

/-- Something that has nothing to do with spaces is given a handle. -/
theorem Living.putApart {name : String} {entity : Entity} (h : Living s [] gone tags)
    (hentity : isApart entity = true) : Living (s.put name entity) [] gone tags :=
  h.put fun r hr => .inl (isParameter_of_isApart hentity r hr)

/-- Something that holds a space, to which there are references already, is given a handle. -/
theorem Living.putOwner {name : String} {entity : Entity} {id : Nat} (h : Living s [] gone tags)
    (hentity : heldBy entity = [.space id]) (hid : s.strong (.space id) ≠ 0) :
    Living (s.put name entity) [] gone tags := by
  refine h.put fun r hr => ?_
  rw [hentity] at hr
  cases List.mem_singleton.1 hr
  exact .inr hid

/-- Configurations of a space that has references are given handles. The first of them keeps it for
the others. -/
theorem Living.putAll {named : List (String × Configuration)} {id : Nat}
    (h : Living s [] gone tags) (hid : s.strong (.space id) ≠ 0)
    (hnamed : ∀ e ∈ named, e.2.frame.id = id) : Living (s.putAll named) [] gone tags := by
  induction named generalizing s with
  | nil => exact h
  | cons e named ih =>
    obtain ⟨name, c⟩ := e
    have hc : c.frame.id = id := hnamed (name, c) List.mem_cons_self
    have hput : Living (s.put name (.configuration c)) [] gone tags :=
      h.putOwner rfl (hc ▸ hid)
    have hheld := hput.toSound.backed_of_find? (find?_put_self s name (.configuration c))
    exact ih hput (hc ▸ (hheld _ List.mem_cons_self).space) fun e he =>
      hnamed e (List.mem_cons_of_mem _ he)

/-- All configurations that get handles are of the frame that those drawn have. -/
theorem frame_of_mem_zip (names : List String) {result : Except Error (List Configuration)}
    {frame : Frame} (h : ∀ cs, result = .ok cs → ∀ c ∈ cs, c.frame = frame) :
    ∀ e ∈ names.zip (result.toOption.getD []), e.2.frame.id = frame.id := by
  intro e he
  have hmem := (List.of_mem_zip he).2
  cases result with
  | error => cases hmem
  | ok cs => rw [h cs rfl e.2 hmem]

/-- The laws that a handle names have the identity that it names. -/
theorem assignmentOfId?_of_assignment? {name : String} {id : Nat} {a : OwnedAssignment}
    (h : s.assignment? name = some (id, a)) : s.assignmentOfId? id = some a := by
  unfold assignment? at h
  split at h
  · obtain ⟨b, hb, hab⟩ := Option.map_eq_some_iff.1 h
    cases hab
    exact hb
  · cases h

/-- What a handle names can have callbacks. -/
theorem Sound.backed_of_resource? (h : Sound s []) {name : String} {r : Resource}
    (hr : s.resource? name = some r) : s.Backed r := by
  unfold resource? at hr
  split at hr
  · cases hr
    exact .inl trivial
  · next id hfind =>
    cases hr
    exact h.backed_of_find? hfind _ List.mem_cons_self
  · cases hr

/-- An action other than a registration keeps what it has to. -/
theorem Living.perform? {action : Action} (h : Living s [] gone tags)
    (haction : ∀ source tag, action ≠ .onDestroy source tag)
    (hperform : s.perform? action = some s') : Living s' [] gone tags := by
  cases action with
  | parameter name text d =>
    obtain ⟨⟨p, t⟩, hnew, hs⟩ := Option.bind_eq_some_iff.1 hperform
    obtain ⟨_, -, ht⟩ := bind_eq_ok.1 (toOption_eq_some.1 hnew)
    cases ht
    cases hs
    exact h.next.putApart rfl
  | law name law =>
    cases hperform
    exact h.next.putApart rfl
  | hold name entity =>
    rw [Session.perform?] at hperform
    split at hperform
    · next hapart =>
      cases hperform
      exact h.putApart hapart
    · cases hperform
  | build name d =>
    obtain ⟨⟨space, t⟩, hnew, hs⟩ := Option.bind_eq_some_iff.1 hperform
    cases hs
    exact h.newSpace (toOption_eq_some.1 hnew)
  | clone name source =>
    obtain ⟨entity, hfind, hs⟩ := Option.bind_eq_some_iff.1 hperform
    cases hs
    exact h.put (h.toSound.backed_of_find? hfind)
  | owner name source =>
    obtain ⟨entity, hfind, hs⟩ := Option.bind_eq_some_iff.1 hperform
    obtain ⟨id, hkept, hs⟩ := Option.bind_eq_some_iff.1 hs
    cases hs
    have hentry := (lookup_eq_some_iff_mem h.names).1 hfind
    exact h.putOwner rfl (h.toSound.strong_ne_zero_iff_kept.2 ⟨_, hentry, hkept⟩)
  | downgrade name source =>
    obtain ⟨space, -, hs⟩ := Option.bind_eq_some_iff.1 hperform
    cases hs
    exact h.put fun r hr => nomatch hr
  | upgrade name source =>
    obtain ⟨id, -, hs⟩ := Option.bind_eq_some_iff.1 hperform
    obtain ⟨space, hspace, hs⟩ := Option.bind_eq_some_iff.1 hs
    cases hs
    rcases h.toSound.upgrade_cases id with ⟨hstrong, upgraded, hupgraded, hid⟩ | ⟨-, hfailed⟩
    · cases (toOption_eq_some.1 hspace).symm.trans hupgraded
      exact h.putOwner rfl (hid ▸ hstrong)
    · cases (toOption_eq_some.1 hspace).symm.trans hfailed
  | defaults name source =>
    obtain ⟨space, hspace, hs⟩ := Option.bind_eq_some_iff.1 hperform
    obtain ⟨c, hc, hs⟩ := Option.bind_eq_some_iff.1 hs
    cases hs
    obtain ⟨_, -, hc⟩ := bind_eq_ok.1 (toOption_eq_some.1 hc)
    cases hc
    exact h.putOwner rfl (h.toSound.strong_of_space? hspace)
  | configuration name source values =>
    obtain ⟨space, hspace, hs⟩ := Option.bind_eq_some_iff.1 hperform
    obtain ⟨c, hc, hs⟩ := Option.bind_eq_some_iff.1 hs
    cases hs
    have hc := toOption_eq_some.1 hc
    unfold Configuration.ofValues at hc
    split at hc
    · cases hc
      exact h.putOwner rfl (h.toSound.strong_of_space? hspace)
    · cases hc
  | samples names source laws n =>
    obtain ⟨space, hspace, hs⟩ := Option.bind_eq_some_iff.1 hperform
    obtain ⟨other, -, hs⟩ := Option.bind_eq_some_iff.1 hs
    have hdrawn : ∀ cs, (space.samples other n).1 = .ok cs → ∀ c ∈ cs, c.frame = space.toFrame :=
      space.always_frame_samplesWith other n space.generator
    generalize space.samples other n = drawn at hs hdrawn
    obtain ⟨result, left⟩ := drawn
    cases hs
    refine (h.updateSpace left).putAll ?_ (frame_of_mem_zip names hdrawn)
    rw [strong_updateSpace]
    exact h.toSound.strong_of_space? hspace
  | samplesFrom names source generator laws n =>
    obtain ⟨space, hspace, hs⟩ := Option.bind_eq_some_iff.1 hperform
    obtain ⟨other, -, hs⟩ := Option.bind_eq_some_iff.1 hs
    cases hs
    exact h.putAll (h.toSound.strong_of_space? hspace)
      (frame_of_mem_zip names (space.always_frame_samplesWith other n generator))
  | assignment name source =>
    obtain ⟨space, hspace, hs⟩ := Option.bind_eq_some_iff.1 hperform
    obtain ⟨⟨a, t⟩, hnew, hs⟩ := Option.bind_eq_some_iff.1 hs
    cases hs
    exact h.newAssignment (h.toSound.strong_of_space? hspace) (toOption_eq_some.1 hnew)
  | assign source distribution indices =>
    obtain ⟨⟨id, old⟩, hold, hs⟩ := Option.bind_eq_some_iff.1 hperform
    obtain ⟨a, ha, hs⟩ := Option.bind_eq_some_iff.1 hs
    cases hs
    obtain ⟨_, -, ha⟩ := bind_eq_ok.1 (toOption_eq_some.1 ha)
    cases ha
    exact h.updateAssignment (assignmentOfId?_of_assignment? hold) rfl
  | change source call =>
    obtain ⟨space, -, hs⟩ := Option.bind_eq_some_iff.1 hperform
    cases hs
    exact h.updateSpace _
  | onDestroy source tag => exact absurd rfl (haction source tag)
  | drop name =>
    obtain ⟨⟨ran, t⟩, hdrop, hs⟩ := Option.bind_eq_some_iff.1 hperform
    cases hs
    exact h.drop hdrop

/-! ## Runs -/

theorem perform_onDestroy {source : String} {r : Resource} (hr : s.resource? source = some r)
    (tag : String) : s.perform (.onDestroy source tag) = s.onDestroy r tag := by
  rw [Session.perform, Session.perform?, hr]
  rfl

/-- An action keeps what it has to, and registers what it says. -/
theorem Living.perform (h : Living s [] gone tags) (action : Action) :
    Living (s.perform action) [] gone fun id => tags id ++ action.registers s id := by
  by_cases haction : ∃ source tag, action = .onDestroy source tag
  · obtain ⟨source, tag, rfl⟩ := haction
    simp only [Action.registers]
    cases hr : s.resource? source with
    | none =>
      have hsame : s.perform (.onDestroy source tag) = s := by
        rw [Session.perform, Session.perform?, hr]
        rfl
      simpa [hsame] using h
    | some r =>
      simpa [perform_onDestroy hr] using h.onDestroy (h.toSound.backed_of_resource? hr) tag
  · have haction : ∀ source tag, action ≠ .onDestroy source tag :=
      fun source tag heq => haction ⟨source, tag, heq⟩
    have hnone : ∀ id, action.registers s id = [] := by
      intro id
      cases action with
      | onDestroy source tag => exact absurd rfl (haction source tag)
      | _ => rfl
    simp only [hnone, List.append_nil]
    rw [Session.perform]
    cases hperform : s.perform? action with
    | none => exact h
    | some s' => exact h.perform? haction hperform

/-- A run keeps what each of its actions keeps. -/
theorem Living.run (h : Living s [] gone tags) (actions : List Action) :
    Living (actions.foldl Session.perform s) [] gone fun id =>
      tags id ++ registeredFrom id s actions := by
  induction actions generalizing s tags with
  | nil =>
    simp only [registeredFrom, List.append_nil]
    exact h
  | cons action actions ih =>
    have hrest := ih (h.perform action)
    simp only [List.append_assoc] at hrest
    exact hrest

/-- Nothing has been made yet. -/
theorem living_empty : Living empty [] (fun _ => False) fun _ => [] where
  strong _ _ := rfl
  names := List.nodup_nil
  keys := List.nodup_nil
  keys_lt _ he := nomatch he
  spaces _ he := nomatch he
  made _ _ hstrong := absurd rfl hstrong
  known _ hstrong := absurd rfl hstrong
  settled _ := ⟨fun hstrong => absurd rfl hstrong, fun _ => ⟨rfl, rfl⟩⟩
  fresh _ _ := ⟨not_false, rfl⟩

/-- What holds after each run. -/
theorem living_after (actions : List Action) :
    Living (after actions) [] (fun _ => False) fun id => registered id actions :=
  living_empty.run actions

/-- A space without references is gone from now on. -/
theorem Living.recall (h : Living s [] gone tags) :
    Living s [] (fun id => id < s.made ∧ s.strong (.space id) = 0) tags :=
  { h with
    settled := fun id =>
      ⟨fun hstrong => ⟨fun hgone => hstrong hgone.2, ((h.settled id).alive hstrong).2⟩,
        (h.settled id).dead⟩
    fresh := fun id hid => ⟨fun hgone => Nat.not_lt.2 hid hgone.1, (h.fresh id hid).2⟩ }

/-- A space that has lost its last owner does not get one again. -/
theorem kept_of_perform (actions : List Action) (action : Action) {id : Nat}
    (h : ((after actions).perform action).Kept id) :
    (after actions).Kept id ∨ (after actions).made ≤ id := by
  -- What is gone before the action is gone after it, so a space with an owner then is not gone.
  have hafter := living_after actions
  have hperform := hafter.recall.perform action
  have hnot := ((hperform.settled id).alive (hperform.toSound.strong_ne_zero_iff_kept.2 h)).1
  rw [← hafter.toSound.strong_ne_zero_iff_kept]
  omega

/-- Callbacks can only be registered on a space that has an owner, and it keeps that. -/
theorem Living.kept_of_registers (h : Living s [] gone tags) {action : Action} {id : Nat}
    (hregisters : action.registers s id ≠ []) : (s.perform action).Kept id := by
  cases action with
  | onDestroy source tag =>
    rw [Action.registers] at hregisters
    split at hregisters
    · next hr =>
      have hbacked := h.toSound.backed_of_resource? hr
      rw [perform_onDestroy hr]
      exact (h.onDestroy hbacked tag).toSound.strong_ne_zero_iff_kept.1 hbacked.space
    · exact absurd rfl hregisters
  | _ => exact absurd rfl hregisters

/-- The tags that have run are all that are registered on a space without an owner, and none of a
space that has one. -/
theorem Living.tagsIn_ran (h : Living s [] gone tags) (id : Nat) :
    (Resource.space id).tagsIn s.ran = if s.Kept id then [] else tags id := by
  split
  · next hkept => exact ((h.settled id).alive (h.toSound.strong_ne_zero_iff_kept.2 hkept)).2.1
  · next hkept =>
    rw [← h.toSound.strong_ne_zero_iff_kept, not_not] at hkept
    exact ((h.settled id).dead hkept).1

/-- With an action that takes the last owner of a space away all its callbacks run, in the order of
their registration, and with any other action none of them. -/
theorem tagsIn_ran_perform (actions : List Action) (action : Action) (id : Nat) :
    (Resource.space id).tagsIn ((after actions).perform action).ran =
      (Resource.space id).tagsIn (after actions).ran ++
        if (after actions).Kept id ∧ ¬((after actions).perform action).Kept id then
          registered id actions
        else [] := by
  have hafter := living_after actions
  rw [(hafter.perform action).tagsIn_ran id, hafter.tagsIn_ran id]
  by_cases hlater : ((after actions).perform action).Kept id
  · -- An owner afterwards is one before, or the space is made just now and has no callbacks.
    have hstays : ¬((after actions).Kept id ∧ ¬((after actions).perform action).Kept id) :=
      fun hlost => hlost.2 hlater
    rw [if_pos hlater, if_neg hstays, List.append_nil]
    rcases kept_of_perform actions action hlater with hkept | hmade
    · rw [if_pos hkept]
    · rw [(hafter.fresh id hmade).2, ite_self]
  · -- Without an owner afterwards the action has registered nothing.
    have hnone : action.registers (after actions) id = [] :=
      by_contra fun hregisters => hlater (hafter.kept_of_registers hregisters)
    rw [if_neg hlater, hnone, List.append_nil]
    by_cases hkept : (after actions).Kept id
    · rw [if_pos hkept, if_pos ⟨hkept, hlater⟩, List.nil_append]
    · have hstays : ¬((after actions).Kept id ∧ ¬((after actions).perform action).Kept id) :=
        fun hlost => hkept hlost.1
      rw [if_neg hkept, if_neg hstays, List.append_nil]

/-- The tags given for a handle that is taken away are those of callbacks that run then: of a space
that loses its last owner all, and of any other one none. -/
theorem fired_of_drop? (actions : List Action) {name : String} {tags : List String} {s' : Session}
    (h : (after actions).drop? name = some (tags, s')) :
    ∃ fired, s'.ran = (after actions).ran ++ fired ∧ tags = fired.map (·.2) ∧
      ∀ id, (Resource.space id).tagsIn fired =
        if (after actions).Kept id ∧ ¬s'.Kept id then registered id actions else [] := by
  obtain ⟨fired, hran, htags⟩ := ran_of_drop? h
  refine ⟨fired, hran, htags, fun id => ?_⟩
  have hperform : (after actions).perform (.drop name) = s' := by
    rw [perform, perform?, h]
    rfl
  have hstep := tagsIn_ran_perform actions (.drop name) id
  rw [hperform, hran, tagsIn_append] at hstep
  exact List.append_cancel_left hstep

/-- After every run, a space can be had from a weak handle just if it has an owner: a handle of the
space, a configuration of it, or laws kept for it. None of its callbacks has run as long as it has
one, and all of them once it has none. Whatever is done next, they run just if that takes the last
owner away, in the order of their registration. -/
theorem lives_with_its_owners (actions : List Action) (id : Nat) :
    ((∃ space, (after actions).upgrade id = .ok space ∧ space.id = id) ↔
        (after actions).Kept id) ∧
      ((after actions).upgrade id = .error (.invalidObject .spaceDropped) ↔
        ¬(after actions).Kept id) ∧
      (Resource.space id).tagsIn (after actions).ran =
        (if (after actions).Kept id then [] else registered id actions) ∧
      ∀ action, (Resource.space id).tagsIn ((after actions).perform action).ran =
        (Resource.space id).tagsIn (after actions).ran ++
          if (after actions).Kept id ∧ ¬((after actions).perform action).Kept id then
            registered id actions
          else [] := by
  have hafter := living_after actions
  refine ⟨?_, ?_, hafter.tagsIn_ran id, fun action => tagsIn_ran_perform actions action id⟩
  · rw [← hafter.toSound.strong_ne_zero_iff_kept]
    rcases hafter.toSound.upgrade_cases id with ⟨hstrong, hupgrade⟩ | ⟨hstrong, hupgrade⟩
    · exact iff_of_true hupgrade hstrong
    · exact iff_of_false (fun ⟨_, hok, _⟩ => nomatch hupgrade.symm.trans hok) (absurd hstrong)
  · rw [← hafter.toSound.strong_ne_zero_iff_kept, not_not]
    rcases hafter.toSound.upgrade_cases id with ⟨hstrong, _, hok, _⟩ | ⟨hstrong, hupgrade⟩
    · exact iff_of_false (fun herror => nomatch herror.symm.trans hok) hstrong
    · exact iff_of_true hupgrade hstrong

/-- A space that is left to laws kept apart from it, after its handle and a configuration of it have
been taken away. -/
def passedOn : List Action :=
  [.build "space" Space.bounded, .downgrade "weak" "space", .onDestroy "space" "first",
    .assignment "laws" "space", .defaults "configuration" "space", .onDestroy "space" "second",
    .drop "space", .drop "configuration"]

example : (after passedOn).Kept 0 ∧ (after passedOn).ran = [] ∧
    ((after passedOn).perform (.drop "laws")).ran =
      [(.space 0, "first"), (.space 0, "second")] := by
  decide +kernel

end Session

end SearchSpace
