import Mathlib.Data.List.Sort
import SearchSpace.Proofs.Assignment.Representation
import SearchSpace.Proofs.Space.Call

/-!
# Assigning a law, on the list of groups

Slots, links and recorded places are there for speed; what an assignment means is the list of its
groups, and the law of a parameter is to be found there (`Threads.lawAt_eq_ok_iff`). Giving
parameters a law together is said without the representation too: `Refused` is when it is not done,
and `Regrouped` what it does to the groups and to the law of each parameter. In every state that
calls lead to, a call fails just if it is refused, and then leaves everything as it was, and what a
call that succeeds leaves behind is regrouped (`assign_regroups`).
-/

namespace SearchSpace.Assignment

variable {parameters : List Parameter} {a : Assignment} {order : List Nat}

/-! ## Refusing -/

/-- Some places and a law cannot form a group: the number of places is not the dimension of the law,
or else a place is that of no parameter, or else a place is given twice. -/
inductive Refused (parameters : List Parameter) (distribution : Distribution)
    (indices : List Nat) : Error → Prop where
  | count (hcount : indices.length ≠ distribution.law.dimension) :
    Refused parameters distribution indices
      (.invalidValue (.indexCount distribution.law.dimension indices.length))
  | outside (hcount : indices.length = distribution.law.dimension) {front back : List Nat} {i : Nat}
      (hindices : indices = front ++ i :: back) (hfront : ∀ j ∈ front, j < parameters.length)
      (hi : parameters.length ≤ i) :
    Refused parameters distribution indices (.outOfBounds i parameters.length)
  | repeated (hcount : indices.length = distribution.law.dimension)
      (hinside : ∀ i ∈ indices, i < parameters.length) (hrepeated : ¬indices.Nodup) :
    Refused parameters distribution indices (.invalidValue (.repeatedIndex indices))

/-- What forbids a group is why it is refused. -/
theorem fault?_eq_some_iff {distribution : Distribution} {indices : List Nat} {e : Error} :
    fault? parameters distribution indices = some e ↔
      Refused parameters distribution indices e := by
  constructor
  · intro hfault
    rw [fault?] at hfault
    split at hfault
    · next hcount =>
      cases hfault
      exact .count hcount
    · next hcount =>
      have hcount := Decidable.not_not.1 hcount
      split at hfault
      · next i hfind =>
        cases hfault
        obtain ⟨hi, front, back, hindices, hfront⟩ := List.find?_eq_some_iff_append.1 hfind
        refine .outside hcount hindices (fun j hj => ?_) (of_decide_eq_true hi)
        simpa using hfront j hj
      · next hfind =>
        have hinside : ∀ i ∈ indices, i < parameters.length := by
          simpa using List.find?_eq_none.1 hfind
        split at hfault
        · next hlength =>
          cases hfault
          refine .repeated hcount hinside fun hnodup => hlength ?_
          exact (DependencyGraph.perm_ascending hnodup).length_eq
        · cases hfault
  · intro hrefused
    cases hrefused with
    | count hcount => rw [fault?, if_pos hcount]
    | @outside hcount front back i hindices hfront hi =>
      have hfind : indices.find? (parameters.length ≤ ·) = some i := by
        refine List.find?_eq_some_iff_append.2 ⟨decide_eq_true hi, front, back, hindices, ?_⟩
        intro j hj
        simpa using hfront j hj
      rw [fault?, if_neg (Decidable.not_not.2 hcount), hfind]
    | repeated hcount hinside hrepeated =>
      have hfind : indices.find? (parameters.length ≤ ·) = none := by
        simpa using hinside
      rw [fault?, if_neg (Decidable.not_not.2 hcount), hfind]
      exact if_pos fun hlength => hrepeated (DependencyGraph.nodup_of_length_ascending hlength)

/-! ## The list of groups -/

/-- The groups are those in the slots of the list. -/
theorem Threads.groups_eq {bare : Nat → Prop} (h : Threads parameters a order bare) :
    a.groups = order.filterMap a.group? := by
  rw [groups, h.nodes_eq, List.map_filterMap]
  refine List.filterMap_congr fun s _ => ?_
  rw [group?, content?, Option.map_map]
  rfl

/-- A group of the list stands in a slot, and the other way round. -/
theorem Threads.mem_groups {bare : Nat → Prop} (h : Threads parameters a order bare)
    {group : Group} :
    group ∈ a.groups ↔ ∃ s checked, a.content? s = some (group, checked) := by
  rw [h.groups_eq, List.mem_filterMap]
  constructor
  · rintro ⟨s, -, hs⟩
    obtain ⟨⟨group', checked⟩, hc, rfl⟩ := Option.map_eq_some_iff.1 hs
    exact ⟨s, checked, hc⟩
  · rintro ⟨s, checked, hc⟩
    refine ⟨s, (h.mem_order s).2 ?_, by rw [group?, hc]; rfl⟩
    rw [← isSome_content?, hc]
    rfl

/-- The law of a parameter is that of the group in which it stands, and its dimension is where it
stands there. -/
theorem Threads.lawAt_eq_ok_iff (h : Threads parameters a order fun _ => False) {i d : Nat}
    {distribution : Distribution} :
    a.lawAt i = .ok (distribution, d) ↔
      ∃ group ∈ a.groups, group.distribution = distribution ∧ group.indices[d]? = some i := by
  constructor
  · intro hlaw
    rw [lawAt] at hlaw
    split at hlaw
    · cases hlaw
    · next s e hplace =>
      obtain ⟨group, checked, hc, hd⟩ := h.content?_of_places hplace id
      obtain ⟨node, hnode, rfl, -⟩ := node?_of_content? hc
      rw [hnode] at hlaw
      cases hlaw
      exact ⟨node.toGroup, h.mem_groups.2 ⟨s, _, hc⟩, rfl, hd⟩
  · rintro ⟨group, hgroup, rfl, hd⟩
    obtain ⟨s, checked, hc⟩ := h.mem_groups.1 hgroup
    obtain ⟨node, hnode, rfl, -⟩ := node?_of_content? hc
    rw [lawAt, h.recorded hc hd]
    simp only [hnode]

/-- There is no law at a place that is that of no parameter. -/
theorem Threads.lawAt_eq_error {bare : Nat → Prop} (h : Threads parameters a order bare) {i : Nat}
    (hi : parameters.length ≤ i) : a.lawAt i = .error (.outOfBounds i parameters.length) := by
  have hplace : a.places[i]? = none := Array.getElem?_eq_none (h.size_places ▸ hi)
  rw [lawAt, hplace, h.size_places]

/-! ## Regrouping -/

/-- A group has one of some places. -/
def Meets (indices : List Nat) (group : Group) : Prop :=
  ∃ i ∈ group.indices, i ∈ indices

instance (indices : List Nat) : DecidablePred (Meets indices) :=
  fun group => inferInstanceAs (Decidable (∃ i ∈ group.indices, i ∈ indices))

/-- The places, ascending, that are left of the groups that have one of some places, when these are
taken away. -/
def remaining (groups : List Group) (indices : List Nat) : List Nat :=
  DependencyGraph.ascending
    (((groups.filter (Meets indices ·)).flatMap (·.indices)).filter (· ∉ indices))

/-- What remains of the groups that have one of some places. -/
theorem mem_remaining {groups : List Group} {indices : List Nat} {i : Nat} :
    i ∈ remaining groups indices ↔
      i ∉ indices ∧ ∃ group ∈ groups, Meets indices group ∧ i ∈ group.indices := by
  simp only [remaining, DependencyGraph.mem_ascending, List.mem_filter, List.mem_flatMap,
    decide_eq_true_eq, and_assoc]
  rw [and_comm]

/-- `a'` is `a` after the parameters at some places have been given a law together. The groups that
have none of the places stay, in their order, and the new one follows them; after it, each place
that remains of the other groups has a group of its own, with the default law. -/
structure Regrouped (parameters : List Parameter) (a : Assignment) (distribution : Distribution)
    (indices : List Nat) (a' : Assignment) : Prop where
  groups : ∃ own, List.Forall₂ (IsOwn parameters) (remaining a.groups indices) own ∧
    a'.groups = a.groups.filter (¬Meets indices ·) ++ ⟨distribution, indices⟩ :: own
  /-- The parameters have the law, each a dimension of it. -/
  law_new : ∀ i d, indices[d]? = some i → a'.lawAt i = .ok (distribution, d)
  /-- The parameters that remain have their default law. -/
  law_own : ∀ i ∈ remaining a.groups indices, ∃ p law, parameters[i]? = some p ∧
    Distribution.ofParameter p = .ok law ∧ a'.lawAt i = .ok (law, 0)
  /-- The others have the law that they had. -/
  law_other : ∀ i, i ∉ indices → i ∉ remaining a.groups indices → a'.lawAt i = a.lawAt i

/-- The places of the groups that parameters get of their own. -/
theorem map_indices_of_isOwn {places : List Nat} {own : List Group}
    (h : List.Forall₂ (IsOwn parameters) places own) :
    own.map (·.indices) = places.map ([·]) := by
  induction h with
  | nil => rfl
  | cons hgroup _ ih =>
    obtain ⟨p, law, -, -, rfl⟩ := hgroup
    rw [List.map_cons, List.map_cons, ih]

/-- The places of the groups after regrouping, from those before. -/
def regroup (places : List (List Nat)) (indices : List Nat) : List (List Nat) :=
  let met := (places.filter fun group => ∃ i ∈ group, i ∈ indices).flatten
  places.filter (fun group => ¬∃ i ∈ group, i ∈ indices) ++
    indices :: (DependencyGraph.ascending (met.filter (· ∉ indices))).map ([·])

/-- Which places are together depends on which were, and not on the laws. -/
theorem Regrouped.map_indices {a' : Assignment} {distribution : Distribution} {indices : List Nat}
    (h : Regrouped parameters a distribution indices a') :
    a'.groups.map (·.indices) = regroup (a.groups.map (·.indices)) indices := by
  obtain ⟨own, hown, hgroups⟩ := h.groups
  rw [hgroups, List.map_append, List.map_cons, map_indices_of_isOwn hown, regroup,
    List.filter_map, List.filter_map, remaining, List.flatMap]
  rfl

/-- A slot has to go if its group has one of the places. -/
theorem Threads.mem_overlapping_iff_meets (h : Threads parameters a order fun _ => False)
    {indices : List Nat} {s : Nat} {group : Group} {checked : List Bool}
    (hc : a.content? s = some (group, checked)) :
    s ∈ a.overlapping indices ↔ Meets indices group := by
  rw [h.mem_overlapping]
  constructor
  · rintro ⟨group', checked', hc', i, hi, hmem⟩
    cases hc.symm.trans hc'
    exact ⟨i, hmem, hi⟩
  · rintro ⟨i, hmem, hi⟩
    exact ⟨group, checked, hc, i, hi, hmem⟩

/-- The groups in the slots that stay are those that have none of the places. -/
theorem Threads.filterMap_diff (h : Threads parameters a order fun _ => False)
    (indices : List Nat) :
    (order.diff (a.overlapping indices)).filterMap a.group? =
      a.groups.filter (¬Meets indices ·) := by
  rw [h.groups_eq, h.nodup.sdiff_eq_filter, List.filterMap_filter, List.filter_filterMap]
  refine List.filterMap_congr fun s hs => ?_
  obtain ⟨node, hnode⟩ := Option.isSome_iff_exists.1 ((h.mem_order s).1 hs)
  have hc := content?_of_node? hnode
  simp only [group?, hc, Option.map_some, Option.filter_some, h.mem_overlapping_iff_meets hc,
    decide_eq_true_eq]

/-- The orphans are what remains of the groups that have one of the places. -/
theorem Threads.orphans_eq (h : Threads parameters a order fun _ => False) (indices : List Nat) :
    a.orphans indices = remaining a.groups indices := by
  have hsorted : (a.orphans indices).Pairwise fun i j => decide (i ≤ j) = true :=
    List.pairwise_mergeSort (fun i j k hij hjk => by grind) (fun i j => by grind) _
  have hascending : (a.orphans indices).Pairwise (· < ·) :=
    (hsorted.and (h.nodup_orphans indices)).imp fun hij =>
      Nat.lt_of_le_of_ne (of_decide_eq_true hij.1) hij.2
  refine hascending.eq_of_mem_iff (DependencyGraph.pairwise_ascending _) fun i => ?_
  rw [mem_orphans]
  refine Iff.trans ?_ mem_remaining.symm
  refine and_congr_right fun _ => ?_
  constructor
  · rintro ⟨s, hs, group, checked, hc, hi⟩
    exact ⟨group, h.mem_groups.2 ⟨s, checked, hc⟩, (h.mem_overlapping_iff_meets hc).1 hs, hi⟩
  · rintro ⟨group, hgroup, hmeets, hi⟩
    obtain ⟨s, checked, hc⟩ := h.mem_groups.1 hgroup
    exact ⟨s, (h.mem_overlapping_iff_meets hc).2 hmeets, group, checked, hc, hi⟩

/-- A law that is not refused is assigned, and leaves the groups regrouped. -/
theorem Threads.regrouped (h : Threads parameters a order fun _ => False)
    (hp : ∀ p ∈ parameters, p.domain.defaultLaw?.isSome) {distribution : Distribution}
    {indices : List Nat} (hmade : distribution.law.Made)
    (hfault : fault? parameters distribution indices = none) :
    ∃ a', a.assign parameters distribution indices = .ok a' ∧
      Regrouped parameters a distribution indices a' := by
  obtain ⟨a', ha', order', h', own, hown, hgroups⟩ := h.assign hp hmade hfault
  rw [← h'.groups_eq, h.filterMap_diff] at hgroups
  rw [h.orphans_eq] at hown
  have hmem : ∀ group, group ∈ a'.groups ↔ (group ∈ a.groups ∧ ¬Meets indices group) ∨
      group = ⟨distribution, indices⟩ ∨ group ∈ own := by
    intro group
    rw [hgroups, List.mem_append, List.mem_filter, List.mem_cons, decide_eq_true_eq]
  refine ⟨a', ha', ⟨own, hown, hgroups⟩, fun i d hd => ?_, fun i hi => ?_, fun i hnew hrest => ?_⟩
  · exact h'.lawAt_eq_ok_iff.2 ⟨_, (hmem _).2 (.inr (.inl rfl)), rfl, hd⟩
  · obtain ⟨k, hk, rfl⟩ := List.mem_iff_getElem.1 hi
    have hk' : k < own.length := hown.length_eq ▸ hk
    obtain ⟨p, law, hget, hlaw, heq⟩ := hown.get hk hk'
    refine ⟨p, law, hget, hlaw, h'.lawAt_eq_ok_iff.2 ⟨own[k], ?_, ?_⟩⟩
    · exact (hmem _).2 (.inr (.inr (List.getElem_mem hk')))
    · rw [List.get_eq_getElem] at heq
      rw [heq]
      exact ⟨rfl, rfl⟩
  · rcases Nat.lt_or_ge i parameters.length with hi | hi
    · -- the group of the parameter has none of the places, so it stays
      obtain ⟨s, group, checked, hc, hmem'⟩ := h.covered i hi id
      obtain ⟨d, hd⟩ := List.mem_iff_getElem?.1 hmem'
      have hgroup := h.mem_groups.2 ⟨s, checked, hc⟩
      have hkept : ¬Meets indices group := fun hmeets =>
        hrest (mem_remaining.2 ⟨hnew, group, hgroup, hmeets, hmem'⟩)
      rw [h.lawAt_eq_ok_iff.2 ⟨group, hgroup, rfl, hd⟩]
      exact h'.lawAt_eq_ok_iff.2 ⟨group, (hmem _).2 (.inl ⟨hgroup, hkept⟩), rfl, hd⟩
    · rw [h.lawAt_eq_error hi, h'.lawAt_eq_error hi]

/-- After every series of calls, giving the parameters at some places a law together fails just if
they cannot form a group, and then leaves a space with these laws as it was; if it succeeds, it
regroups the parameters. -/
theorem assign_regroups (hp : ∀ p ∈ parameters, p.domain.defaultLaw?.isSome)
    {start : Assignment} (hstart : ofParameters parameters = .ok start)
    {calls : List (Distribution × List Nat)} (hcalls : ∀ call ∈ calls, call.1.law.Made)
    (ha : run parameters start calls = a) {distribution : Distribution}
    (hmade : distribution.law.Made) (indices : List Nat) :
    (∀ e, a.assign parameters distribution indices = .error e ↔
        Refused parameters distribution indices e) ∧
      (∀ e, Refused parameters distribution indices e →
        ∀ s : Space, s.scope.parameters = parameters → s.assignment = a →
          (Space.assignInPlace distribution indices).outcome s = (.error e, s)) ∧
      ∀ a', a.assign parameters distribution indices = .ok a' →
        Regrouped parameters a distribution indices a' := by
  obtain ⟨a₀, ha₀, order₀, h₀⟩ := exists_ofParameters hp
  cases hstart.symm.trans ha₀
  obtain ⟨order, h⟩ := h₀.run hp hcalls
  rw [ha] at h
  have hrefused : ∀ e, Refused parameters distribution indices e →
      a.assign parameters distribution indices = .error e := by
    intro e he
    rw [assign, fault?_eq_some_iff.2 he]
  refine ⟨fun e => ⟨fun herror => ?_, hrefused e⟩, ?_, fun a' ha' => ?_⟩
  · cases hfault : fault? parameters distribution indices with
    | some e' =>
      have he' := fault?_eq_some_iff.1 hfault
      cases herror.symm.trans (hrefused e' he')
      exact he'
    | none =>
      obtain ⟨a', ha', -⟩ := h.regrouped hp hmade hfault
      cases herror.symm.trans ha'
  · rintro e he s rfl rfl
    rw [Space.assignInPlace_eq, Space.assign, hrefused e he]
    rfl
  · cases hfault : fault? parameters distribution indices with
    | some e =>
      cases ha'.symm.trans (hrefused e (fault?_eq_some_iff.1 hfault))
    | none =>
      obtain ⟨a'', ha'', hregrouped⟩ := h.regrouped hp hmade hfault
      cases ha'.symm.trans ha''
      exact hregrouped

/-- A law of one dimension. -/
def oneNumber : Distribution :=
  ⟨.made 3, .uniformInt ⟨2, 4, .linear, 0, by decide⟩⟩

/-- Two ranges that have been given a law together, of which the first is given another one, so that
the second has its default law again. -/
theorem assign_regroups_oneNumber :
    (∀ p ∈ twoRanges, p.domain.defaultLaw?.isSome) ∧
      (∀ call ∈ [(twoNumbers, [1, 0])], call.1.law.Made) ∧ oneNumber.law.Made ∧
      ∃ start a, ofParameters twoRanges = .ok start ∧
        run twoRanges start [(twoNumbers, [1, 0])] = a ∧
        (a.assign twoRanges oneNumber [0]).map (·.groups.map (·.indices)) = .ok [[0], [1]] ∧
        (∀ e, a.assign twoRanges oneNumber [0] = .error e ↔ Refused twoRanges oneNumber [0] e) ∧
        (∀ e, Refused twoRanges oneNumber [0] e →
          ∀ s : Space, s.scope.parameters = twoRanges → s.assignment = a →
            (Space.assignInPlace oneNumber [0]).outcome s = (.error e, s)) ∧
        ∀ a', a.assign twoRanges oneNumber [0] = .ok a' →
          Regrouped twoRanges a oneNumber [0] a' := by
  have hp : ∀ p ∈ twoRanges, p.domain.defaultLaw?.isSome := by decide
  have hcalls : ∀ call ∈ [(twoNumbers, [1, 0])], call.1.law.Made := by
    intro call hcall
    rw [List.mem_singleton.1 hcall]
    exact made_twoNumbers
  have hmade : oneNumber.law.Made := .uniformInt _
  obtain ⟨start, hstart, order, h⟩ := exists_ofParameters hp
  have hplaces : start.groups.map (·.indices) = [[0], [1]] := by
    have heval : (ofParameters twoRanges).map (·.groups.map (·.indices)) = .ok [[0], [1]] := rfl
    rw [hstart] at heval
    exact Except.ok.inj heval
  -- together the ranges leave nothing of the first groups, and one of them leaves the other
  obtain ⟨a, ha, htogether⟩ := h.regrouped hp made_twoNumbers
    (fault?_eq_none_iff.2 ⟨rfl, by decide, by decide⟩ : fault? twoRanges twoNumbers [1, 0] = none)
  have hrun : run twoRanges start [(twoNumbers, [1, 0])] = a := by
    rw [run, List.foldl_cons, List.foldl_nil, step, ha]
  obtain ⟨order', h'⟩ := h.run hp hcalls
  rw [hrun] at h'
  obtain ⟨a', ha', hapart⟩ := h'.regrouped hp hmade
    (fault?_eq_none_iff.2 ⟨rfl, by decide, by decide⟩ : fault? twoRanges oneNumber [0] = none)
  have hgroups : a'.groups.map (·.indices) = [[0], [1]] := by
    rw [hapart.map_indices, htogether.map_indices, hplaces]
    have hnone : regroup [[0], [1]] [1, 0] = [1, 0] :: (DependencyGraph.ascending []).map ([·]) :=
      rfl
    have hone : regroup [[1, 0]] [0] = [0] :: (DependencyGraph.ascending [1]).map ([·]) := rfl
    rw [hnone, DependencyGraph.ascending_eq_self List.Pairwise.nil, List.map_nil, hone,
      DependencyGraph.ascending_eq_self (List.pairwise_singleton _ 1)]
    rfl
  exact ⟨hp, hcalls, hmade, start, a, hstart, hrun, by rw [ha', Except.map, hgroups],
    assign_regroups hp hstart hcalls hrun hmade [0]⟩

end SearchSpace.Assignment
