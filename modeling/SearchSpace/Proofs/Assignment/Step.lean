import SearchSpace.Proofs.Assignment.Invariant
import SearchSpace.Proofs.DependencyGraph.Ascending

/-!
# Making and changing an assignment

Both operations of an assignment end by adding groups of their own for some parameters, with their
default laws (`Threads.foldlM_pushDefault`). At first these are all parameters
(`exists_ofParameters`). When a law is assigned, the groups that share a place with it are taken out
(`Threads.foldl_unlink`), its own group is added, and the parameters that are then still without a
group, the orphans, get their own (`Threads.assign`).
-/

namespace SearchSpace.Assignment

variable {parameters : List Parameter} {a : Assignment} {order : List Nat} {bare : Nat → Prop}

/-! ## Places -/

/-- Whether a place is bare matters only if there is a parameter. -/
theorem Threads.congr {bare' : Nat → Prop} (h : Threads parameters a order bare)
    (hiff : ∀ i < parameters.length, (bare i ↔ bare' i)) : Threads parameters a order bare' where
  nodup := h.nodup
  mem_order := h.mem_order
  first := h.first
  last := h.last
  linked := h.linked
  nodup_free := h.nodup_free
  mem_free := h.mem_free
  size_slots := h.size_slots
  size_places := h.size_places
  recorded := h.recorded
  covered := fun i hi hbare => h.covered i hi (mt (hiff i hi).1 hbare)
  not_bare := by
    intro s i group checked hc hi hbare
    obtain ⟨d, hd⟩ := List.mem_iff_getElem?.1 hi
    have hlt := (Array.getElem?_eq_some_iff.1 (h.recorded hc hd)).1
    rw [h.size_places] at hlt
    exact h.not_bare hc hi ((hiff i hlt).2 hbare)
  fits := h.fits

/-- The places of a group are places of parameters. -/
theorem Threads.lt_length (h : Threads parameters a order bare) {s i : Nat} {group : Group}
    {checked : List Bool} (hc : a.content? s = some (group, checked)) (hi : i ∈ group.indices) :
    i < parameters.length := by
  obtain ⟨d, hd⟩ := List.mem_iff_getElem?.1 hi
  rw [← h.size_places]
  exact (Array.getElem?_eq_some_iff.1 (h.recorded hc hd)).1

/-- A place stands in one group only. -/
theorem Threads.slot_unique (h : Threads parameters a order bare) {s t i : Nat}
    {group group' : Group} {checked checked' : List Bool}
    (hs : a.content? s = some (group, checked)) (ht : a.content? t = some (group', checked'))
    (hi : i ∈ group.indices) (hi' : i ∈ group'.indices) : s = t := by
  obtain ⟨d, hd⟩ := List.mem_iff_getElem?.1 hi
  obtain ⟨e, he⟩ := List.mem_iff_getElem?.1 hi'
  cases (h.recorded hs hd).symm.trans (h.recorded ht he)
  rfl

/-- A place stands once in its group. -/
theorem Threads.nodup_indices (h : Threads parameters a order bare) {s : Nat} {group : Group}
    {checked : List Bool} (hc : a.content? s = some (group, checked)) : group.indices.Nodup := by
  rw [List.nodup_iff_getElem?_ne_getElem?]
  intro d e hde he heq
  have hi := List.getElem?_eq_getElem he
  cases (h.recorded hc (heq.trans hi)).symm.trans (h.recorded hc hi)
  exact Nat.lt_irrefl d hde

/-- A place that is not bare is found in the group that it is recorded for. -/
theorem Threads.content?_of_places (h : Threads parameters a order bare) {i s d : Nat}
    (hplace : a.places[i]? = some (s, d)) (hbare : ¬bare i) :
    ∃ group checked, a.content? s = some (group, checked) ∧ group.indices[d]? = some i := by
  have hi : i < parameters.length := by
    rw [← h.size_places]
    exact (Array.getElem?_eq_some_iff.1 hplace).1
  obtain ⟨t, group, checked, hc, hmem⟩ := h.covered i hi hbare
  obtain ⟨e, he⟩ := List.mem_iff_getElem?.1 hmem
  cases hplace.symm.trans (h.recorded hc he)
  exact ⟨group, checked, hc, he⟩

/-- No place stands twice in the groups of different slots. -/
theorem Threads.nodup_flatMap_indices (h : Threads parameters a order bare) {slots : List Nat}
    (hslots : slots.Nodup) :
    (slots.flatMap fun s => (a.node? s).elim [] (·.indices)).Nodup := by
  refine List.nodup_flatMap.2 ⟨fun s _ => ?_, hslots.imp fun {s t} hne i hs ht => hne ?_⟩
  · cases hnode : a.node? s with
    | none => exact List.nodup_nil
    | some node => exact h.nodup_indices (content?_of_node? hnode)
  · dsimp only at hs ht
    cases hsnode : a.node? s with
    | none => rw [hsnode] at hs; cases hs
    | some node =>
      cases htnode : a.node? t with
      | none => rw [htnode] at ht; cases ht
      | some node' =>
        rw [hsnode] at hs
        rw [htnode] at ht
        exact h.slot_unique (content?_of_node? hsnode) (content?_of_node? htnode) hs ht

/-! ## Groups with default laws -/

/-- The default law of a parameter draws one number. -/
theorem defaultLaw_shape {domain : Domain} {law : Law} (h : domain.defaultLaw? = some law) :
    law.Made ∧ law.dimension = 1 := by
  cases domain with
  | ints r => cases h; exact ⟨.uniformInt _, rfl⟩
  | floats r => cases h; exact ⟨.uniformFloat _, rfl⟩
  | categorical s | ordinal s => cases h; exact ⟨.uniformInt _, rfl⟩
  | discrete s => cases h; exact ⟨.uniformInt _, rfl⟩
  | text => cases h

/-- A parameter that can be drawn gets a group of its own. -/
theorem Threads.pushDefault (h : Threads parameters a order bare) {p : Parameter} {i : Nat}
    (hp : p.domain.defaultLaw?.isSome) (hi : i < parameters.length) (hbare : bare i) :
    ∃ distribution, Distribution.ofParameter p = .ok distribution ∧
      a.pushDefault parameters i p = .ok (a.pushBack parameters ⟨distribution, [i]⟩) ∧
      Threads parameters (a.pushBack parameters ⟨distribution, [i]⟩) (order ++ [a.nextSlot])
        fun j => bare j ∧ j ≠ i := by
  obtain ⟨law, hlaw⟩ := Option.isSome_iff_exists.1 hp
  obtain ⟨hmade, hdimension⟩ := defaultLaw_shape hlaw
  have hdefault : Distribution.ofParameter p = .ok ⟨.ofParameter p.id, law⟩ := by
    simp only [Distribution.ofParameter, Parameter.defaultLaw, hlaw]
    rfl
  have hfits : Fits parameters ⟨⟨.ofParameter p.id, law⟩, [i]⟩ _ := ⟨hmade, hdimension.symm, rfl⟩
  have hpush := h.pushBack hfits (List.nodup_singleton i) fun j hj => by
    rw [List.mem_singleton.1 hj]
    exact ⟨hi, hbare⟩
  refine ⟨_, hdefault, ?_, hpush.congr fun j _ => by rw [List.mem_singleton]⟩
  rw [Assignment.pushDefault, hdefault]
  rfl

/-- A group is that of its own, with its default law, of the parameter at a place. -/
def IsOwn (parameters : List Parameter) (i : Nat) (group : Group) : Prop :=
  ∃ p distribution, parameters[i]? = some p ∧ Distribution.ofParameter p = .ok distribution ∧
    group = ⟨distribution, [i]⟩

/-- Parameters that can be drawn get groups of their own, one after the other, behind the groups
that are there. -/
theorem Threads.foldlM_pushDefault {α : Type} (h : Threads parameters a order bare)
    (index : α → Nat) (step : Assignment → α → Except Error Assignment) (xs : List α)
    (hstep : ∀ x ∈ xs, ∃ p : Parameter, parameters[index x]? = some p ∧
      p.domain.defaultLaw?.isSome ∧ ∀ a : Assignment, step a x = a.pushDefault parameters (index x) p)
    (hnodup : (xs.map index).Nodup)
    (hbare : ∀ i ∈ xs.map index, i < parameters.length ∧ bare i) :
    ∃ a', xs.foldlM step a = .ok a' ∧ ∃ order',
      Threads parameters a' order' (fun i => bare i ∧ i ∉ xs.map index) ∧
      ∃ own, List.Forall₂ (IsOwn parameters) (xs.map index) own ∧
        order'.filterMap a'.group? = order.filterMap a.group? ++ own := by
  induction xs generalizing a order bare with
  | nil => exact ⟨a, rfl, order, h.congr fun i _ => by simp, [], .nil, (List.append_nil _).symm⟩
  | cons x xs ih =>
    obtain ⟨hx, hnodup⟩ := List.nodup_cons.1 hnodup
    obtain ⟨⟨hi, hb⟩, hbare⟩ := List.forall_mem_cons.1 hbare
    obtain ⟨⟨p, hget, hp, hpush⟩, hstep⟩ := List.forall_mem_cons.1 hstep
    obtain ⟨distribution, hdefault, hb, h'⟩ := h.pushDefault hp hi hb
    obtain ⟨a', ha', order', h'', own, hown, hgroups⟩ := ih h' hstep hnodup fun i hi => by
      refine ⟨(hbare i hi).1, (hbare i hi).2, ?_⟩
      rintro rfl
      exact hx hi
    refine ⟨a', ?_, order', h''.congr fun i _ => ?_, _ :: own,
      .cons ⟨p, distribution, hget, hdefault, rfl⟩ hown, ?_⟩
    · rw [List.foldlM_cons, hpush, hb]
      exact ha'
    · rw [List.map_cons, List.mem_cons, not_or, and_assoc]
    · rw [hgroups, h.filterMap_pushBack, List.append_assoc]
      rfl

/-- Parameters that can all be drawn have an assignment, in which each is in a group. -/
theorem exists_ofParameters (hp : ∀ p ∈ parameters, p.domain.defaultLaw?.isSome) :
    ∃ a, ofParameters parameters = .ok a ∧ ∃ order, Threads parameters a order fun _ => False := by
  have hindices : parameters.zipIdx.map Prod.snd = List.range parameters.length := by
    rw [List.zipIdx_map_snd, List.range_eq_range']
  obtain ⟨a, ha, order, h, -⟩ := (threads_blank parameters).foldlM_pushDefault Prod.snd
    (fun a x => a.pushDefault parameters x.2 x.1) parameters.zipIdx
    (fun x hx => ⟨x.1, List.mem_zipIdx_iff_getElem?.1 hx, hp x.1 (List.fst_mem_of_mem_zipIdx hx),
      fun _ => rfl⟩)
    (by rw [hindices]; exact List.nodup_range)
    (fun i hi => by
      rw [hindices] at hi
      exact ⟨List.mem_range.1 hi, trivial⟩)
  refine ⟨a, ha, order, h.congr fun i hi => ?_⟩
  rw [hindices, List.mem_range]
  exact iff_of_false (fun hb => hb.2 hi) id

/-! ## Assigning a law -/

/-- Nothing forbids a group whose places are as many as the law has dimensions, are those of
parameters, and are given once each. -/
theorem fault?_eq_none_iff {distribution : Distribution} {indices : List Nat} :
    fault? parameters distribution indices = none ↔
      indices.length = distribution.law.dimension ∧ (∀ i ∈ indices, i < parameters.length) ∧
        indices.Nodup := by
  rw [fault?]
  by_cases hlength : indices.length = distribution.law.dimension
  case neg => simp [hlength]
  simp only [hlength, ne_eq, not_true_eq_false, if_false, true_and]
  cases hfind : indices.find? (parameters.length ≤ ·) with
  | some i =>
    have hge : parameters.length ≤ i := by simpa using List.find?_some hfind
    have hmem := List.mem_of_find?_eq_some hfind
    refine iff_of_false (fun h => nomatch h) fun h => ?_
    exact absurd (h.1 i hmem) (Nat.not_lt.2 hge)
  | none =>
    have hlt : ∀ i ∈ indices, i < parameters.length := by
      simpa using List.find?_eq_none.1 hfind
    simp only [ite_eq_right_iff, reduceCtorEq, imp_false, Decidable.not_not]
    refine ⟨fun h => ⟨hlt, DependencyGraph.nodup_of_length_ascending (h.trans hlength.symm)⟩,
      fun h => ?_⟩
    rw [(DependencyGraph.perm_ascending h.2).length_eq, hlength]

/-- Taking out the groups in some slots leaves their places bare. -/
theorem Threads.foldl_unlink (h : Threads parameters a order bare) (slots : List Nat)
    (hnodup : slots.Nodup) (hslots : ∀ s ∈ slots, (a.content? s).isSome) :
    (∀ t ∉ slots, (slots.foldl Assignment.unlink a).content? t = a.content? t) ∧
      Threads parameters (slots.foldl Assignment.unlink a) (order.diff slots) fun i =>
        bare i ∨ ∃ s ∈ slots, ∃ group checked, a.content? s = some (group, checked) ∧
          i ∈ group.indices := by
  induction slots generalizing a order bare with
  | nil => exact ⟨fun _ _ => rfl, h.congr fun i _ => by simp⟩
  | cons slot slots ih =>
    obtain ⟨hnot, hnodup⟩ := List.nodup_cons.1 hnodup
    obtain ⟨hslot, hslots⟩ := List.forall_mem_cons.1 hslots
    obtain ⟨⟨group, checked⟩, hslot⟩ := Option.isSome_iff_exists.1 hslot
    obtain ⟨node, hnode, _, _⟩ := node?_of_content? hslot
    have hcontent : ∀ t, t ≠ slot → (a.unlink slot).content? t = a.content? t := by
      intro t ht
      rw [content?_unlink hnode, if_neg (Ne.symm ht)]
    have hne : ∀ s ∈ slots, s ≠ slot := fun s hs heq => hnot (heq ▸ hs)
    obtain ⟨hrest, h'⟩ := ih (h.unlink hslot) hnodup fun s hs => by
      rw [hcontent s (hne s hs)]
      exact hslots s hs
    rw [List.foldl_cons, List.diff_cons]
    refine ⟨fun t ht => ?_, h'.congr fun i _ => ?_⟩
    · obtain ⟨hslott, ht⟩ := not_or.1 (mt List.mem_cons.2 ht)
      rw [hrest t ht, hcontent t hslott]
    · constructor
      · rintro ((hb | hmem) | ⟨s, hs, g, c, hc, hmem⟩)
        · exact .inl hb
        · exact .inr ⟨slot, List.mem_cons_self, group, checked, hslot, hmem⟩
        · rw [hcontent s (hne s hs)] at hc
          exact .inr ⟨s, List.mem_cons_of_mem slot hs, g, c, hc, hmem⟩
      · rintro (hb | ⟨s, hs, g, c, hc, hmem⟩)
        · exact .inl (.inl hb)
        · rcases List.mem_cons.1 hs with rfl | hs
          · cases hslot.symm.trans hc
            exact .inl (.inr hmem)
          · exact .inr ⟨s, hs, g, c, (hcontent s (hne s hs)).trans hc, hmem⟩

/-- The slots of the groups that have to go are those that hold one of the places. -/
theorem Threads.mem_overlapping (h : Threads parameters a order fun _ => False)
    (indices : List Nat) (s : Nat) :
    s ∈ a.overlapping indices ↔ ∃ group checked, a.content? s = some (group, checked) ∧
      ∃ i ∈ indices, i ∈ group.indices := by
  rw [overlapping, DependencyGraph.mem_ascending, List.mem_filterMap]
  constructor
  · rintro ⟨i, hi, hplace⟩
    obtain ⟨⟨t, d⟩, hentry, rfl⟩ := Option.map_eq_some_iff.1 hplace
    obtain ⟨group, checked, hc, hd⟩ := h.content?_of_places hentry id
    exact ⟨group, checked, hc, i, hi, List.mem_of_getElem? hd⟩
  · rintro ⟨group, checked, hc, i, hi, hmem⟩
    obtain ⟨d, hd⟩ := List.mem_iff_getElem?.1 hmem
    exact ⟨i, hi, by rw [h.recorded hc hd]; rfl⟩

/-- The orphans are the places of the groups that have to go, without the new ones. -/
theorem mem_orphans {indices : List Nat} {i : Nat} :
    i ∈ a.orphans indices ↔ i ∉ indices ∧ ∃ s ∈ a.overlapping indices, ∃ group checked,
      a.content? s = some (group, checked) ∧ i ∈ group.indices := by
  rw [orphans, List.mem_mergeSort, List.mem_flatMap]
  constructor
  · rintro ⟨s, hs, hmem⟩
    obtain ⟨hmem, hnot⟩ := List.mem_filter.1 hmem
    cases hnode : a.node? s with
    | none => rw [hnode] at hmem; cases hmem
    | some node =>
      rw [hnode] at hmem
      exact ⟨by simpa using hnot, s, hs, _, _, content?_of_node? hnode, hmem⟩
  · rintro ⟨hnot, s, hs, group, checked, hc, hmem⟩
    obtain ⟨node, hnode, rfl, _⟩ := node?_of_content? hc
    refine ⟨s, hs, List.mem_filter.2 ⟨?_, by simpa using hnot⟩⟩
    rw [hnode]
    exact hmem

/-- No orphan is found twice. -/
theorem Threads.nodup_orphans (h : Threads parameters a order bare) (indices : List Nat) :
    (a.orphans indices).Nodup := by
  rw [orphans, (List.mergeSort_perm _ _).nodup_iff, ← List.filter_flatMap]
  exact (h.nodup_flatMap_indices (DependencyGraph.nodup_ascending _)).filter _

/-- The groups that share a place with a new one are taken out before it is added, and the groups
with default laws are added after it. -/
theorem assign_eq {distribution : Distribution} {indices : List Nat}
    (hfault : fault? parameters distribution indices = none) :
    a.assign parameters distribution indices =
      (a.orphans indices).foldlM
        (fun a i => (parameters[i]?).elim (.ok a) (a.pushDefault parameters i))
        (((a.overlapping indices).foldl unlink a).pushBack parameters ⟨distribution, indices⟩) := by
  rw [Assignment.assign, hfault]
  refine congrArg (List.foldlM · _ (a.orphans indices)) (funext₂ fun b i => ?_)
  cases parameters[i]? <;> rfl

/-- A law that may be assigned is assigned, and every parameter is in a group again. The groups that
share no place with the new one stay in their order; the new one follows, and then the orphans'. -/
theorem Threads.assign (h : Threads parameters a order fun _ => False)
    (hp : ∀ p ∈ parameters, p.domain.defaultLaw?.isSome) {distribution : Distribution}
    {indices : List Nat} (hmade : distribution.law.Made)
    (hfault : fault? parameters distribution indices = none) :
    ∃ a', a.assign parameters distribution indices = .ok a' ∧ ∃ order',
      Threads parameters a' order' (fun _ => False) ∧
      ∃ own, List.Forall₂ (IsOwn parameters) (a.orphans indices) own ∧
        order'.filterMap a'.group? =
          (order.diff (a.overlapping indices)).filterMap a.group? ++
            ⟨distribution, indices⟩ :: own := by
  obtain ⟨hlength, hlt, hnodup⟩ := fault?_eq_none_iff.1 hfault
  have hoverlapping := h.mem_overlapping indices
  obtain ⟨hkept, hleft⟩ := h.foldl_unlink (a.overlapping indices)
    (DependencyGraph.nodup_ascending _) fun s hs => by
      obtain ⟨group, checked, hc, _⟩ := (hoverlapping s).1 hs
      rw [hc]
      rfl
  -- every place of the new group was in a group that has been taken out
  have hfits : Fits parameters ⟨distribution, indices⟩ _ := ⟨hmade, hlength, rfl⟩
  have hjoined := hleft.pushBack hfits hnodup fun i hi => by
      obtain ⟨s, group, checked, hc, hmem⟩ := h.covered i (hlt i hi) id
      have hs := (hoverlapping s).2 ⟨group, checked, hc, i, hi, hmem⟩
      exact ⟨hlt i hi, .inr ⟨s, hs, group, checked, hc, hmem⟩⟩
  have horphan : ∀ i ∈ a.orphans indices, i < parameters.length := by
    intro i hi
    obtain ⟨_, s, _, group, checked, hc, hmem⟩ := mem_orphans.1 hi
    exact h.lt_length hc hmem
  obtain ⟨a', ha', order', h', own, hown, hgroups⟩ := hjoined.foldlM_pushDefault id
    (fun a i => (parameters[i]?).elim (.ok a) (a.pushDefault parameters i)) (a.orphans indices)
    (fun i hi => by
      have hi := List.getElem?_eq_getElem (horphan i hi)
      exact ⟨_, hi, hp _ (List.mem_of_getElem? hi), fun _ => by rw [hi]; rfl⟩)
    (by rw [List.map_id]; exact h.nodup_orphans indices)
    (fun i hi => by
      rw [List.map_id] at hi
      obtain ⟨hnot, hs⟩ := mem_orphans.1 hi
      exact ⟨horphan i hi, .inr hs, hnot⟩)
  rw [List.map_id] at hown
  refine ⟨a', ?_, order', h'.congr fun i _ => ?_, own, hown, ?_⟩
  · rw [assign_eq hfault, ha']
  · rw [List.map_id, mem_orphans]
    simp only [false_or]
    refine iff_of_false ?_ id
    rintro ⟨⟨hs, hnot⟩, horphan⟩
    exact horphan ⟨hnot, hs⟩
  · rw [hgroups, hleft.filterMap_pushBack, List.append_assoc, List.singleton_append]
    congr 1
    refine List.filterMap_congr fun s hs => ?_
    rw [group?, group?, hkept s fun hmem => ?_]
    rw [h.nodup.mem_sdiff_iff] at hs
    exact hs.2 hmem

end SearchSpace.Assignment
