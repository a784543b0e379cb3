import Mathlib.Data.List.Nodup
import Mathlib.Data.List.Perm.Subperm
import SearchSpace.Proofs.Assignment.Links
import SearchSpace.Proofs.Law.Shape

/-!
# What the operations on an assignment keep

While a law is assigned, some groups have been taken out and their parameters are without a group
until new ones are added. `Threads parameters a order bare` says that the assignment `a` is in such
a state: its groups are linked in the slots `order`, and every parameter but those at the `bare`
places is in one group. Taking a group out makes its places bare (`Threads.unlink`), and adding a
group covers the places it is for, which have to be bare (`Threads.pushBack`).

That no more slots are made than there are parameters rests on counting: each group in the list has
a parameter of its own, so there is a slot to spare as long as a place is bare.
-/

namespace SearchSpace.Assignment

open Law (Made)

/-- What a slot holds belongs together: the law is one that constructors make, it has as many
dimensions as there are places, and what has to be checked is computed from its bounds. -/
structure Fits (parameters : List Parameter) (group : Group) (checked : List Bool) : Prop where
  made : group.distribution.law.Made
  length_indices : group.indices.length = group.distribution.law.dimension
  checked_eq : checked = checks parameters group

/-- The groups of `a` are linked in the slots `order`, and every parameter is in one of them, except
those at the `bare` places. -/
structure Threads (parameters : List Parameter) (a : Assignment) (order : List Nat)
    (bare : Nat → Prop) : Prop where
  nodup : order.Nodup
  mem_order : ∀ s, s ∈ order ↔ (a.node? s).isSome
  first : a.first = order.head?
  last : a.last = order.getLast?
  linked : Linked a.node? none order none
  nodup_free : a.free.Nodup
  mem_free : ∀ s, s ∈ a.free ↔ s < a.slots.size ∧ a.node? s = none
  size_slots : a.slots.size ≤ parameters.length
  size_places : a.places.size = parameters.length
  recorded : ∀ {s d i : Nat} {group checked}, a.content? s = some (group, checked) →
    group.indices[d]? = some i → a.places[i]? = some (s, d)
  covered : ∀ i < parameters.length, ¬bare i →
    ∃ s group checked, a.content? s = some (group, checked) ∧ i ∈ group.indices
  not_bare : ∀ {s i : Nat} {group checked}, a.content? s = some (group, checked) →
    i ∈ group.indices → ¬bare i
  fits : ∀ {s : Nat} {group checked}, a.content? s = some (group, checked) →
    Fits parameters group checked

variable {parameters : List Parameter} {a : Assignment} {order : List Nat} {bare : Nat → Prop}

/-! ## Contents -/

/-- A slot with a content holds a node. -/
theorem node?_of_content? {s : Nat} {group : Group} {checked : List Bool}
    (h : a.content? s = some (group, checked)) :
    ∃ node, a.node? s = some node ∧ node.toGroup = group ∧ node.checked = checked := by
  obtain ⟨node, hnode, heq⟩ := Option.map_eq_some_iff.1 h
  obtain ⟨rfl, rfl⟩ := Prod.mk.inj heq
  exact ⟨node, hnode, rfl, rfl⟩

/-- A slot that holds a node has its content. -/
theorem content?_of_node? {s : Nat} {node : Group.Node} (h : a.node? s = some node) :
    a.content? s = some (node.toGroup, node.checked) := by
  rw [content?, h, Option.map_some]

/-- The slots with a content are those that hold a node. -/
@[simp] theorem isSome_content? (a : Assignment) (s : Nat) :
    (a.content? s).isSome = (a.node? s).isSome := by
  rw [content?, Option.isSome_map]

/-- What fits together has a place. -/
theorem Fits.indices_ne_nil {group : Group} {checked : List Bool}
    (h : Fits parameters group checked) : group.indices ≠ [] := by
  intro hnil
  have hpos := h.made.dimension_pos
  rw [← h.length_indices, hnil] at hpos
  exact absurd hpos (Nat.lt_irrefl 0)

/-! ## Recording places -/

/-- Records that the parameters of a group, from dimension `k` on, are found in a slot. -/
def recordFrom (k : Nat) (places : Array (Nat × Nat)) (slot : Nat) (indices : List Nat) :
    Array (Nat × Nat) :=
  (indices.zipIdx k).foldl (fun places (i, d) => places.setIfInBounds i (slot, d)) places

/-- The first place is recorded before the others. -/
theorem recordFrom_cons (k : Nat) (places : Array (Nat × Nat)) (slot i : Nat)
    (indices : List Nat) :
    recordFrom k places slot (i :: indices) =
      recordFrom (k + 1) (places.setIfInBounds i (slot, k)) slot indices := by
  rw [recordFrom, List.zipIdx_cons, List.foldl_cons, recordFrom]

/-- Recording keeps the number of places. -/
@[simp] theorem size_recordFrom (k : Nat) (places : Array (Nat × Nat)) (slot : Nat)
    (indices : List Nat) : (recordFrom k places slot indices).size = places.size := by
  induction indices generalizing k places with
  | nil => rfl
  | cons i indices ih => rw [recordFrom_cons, ih, Array.size_setIfInBounds]

/-- Recording a group leaves the places that are not in it. -/
theorem getElem?_recordFrom_of_not_mem {k : Nat} {places : Array (Nat × Nat)} {slot i : Nat}
    {indices : List Nat} (hi : i ∉ indices) :
    (recordFrom k places slot indices)[i]? = places[i]? := by
  induction indices generalizing k places with
  | nil => rfl
  | cons j indices ih =>
    obtain ⟨hne, hi⟩ := not_or.1 (mt List.mem_cons.2 hi)
    rw [recordFrom_cons, ih hi, Array.getElem?_setIfInBounds_ne (Ne.symm hne)]

/-- Recording a group leads from each of its places to its slot and dimension. -/
theorem getElem?_recordFrom {k : Nat} {places : Array (Nat × Nat)} {slot i d : Nat}
    {indices : List Nat} (hnodup : indices.Nodup) (hi : i < places.size)
    (hd : indices[d]? = some i) :
    (recordFrom k places slot indices)[i]? = some (slot, k + d) := by
  induction indices generalizing k places d with
  | nil => cases hd
  | cons j indices ih =>
    obtain ⟨hj, hnodup⟩ := List.nodup_cons.1 hnodup
    rw [recordFrom_cons]
    cases d with
    | zero =>
      -- the place is recorded now, and no later one is the same
      obtain rfl : j = i := Option.some.inj hd
      rw [getElem?_recordFrom_of_not_mem hj, Array.getElem?_setIfInBounds_self_of_lt hi,
        Nat.add_zero]
    | succ d =>
      rw [ih hnodup (by rwa [Array.size_setIfInBounds]) hd]
      congr 2
      omega

/-! ## The empty list -/

/-- The assignment with no group yet. -/
def blank (parameters : List Parameter) : Assignment :=
  { slots := #[], free := [], first := none, last := none
    places := (parameters.map fun _ => (0, 0)).toArray }

/-- With no group yet, every place is bare. -/
theorem threads_blank (parameters : List Parameter) :
    Threads parameters (blank parameters) [] fun _ => True where
  nodup := List.nodup_nil
  mem_order := fun s => by simp [blank, node?]
  first := rfl
  last := rfl
  linked := trivial
  nodup_free := List.nodup_nil
  mem_free := fun s => by simp [blank]
  size_slots := Nat.zero_le _
  size_places := by simp [blank]
  recorded := fun h => by simp [blank, content?, node?] at h
  covered := fun i _ hbare => absurd trivial hbare
  not_bare := fun h => by simp [blank, content?, node?] at h
  fits := fun h => by simp [blank, content?, node?] at h

/-! ## Taking a group out -/

/-- Taking a group out leaves the others linked, and its places bare. -/
theorem Threads.unlink (h : Threads parameters a order bare) {slot : Nat} {group : Group}
    {checked : List Bool} (hslot : a.content? slot = some (group, checked)) :
    Threads parameters (a.unlink slot) (order.erase slot)
      fun i => bare i ∨ i ∈ group.indices := by
  obtain ⟨node, hnode, rfl, rfl⟩ := node?_of_content? hslot
  have hmem : slot ∈ order := (h.mem_order slot).2 (by rw [hnode]; rfl)
  have hcontent := content?_unlink hnode
  have hsome : ∀ t, ((a.unlink slot).node? t).isSome ↔ slot ≠ t ∧ (a.node? t).isSome := by
    intro t
    rw [← isSome_content?, ← isSome_content?, hcontent]
    split <;> simp_all
  obtain ⟨front, back, rfl⟩ := List.append_of_mem hmem
  obtain ⟨hfront, hback, hdisjoint⟩ := List.nodup_append.1 h.nodup
  obtain ⟨hslotback, hback⟩ := List.nodup_cons.1 hback
  have hslotfront : slot ∉ front := fun hs => hdisjoint slot hs slot List.mem_cons_self rfl
  have herase : (front ++ slot :: back).erase slot = front ++ back := by
    rw [List.erase_append_right _ hslotfront, List.erase_cons_head]
  have hdisjoint : ∀ s ∈ front, ∀ t ∈ back, s ≠ t :=
    fun s hs t ht => hdisjoint s hs t (List.mem_cons_of_mem slot ht)
  -- the links of the group that is taken out are its neighbours in the list
  obtain ⟨hlinkedfront, n, hn, hprevious, hnext, hlinkedback⟩ := linked_append.1 h.linked
  obtain rfl : node = n := Option.some.inj (hnode.symm.trans hn)
  rw [Option.or_none] at hprevious hnext
  have hrest := node?_unlink hnode
  simp only [hprevious, hnext] at hrest
  rw [herase]
  refine ⟨?nodup, ?mem_order, ?first, ?last, ?linked, ?nodup_free, ?mem_free, ?size_slots,
    ?size_places, ?recorded, ?covered, ?not_bare, ?fits⟩
  case nodup =>
    exact List.nodup_append.2 ⟨hfront, hback, hdisjoint⟩
  case mem_order =>
    intro t
    rw [hsome, ← h.mem_order]
    simp only [List.mem_append, List.mem_cons]
    constructor
    · rintro (ht | ht)
      · exact ⟨by rintro rfl; exact hslotfront ht, .inl ht⟩
      · exact ⟨by rintro rfl; exact hslotback ht, .inr (.inr ht)⟩
    · rintro ⟨hne, ht | rfl | ht⟩
      · exact .inl ht
      · exact absurd rfl hne
      · exact .inr ht
  case first =>
    have hfirst := h.first
    rw [Assignment.unlink, hnode]
    simp only [hprevious, hnext]
    cases front with
    | nil => rfl
    | cons s front => rw [List.getLast?_cons]; exact hfirst
  case last =>
    have hlast := h.last
    rw [Assignment.unlink, hnode]
    simp only [hprevious, hnext]
    cases back with
    | nil => rw [List.append_nil]; rfl
    | cons s back =>
      rw [List.head?_cons, List.getLast?_append]
      rw [List.getLast?_append, List.getLast?_cons_cons] at hlast
      exact hlast
  case linked =>
    refine linked_append.2 ⟨?_, ?_⟩
    · refine hlinkedfront.retarget_last hfront fun t ht => ?_
      have hne : slot ≠ t := by rintro rfl; exact hslotfront ht
      have hnotback : back.head? ≠ some t := fun hhead =>
        hdisjoint t ht t (List.mem_of_head? hhead) rfl
      rw [hrest, if_neg hnotback, if_neg hne, Option.or_none]
    · refine hlinkedback.retarget_first hback fun t ht => ?_
      have hne : slot ≠ t := by rintro rfl; exact hslotback ht
      have hnotfront : front.getLast? ≠ some t := fun hlast =>
        hdisjoint t (List.mem_of_getLast? hlast) t ht rfl
      rw [hrest, if_neg hnotfront, if_neg hne, Option.or_none]
  case nodup_free =>
    rw [Assignment.unlink, hnode]
    refine List.nodup_cons.2 ⟨fun hs => ?_, h.nodup_free⟩
    rw [((h.mem_free slot).1 hs).2] at hnode
    cases hnode
  case mem_free =>
    intro t
    have hnone : (a.unlink slot).node? t = none ↔ t = slot ∨ a.node? t = none := by
      have := hsome t
      rw [← Option.not_isSome_iff_eq_none, ← Option.not_isSome_iff_eq_none, this]
      grind
    have hfree : (a.unlink slot).free = slot :: a.free := by rw [Assignment.unlink, hnode]
    rw [hfree, size_slots_unlink, hnone, List.mem_cons, h.mem_free]
    have hlt := lt_size_of_node? hnode
    grind
  case size_slots =>
    rw [size_slots_unlink]
    exact h.size_slots
  case size_places =>
    rw [Assignment.unlink, hnode]
    exact h.size_places
  case recorded =>
    intro t d i g c hc hi
    rw [hcontent] at hc
    split at hc
    · cases hc
    · rw [Assignment.unlink, hnode]
      exact h.recorded hc hi
  case covered =>
    intro i hi hbare
    obtain ⟨hbare, hnot⟩ := not_or.1 hbare
    obtain ⟨t, g, c, hc, hmem⟩ := h.covered i hi hbare
    refine ⟨t, g, c, ?_, hmem⟩
    rw [hcontent, if_neg, hc]
    rintro rfl
    rw [hslot] at hc
    cases hc
    exact hnot hmem
  case not_bare =>
    intro t i g c hc hi
    rw [hcontent] at hc
    split at hc
    · cases hc
    · next hne =>
      refine not_or.2 ⟨h.not_bare hc hi, fun hmem => hne ?_⟩
      -- a place leads to one slot only
      obtain ⟨d, hd⟩ := List.mem_iff_getElem?.1 hi
      obtain ⟨e, he⟩ := List.mem_iff_getElem?.1 hmem
      have heq := (h.recorded hc hd).symm.trans (h.recorded hslot he)
      cases heq
      rfl
  case fits =>
    intro t g c hc
    rw [hcontent] at hc
    split at hc
    · cases hc
    · exact h.fits hc

/-! ## Adding a group -/

/-- A place that is bare leaves a slot to spare: every group in the list has another place. -/
theorem Threads.length_order_lt (h : Threads parameters a order bare) {i : Nat}
    (hi : i < parameters.length) (hbare : bare i) : order.length < parameters.length := by
  let others := (List.range parameters.length).erase i
  have hsubset : order ⊆ others.map fun j => (a.places[j]?.getD (0, 0)).1 := by
    intro s hs
    obtain ⟨node, hnode⟩ := Option.isSome_iff_exists.1 ((h.mem_order s).1 hs)
    have hcontent := content?_of_node? hnode
    obtain ⟨j, indices, hindices⟩ := List.exists_cons_of_ne_nil (h.fits hcontent).indices_ne_nil
    have hj : node.indices[0]? = some j := by rw [hindices]; rfl
    have hplace := h.recorded hcontent hj
    have hlt : j < parameters.length := by
      rw [← h.size_places]
      exact (Array.getElem?_eq_some_iff.1 hplace).1
    have hne : j ≠ i := by
      rintro rfl
      exact h.not_bare hcontent (by rw [hindices]; exact List.mem_cons_self) hbare
    refine List.mem_map.2 ⟨j, (List.mem_erase_of_ne hne).2 (List.mem_range.2 hlt), ?_⟩
    rw [hplace]
    rfl
  have hlength := (List.subperm_of_subset h.nodup hsubset).length_le
  have hmem : i ∈ List.range parameters.length := List.mem_range.2 hi
  rw [List.length_map, List.length_erase_of_mem hmem, List.length_range] at hlength
  omega

/-- When no slot is empty, there are as many groups in the list as slots. -/
theorem Threads.size_slots_le_of_free (h : Threads parameters a order bare)
    (hfree : a.free = []) : a.slots.size ≤ order.length := by
  have hsubset : List.range a.slots.size ⊆ order := by
    intro s hs
    rw [h.mem_order, ← Option.ne_none_iff_isSome]
    intro hnone
    have := (h.mem_free s).2 ⟨List.mem_range.1 hs, hnone⟩
    rw [hfree] at this
    cases this
  have hlength := (List.subperm_of_subset List.nodup_range hsubset).length_le
  rwa [List.length_range] at hlength

/-- The slot for the next group holds none. -/
theorem Threads.node?_nextSlot (h : Threads parameters a order bare) :
    a.node? a.nextSlot = none := by
  rw [nextSlot]
  cases hf : a.free with
  | nil => simp [node?]
  | cons slot free => exact ((h.mem_free slot).1 (by rw [hf]; exact List.mem_cons_self)).2

/-- The slot for the next group is none of those in the list. -/
theorem Threads.nextSlot_not_mem (h : Threads parameters a order bare) : a.nextSlot ∉ order := by
  rw [h.mem_order, h.node?_nextSlot]
  exact Bool.false_ne_true

/-- The slots that are empty after the next one has been used. -/
theorem Threads.mem_free_tail (h : Threads parameters a order bare) (s : Nat) :
    s ∈ a.free.tail ↔ s ∈ a.free ∧ s ≠ a.nextSlot := by
  rw [nextSlot]
  have hnodup := h.nodup_free
  cases hf : a.free with
  | nil => simp
  | cons slot free =>
    rw [hf] at hnodup
    obtain ⟨hslot, _⟩ := List.nodup_cons.1 hnodup
    rw [List.tail_cons, List.mem_cons, List.head?_cons, Option.getD_some]
    constructor
    · intro hs
      exact ⟨.inr hs, fun heq => hslot (heq ▸ hs)⟩
    · rintro ⟨rfl | hs, hne⟩
      · exact absurd rfl hne
      · exact hs

/-- A group that is added stands at the end of the list and covers its places, which were bare. -/
theorem Threads.pushBack (h : Threads parameters a order bare) {group : Group}
    (hfits : Fits parameters group (checks parameters group)) (hnodup : group.indices.Nodup)
    (hbare : ∀ i ∈ group.indices, i < parameters.length ∧ bare i) :
    Threads parameters (a.pushBack parameters group) (order ++ [a.nextSlot])
      fun i => bare i ∧ i ∉ group.indices := by
  have hfreelt : ∀ s ∈ a.free, s < a.slots.size := fun s hs => ((h.mem_free s).1 hs).1
  have hnode := @node?_pushBack parameters a group hfreelt
  have hcontent := @content?_pushBack parameters a group hfreelt
  have hempty : a.content? a.nextSlot = none := by rw [content?, h.node?_nextSlot]; rfl
  have hnew : a.nextSlot ∉ order := h.nextSlot_not_mem
  have hsome : ∀ t, ((a.pushBack parameters group).node? t).isSome ↔
      t = a.nextSlot ∨ (a.node? t).isSome := by
    intro t
    rw [← isSome_content?, ← isSome_content?, hcontent]
    split
    · next heq => simp [heq]
    · next hne => simp [Ne.symm hne]
  have hold : ∀ {t i : Nat} {g c}, a.content? t = some (g, c) → i ∈ g.indices →
      i ∉ group.indices := fun hc hi hmem => h.not_bare hc hi (hbare _ hmem).2
  refine ⟨?nodup, ?mem_order, ?first, ?last, ?linked, ?nodup_free, ?mem_free, ?size_slots,
    ?size_places, ?recorded, ?covered, ?not_bare, ?fits⟩
  case nodup =>
    refine List.nodup_append.2 ⟨h.nodup, List.nodup_singleton _, fun s hs t ht heq => ?_⟩
    rw [List.mem_singleton.1 ht] at heq
    exact hnew (heq ▸ hs)
  case mem_order =>
    intro t
    rw [hsome, List.mem_append, List.mem_singleton, h.mem_order, or_comm]
  case first =>
    rw [first_pushBack, h.first, h.last, List.head?_append]
    cases order with
    | nil => rfl
    | cons s order => rw [List.getLast?_cons]; rfl
  case last =>
    rw [last_pushBack, List.getLast?_append, List.getLast?_singleton]
    rfl
  case linked =>
    refine linked_append.2 ⟨?_, ?_⟩
    · refine h.linked.retarget_last h.nodup fun t ht => ?_
      have hne : a.nextSlot ≠ t := by rintro rfl; exact hnew ht
      rw [hnode, if_neg hne, h.last]
      rfl
    · refine ⟨_, by rw [hnode, if_pos rfl], ?_, rfl, trivial⟩
      rw [h.last, Option.or_none]
  case nodup_free =>
    rw [free_pushBack]
    exact h.nodup_free.sublist (List.tail_sublist _)
  case mem_free =>
    intro t
    rw [free_pushBack, h.mem_free_tail, h.mem_free, size_slots_pushBack,
      ← Option.not_isSome_iff_eq_none, ← Option.not_isSome_iff_eq_none, hsome]
    have hlast : a.free = [] → a.nextSlot = a.slots.size := fun hf => by rw [nextSlot, hf]; rfl
    split
    · next hf =>
      have := hlast hf
      grind
    · grind
  case size_slots =>
    rw [size_slots_pushBack]
    split
    · next hf =>
      obtain ⟨i, indices, hindices⟩ := List.exists_cons_of_ne_nil hfits.indices_ne_nil
      obtain ⟨hi, hb⟩ := hbare i (by rw [hindices]; exact List.mem_cons_self)
      have := h.length_order_lt hi hb
      have := h.size_slots_le_of_free hf
      omega
    · exact h.size_slots
  case size_places =>
    rw [places_pushBack]
    exact (size_recordFrom 0 _ _ _).trans h.size_places
  case recorded =>
    intro t d i g c hc hi
    rw [places_pushBack]
    rw [hcontent] at hc
    split at hc
    · next heq =>
      cases hc
      have hlt : i < a.places.size := by
        rw [h.size_places]
        exact (hbare i (List.mem_of_getElem? hi)).1
      rw [← heq, ← Nat.zero_add d]
      exact getElem?_recordFrom hnodup hlt hi
    · rw [← h.recorded hc hi]
      exact getElem?_recordFrom_of_not_mem (hold hc (List.mem_of_getElem? hi))
  case covered =>
    intro i hi hcovered
    by_cases hmem : i ∈ group.indices
    · exact ⟨a.nextSlot, _, _, by rw [hcontent, if_pos rfl], hmem⟩
    · obtain ⟨t, g, c, hc, hmem⟩ := h.covered i hi fun hb => hcovered ⟨hb, hmem⟩
      refine ⟨t, g, c, ?_, hmem⟩
      rw [hcontent, if_neg, hc]
      rintro rfl
      rw [hempty] at hc
      cases hc
  case not_bare =>
    intro t i g c hc hi
    rw [hcontent] at hc
    split at hc
    · cases hc
      exact fun hb => hb.2 hi
    · exact fun hb => h.not_bare hc hi hb.1
  case fits =>
    intro t g c hc
    rw [hcontent] at hc
    split at hc
    · cases hc
      exact hfits
    · exact h.fits hc

/-- A group that is added follows the groups that are there. -/
theorem Threads.filterMap_pushBack (h : Threads parameters a order bare) (group : Group) :
    (order ++ [a.nextSlot]).filterMap (a.pushBack parameters group).group? =
      order.filterMap a.group? ++ [group] := by
  have hcontent := @content?_pushBack parameters a group fun s hs => ((h.mem_free s).1 hs).1
  rw [List.filterMap_append]
  congr 1
  · refine List.filterMap_congr fun s hs => ?_
    have hne : a.nextSlot ≠ s := fun heq => h.nextSlot_not_mem (heq ▸ hs)
    rw [group?, hcontent, if_neg hne, group?]
  · rw [List.filterMap_cons, group?, hcontent, if_pos rfl]
    rfl

end SearchSpace.Assignment
