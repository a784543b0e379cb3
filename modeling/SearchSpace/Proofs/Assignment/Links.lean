import SearchSpace.Assignment

/-!
# The linked list of groups

`Linked node before order after` says that the nodes in the slots `order` are linked in this order:
each has the slot before it as `previous` and the slot after it as `next`. The two operations on the
list change links at one place only: `Linked.retarget_last` and `Linked.retarget_first` say what
happens to the part of the list before that place and to the part after it.

What a slot holds apart from its links is its content (`Assignment.content?`); the links of other
slots change with an operation, their contents never do (`content?_unlink`, `content?_pushBack`).
-/

namespace SearchSpace.Assignment

/-- The nodes in the slots `order` are linked in this order, between the slots `before` and
`after`. -/
def Linked (node : Nat → Option Group.Node) (before : Option Nat) : List Nat → Option Nat → Prop
  | [], _ => True
  | slot :: order, after =>
    ∃ n, node slot = some n ∧ n.previous = before ∧ n.next = order.head?.or after ∧
      Linked node (some slot) order after

/-- What a slot holds, without its links. -/
def content? (a : Assignment) (slot : Nat) : Option (Group × List Bool) :=
  (a.node? slot).map fun node => (node.toGroup, node.checked)

/-- The group in a slot. -/
def group? (a : Assignment) (slot : Nat) : Option Group :=
  (a.content? slot).map (·.1)

/-! ## Parts of a linked list -/

section
variable {node node' : Nat → Option Group.Node} {before before' after after' : Option Nat}
  {order front back : List Nat}

/-- The last slot of a list, or else the one before it. -/
theorem getLast?_cons_or (slot : Nat) (order : List Nat) (before : Option Nat) :
    (slot :: order).getLast?.or before = order.getLast?.or (some slot) := by
  rw [List.getLast?_cons]
  cases order.getLast? <;> rfl

/-- A list is linked if its two parts are, each with the other at its end. -/
theorem linked_append :
    Linked node before (front ++ back) after ↔
      Linked node before front (back.head?.or after) ∧
        Linked node (front.getLast?.or before) back after := by
  induction front generalizing before with
  | nil => simp [Linked]
  | cons slot front ih =>
    simp only [List.cons_append, Linked, ih, List.head?_append, Option.or_assoc,
      getLast?_cons_or]
    constructor
    · rintro ⟨n, hn, hprevious, hnext, hfront, hback⟩
      exact ⟨⟨n, hn, hprevious, hnext, hfront⟩, hback⟩
    · rintro ⟨⟨n, hn, hprevious, hnext, hfront⟩, hback⟩
      exact ⟨n, hn, hprevious, hnext, hfront, hback⟩

/-- A list stays linked while nothing changes in its slots. -/
theorem Linked.congr (h : Linked node before order after)
    (heq : ∀ slot ∈ order, node' slot = node slot) : Linked node' before order after := by
  induction order generalizing before with
  | nil => trivial
  | cons slot order ih =>
    obtain ⟨n, hn, hprevious, hnext, hrest⟩ := h
    refine ⟨n, ?_, hprevious, hnext, ih hrest fun s hs => heq s (List.mem_cons_of_mem slot hs)⟩
    rw [heq slot List.mem_cons_self, hn]

/-- A list whose last slot gets a new `next` ends before that one. -/
theorem Linked.retarget_last (h : Linked node before order after) (hnodup : order.Nodup)
    (heq : ∀ slot ∈ order, node' slot =
      if order.getLast? = some slot then (node slot).map ({ · with next := after' })
      else node slot) :
    Linked node' before order after' := by
  induction order generalizing before with
  | nil => trivial
  | cons slot order ih =>
    obtain ⟨n, hn, hprevious, hnext, hrest⟩ := h
    obtain ⟨hslot, hnodup⟩ := List.nodup_cons.1 hnodup
    have hself := heq slot List.mem_cons_self
    cases order with
    | nil =>
      rw [List.getLast?_singleton, if_pos rfl, hn] at hself
      exact ⟨_, hself, hprevious, rfl, trivial⟩
    | cons next order =>
      rw [List.getLast?_cons_cons] at hself heq
      have hne : (next :: order).getLast? ≠ some slot := fun hlast =>
        hslot (List.mem_of_getLast? hlast)
      rw [if_neg hne, hn] at hself
      refine ⟨n, hself, hprevious, hnext, ih hrest hnodup fun s hs => ?_⟩
      exact heq s (List.mem_cons_of_mem slot hs)

/-- A list whose first slot gets a new `previous` starts after that one. -/
theorem Linked.retarget_first (h : Linked node before order after) (hnodup : order.Nodup)
    (heq : ∀ slot ∈ order, node' slot =
      if order.head? = some slot then (node slot).map ({ · with previous := before' })
      else node slot) :
    Linked node' before' order after := by
  cases order with
  | nil => trivial
  | cons slot order =>
    obtain ⟨n, hn, hprevious, hnext, hrest⟩ := h
    have hself := heq slot List.mem_cons_self
    rw [List.head?_cons, if_pos rfl, hn] at hself
    refine ⟨_, hself, rfl, hnext, hrest.congr fun s hs => ?_⟩
    have hne : slot ≠ s := by
      rintro rfl
      exact (List.nodup_cons.1 hnodup).1 hs
    rw [heq s (List.mem_cons_of_mem slot hs), List.head?_cons, if_neg (by simpa using hne)]

end

/-! ## Slots -/

/-- Changing the node in one slot leaves the others. -/
theorem join_getElem?_modify (slots : Array (Option Group.Node)) (slot : Option Nat)
    (f : Group.Node → Group.Node) (t : Nat) :
    ((modify slots slot f)[t]?).join =
      if slot = some t then ((slots[t]?).join).map f else (slots[t]?).join := by
  cases slot with
  | none => rfl
  | some s =>
    simp only [modify, Array.getElem?_modify, Option.some.injEq]
    split
    · cases slots[t]? <;> rfl
    · rfl

/-- Changing the node in a slot keeps the number of slots. -/
@[simp] theorem size_modify (slots : Array (Option Group.Node)) (slot : Option Nat)
    (f : Group.Node → Group.Node) : (modify slots slot f).size = slots.size := by
  cases slot with
  | none => rfl
  | some s => simp [modify]

/-- A slot that holds a node is one of the slots. -/
theorem lt_size_of_node? {a : Assignment} {slot : Nat} {node : Group.Node}
    (h : a.node? slot = some node) : slot < a.slots.size := by
  refine Nat.lt_of_not_le fun hge => ?_
  rw [node?, Array.getElem?_eq_none hge] at h
  cases h

/-! ## Taking a group out -/

/-- The slots after a group has been taken out: its own is empty, and its two neighbours are linked
to each other. -/
theorem node?_unlink {a : Assignment} {slot : Nat} {node : Group.Node}
    (h : a.node? slot = some node) (t : Nat) :
    (a.unlink slot).node? t =
      let rest := if slot = t then none else a.node? t
      let rest := if node.previous = some t then rest.map ({ · with next := node.next }) else rest
      if node.next = some t then rest.map ({ · with previous := node.previous }) else rest := by
  have hslot := lt_size_of_node? h
  have hcleared : ((a.slots.setIfInBounds slot none)[t]?).join =
      if slot = t then none else a.node? t := by
    rw [Array.getElem?_setIfInBounds, if_pos hslot]
    split <;> rfl
  rw [unlink, h]
  simp only [node?, join_getElem?_modify] at hcleared ⊢
  rw [hcleared]

/-- Taking a group out keeps the number of slots. -/
@[simp] theorem size_slots_unlink (a : Assignment) (slot : Nat) :
    (a.unlink slot).slots.size = a.slots.size := by
  rw [unlink]
  split
  · rfl
  · simp only [size_modify, Array.size_setIfInBounds]

/-- Taking a group out empties its slot and leaves the contents of the others. -/
theorem content?_unlink {a : Assignment} {slot : Nat} {node : Group.Node}
    (h : a.node? slot = some node) (t : Nat) :
    (a.unlink slot).content? t = if slot = t then none else a.content? t := by
  rw [content?, node?_unlink h]
  split
  · simp only [Option.map_none, ite_self]
  · dsimp only
    split <;> split <;> simp only [content?, Option.map_map] <;> rfl

/-! ## Adding a group -/

/-- The slot for the next group: the empty one to be used first, or a new one. -/
def nextSlot (a : Assignment) : Nat :=
  a.free.head?.getD a.slots.size

/-- The slots after a group has been added: it is in the slot for the next group, and the last group
before it leads there. -/
theorem node?_pushBack {parameters : List Parameter} {a : Assignment} {group : Group}
    (hfree : ∀ s ∈ a.free, s < a.slots.size) (t : Nat) :
    (a.pushBack parameters group).node? t =
      if a.nextSlot = t then
        some { group with checked := checks parameters group, previous := a.last, next := none }
      else if a.last = some t then (a.node? t).map ({ · with next := some a.nextSlot })
      else a.node? t := by
  cases hf : a.free with
  | nil =>
    have hnext : a.nextSlot = a.slots.size := by rw [nextSlot, hf]; rfl
    rw [hnext, pushBack, hf]
    simp only [node?, Array.getElem?_setIfInBounds, size_modify, Array.size_push]
    by_cases ht : a.slots.size = t
    · subst ht
      simp
    · have hpush : ((a.slots.push none)[t]?).join = (a.slots[t]?).join := by
        rw [Array.getElem?_push, if_neg (Ne.symm ht)]
      rw [if_neg ht, if_neg ht, join_getElem?_modify, hpush]
  | cons slot free =>
    have hnext : a.nextSlot = slot := by rw [nextSlot, hf]; rfl
    have hslot : slot < a.slots.size := hfree slot (by rw [hf]; exact List.mem_cons_self)
    rw [hnext, pushBack, hf]
    simp only [node?, Array.getElem?_setIfInBounds, size_modify]
    by_cases ht : slot = t
    · subst ht
      simp [hslot]
    · rw [if_neg ht, if_neg ht, join_getElem?_modify]

/-- Adding a group fills the slot for the next group and leaves the contents of the others. -/
theorem content?_pushBack {parameters : List Parameter} {a : Assignment} {group : Group}
    (hfree : ∀ s ∈ a.free, s < a.slots.size) (t : Nat) :
    (a.pushBack parameters group).content? t =
      if a.nextSlot = t then some (group, checks parameters group) else a.content? t := by
  rw [content?, node?_pushBack hfree]
  split
  · rfl
  · split
    · simp only [content?, Option.map_map]
      rfl
    · rfl

/-- Adding a group takes the slot for the next group from the empty ones, or makes it. -/
theorem size_slots_pushBack (parameters : List Parameter) (a : Assignment) (group : Group) :
    (a.pushBack parameters group).slots.size =
      if a.free = [] then a.slots.size + 1 else a.slots.size := by
  rw [pushBack]
  cases a.free with
  | nil => simp [size_modify]
  | cons slot free => simp [size_modify]

/-- The empty slots after a group has been added. -/
@[simp] theorem free_pushBack (parameters : List Parameter) (a : Assignment) (group : Group) :
    (a.pushBack parameters group).free = a.free.tail := by
  rw [pushBack]
  cases a.free <;> rfl

/-- The last group after one has been added. -/
@[simp] theorem last_pushBack (parameters : List Parameter) (a : Assignment) (group : Group) :
    (a.pushBack parameters group).last = some a.nextSlot := by
  rw [pushBack, nextSlot]
  cases a.free <;> rfl

/-- The first group after one has been added. -/
theorem first_pushBack (parameters : List Parameter) (a : Assignment) (group : Group) :
    (a.pushBack parameters group).first =
      if a.last.isSome then a.first else some a.nextSlot := by
  rw [pushBack, nextSlot]
  cases a.free <;> rfl

/-- Where the parameters are found after a group has been added. -/
@[simp] theorem places_pushBack (parameters : List Parameter) (a : Assignment) (group : Group) :
    (a.pushBack parameters group).places = record a.places a.nextSlot group.indices := by
  rw [pushBack, nextSlot]
  cases a.free <;> rfl

end SearchSpace.Assignment
