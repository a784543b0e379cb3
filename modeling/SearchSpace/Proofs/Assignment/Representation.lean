import SearchSpace.Proofs.Assignment.Step

/-!
# The representation of an assignment

`Assignment.WellFormed` says what the parts of an assignment have to do with each other: the links
between the groups, the empty slots, the places of the parameters and the groups themselves. It
holds from the start and after every series of calls, whether they succeed or fail
(`wellFormed_run`), and so every parameter always has a law.
-/

namespace SearchSpace.Assignment

/-! ## Runs -/

/-- The assignment after a call that gives the parameters at some places a law. A call that fails
leaves it as it was. -/
def step (parameters : List Parameter) (a : Assignment) (call : Distribution × List Nat) :
    Assignment :=
  match a.assign parameters call.1 call.2 with
  | .ok a' => a'
  | .error _ => a

/-- The assignment after a series of calls. -/
def run (parameters : List Parameter) (a : Assignment) (calls : List (Distribution × List Nat)) :
    Assignment :=
  calls.foldl (step parameters) a

/-! ## The invariant -/

/-- The parts of an assignment for some parameters belong together. -/
structure WellFormed (parameters : List Parameter) (a : Assignment) : Prop where
  /-- Following `next` from the first slot meets every slot that holds a group, once, and ends at
  the last one; `previous` leads the same way back. -/
  linked : ∃ order : List Nat, order.Nodup ∧ (∀ s, s ∈ order ↔ (a.node? s).isSome) ∧
    a.first = order.head? ∧ a.last = order.getLast? ∧ Linked a.node? none order none
  /-- The slots that hold no group are free, each once. -/
  nodup_free : a.free.Nodup
  mem_free : ∀ s, s ∈ a.free ↔ s < a.slots.size ∧ a.node? s = none
  /-- Every parameter is in one group, once. -/
  partition : (a.groups.flatMap (·.indices)).Perm (List.range parameters.length)
  /-- Every parameter is found in the slot and at the dimension that are recorded for it. -/
  size_places : a.places.size = parameters.length
  placed : ∀ {i s d : Nat}, a.places[i]? = some (s, d) →
    ∃ node, a.node? s = some node ∧ node.indices[d]? = some i
  /-- A group has a place for each dimension of its law. -/
  length_indices : ∀ {s : Nat} {node}, a.node? s = some node →
    node.indices.length = node.distribution.law.dimension
  /-- A dimension has to be checked if its bounds exceed the domain it is drawn for. -/
  length_checked : ∀ {s : Nat} {node}, a.node? s = some node →
    node.checked.length = node.indices.length
  checked : ∀ {s d i : Nat} {node p bounds}, a.node? s = some node →
    node.indices[d]? = some i → parameters[i]? = some p →
    node.distribution.law.bounds[d]? = some bounds →
    node.checked[d]? = some (p.domain.isExceededBy bounds)
  /-- There are no more slots than parameters. -/
  size_slots : a.slots.size ≤ parameters.length

variable {parameters : List Parameter} {a : Assignment} {order : List Nat}

/-- Following `next` through a linked list gives the nodes in its slots. -/
theorem nodesFrom_eq_filterMap {before : Option Nat} {fuel : Nat}
    (h : Linked a.node? before order none) (hfuel : order.length ≤ fuel) :
    a.nodesFrom fuel order.head? = order.filterMap a.node? := by
  induction order generalizing before fuel with
  | nil => cases fuel <;> rfl
  | cons slot order ih =>
    obtain ⟨n, hn, _, hnext, hrest⟩ := h
    cases fuel with
    | zero => exact absurd hfuel (Nat.not_succ_le_zero _)
    | succ fuel =>
      rw [Option.or_none] at hnext
      simp only [List.head?_cons, nodesFrom, hn, hnext]
      rw [ih hrest (Nat.le_of_succ_le_succ hfuel), List.filterMap_cons_some hn]

/-- The groups are those in the slots of the list. -/
theorem Threads.nodes_eq {bare : Nat → Prop} (h : Threads parameters a order bare) :
    a.nodes = order.filterMap a.node? := by
  have hsubset : order ⊆ List.range a.slots.size := by
    intro s hs
    obtain ⟨node, hnode⟩ := Option.isSome_iff_exists.1 ((h.mem_order s).1 hs)
    exact List.mem_range.2 (lt_size_of_node? hnode)
  have hlength := (List.subperm_of_subset h.nodup hsubset).length_le
  rw [List.length_range] at hlength
  rw [nodes, h.first, nodesFrom_eq_filterMap h.linked hlength]

/-- What a group of the list is belongs together. -/
theorem Threads.fits_of_mem_nodes {bare : Nat → Prop} (h : Threads parameters a order bare)
    {node : Group.Node} (hnode : node ∈ a.nodes) : Fits parameters node.toGroup node.checked := by
  rw [h.nodes_eq] at hnode
  obtain ⟨s, _, hs⟩ := List.mem_filterMap.1 hnode
  exact h.fits (content?_of_node? hs)

/-- The places of the groups are those of the slots of the list. -/
theorem Threads.flatMap_indices {bare : Nat → Prop} (h : Threads parameters a order bare) :
    a.groups.flatMap (·.indices) = order.flatMap fun s => (a.node? s).elim [] (·.indices) := by
  rw [groups, h.nodes_eq, List.flatMap_map]
  clear h
  induction order with
  | nil => rfl
  | cons s order ih =>
    rw [List.flatMap_cons, ← ih]
    cases hnode : a.node? s with
    | none => rw [List.filterMap_cons_none hnode]; rfl
    | some node => rw [List.filterMap_cons_some hnode, List.flatMap_cons]; rfl

/-- Every parameter is in one of the groups, once. -/
theorem Threads.partition (h : Threads parameters a order fun _ => False) :
    (a.groups.flatMap (·.indices)).Perm (List.range parameters.length) := by
  rw [h.flatMap_indices]
  refine (List.perm_ext_iff_of_nodup (h.nodup_flatMap_indices h.nodup) List.nodup_range).2
    fun i => ?_
  rw [List.mem_flatMap, List.mem_range]
  constructor
  · rintro ⟨s, hs, hi⟩
    obtain ⟨node, hnode⟩ := Option.isSome_iff_exists.1 ((h.mem_order s).1 hs)
    rw [hnode] at hi
    exact h.lt_length (content?_of_node? hnode) hi
  · intro hi
    obtain ⟨s, group, checked, hc, hmem⟩ := h.covered i hi id
    obtain ⟨node, hnode, rfl, _⟩ := node?_of_content? hc
    refine ⟨s, (h.mem_order s).2 (by rw [hnode]; rfl), ?_⟩
    rw [hnode]
    exact hmem

/-- Where every parameter is in a group of the list, the parts of the assignment belong together. -/
theorem Threads.wellFormed (h : Threads parameters a order fun _ => False) :
    a.WellFormed parameters where
  linked := ⟨order, h.nodup, h.mem_order, h.first, h.last, h.linked⟩
  nodup_free := h.nodup_free
  mem_free := h.mem_free
  partition := h.partition
  size_places := h.size_places
  placed := by
    intro i s d hplace
    obtain ⟨group, checked, hc, hd⟩ := h.content?_of_places hplace id
    obtain ⟨node, hnode, rfl, _⟩ := node?_of_content? hc
    exact ⟨node, hnode, hd⟩
  length_indices := fun hnode => (h.fits (content?_of_node? hnode)).length_indices
  length_checked := by
    intro s node hnode
    have hfits := h.fits (content?_of_node? hnode)
    rw [hfits.checked_eq, checks, List.length_zipWith, hfits.made.length_bounds,
      ← hfits.length_indices, Nat.min_self]
  checked := by
    intro s d i node p bounds hnode hi hp hbounds
    rw [(h.fits (content?_of_node? hnode)).checked_eq, checks, List.getElem?_zipWith]
    simp only [hi, hbounds, hp, Option.all_some]
  size_slots := h.size_slots

/-- In an assignment whose parts belong together every parameter has a law. -/
theorem WellFormed.lawAt (h : a.WellFormed parameters) {i : Nat} (hi : i < parameters.length) :
    ∃ distribution d, a.lawAt i = .ok (distribution, d) := by
  have hi : i < a.places.size := h.size_places.symm ▸ hi
  obtain ⟨⟨s, d⟩, hplace⟩ : ∃ place, a.places[i]? = some place :=
    ⟨_, Array.getElem?_eq_getElem hi⟩
  obtain ⟨node, hnode, _⟩ := h.placed hplace
  refine ⟨node.distribution, d, ?_⟩
  rw [Assignment.lawAt, hplace]
  simp only [hnode]

/-! ## Every run keeps it -/

/-- A call keeps every parameter in a group of the list. -/
theorem Threads.step (h : Threads parameters a order fun _ => False)
    (hp : ∀ p ∈ parameters, p.domain.defaultLaw?.isSome) {call : Distribution × List Nat}
    (hmade : call.1.law.Made) :
    ∃ order', Threads parameters (step parameters a call) order' fun _ => False := by
  cases hfault : fault? parameters call.1 call.2 with
  | some e =>
    refine ⟨order, ?_⟩
    rw [Assignment.step, Assignment.assign, hfault]
    exact h
  | none =>
    obtain ⟨a', ha', order', h', -⟩ := h.assign hp hmade hfault
    refine ⟨order', ?_⟩
    rw [Assignment.step, ha']
    exact h'

/-- A series of calls keeps every parameter in a group of the list. -/
theorem Threads.run (h : Threads parameters a order fun _ => False)
    (hp : ∀ p ∈ parameters, p.domain.defaultLaw?.isSome) {calls : List (Distribution × List Nat)}
    (hmade : ∀ call ∈ calls, call.1.law.Made) :
    ∃ order', Threads parameters (run parameters a calls) order' fun _ => False := by
  induction calls generalizing a order with
  | nil => exact ⟨order, h⟩
  | cons call calls ih =>
    obtain ⟨hcall, hcalls⟩ := List.forall_mem_cons.1 hmade
    obtain ⟨order', h'⟩ := h.step hp hcall
    exact ih h' hcalls

/-- Parameters that can all be drawn have an assignment, and after every series of calls with laws
that the constructors make its parts belong together and every parameter has a law. -/
theorem wellFormed_run (hp : ∀ p ∈ parameters, p.domain.defaultLaw?.isSome)
    {calls : List (Distribution × List Nat)} (hmade : ∀ call ∈ calls, call.1.law.Made) :
    ∃ a, ofParameters parameters = .ok a ∧ (run parameters a calls).WellFormed parameters ∧
      ∀ i < parameters.length, ∃ distribution d,
        (run parameters a calls).lawAt i = .ok (distribution, d) := by
  obtain ⟨a, ha, order, h⟩ := exists_ofParameters hp
  obtain ⟨order', h'⟩ := h.run hp hmade
  exact ⟨a, ha, h'.wellFormed, fun i hi => h'.wellFormed.lawAt hi⟩

/-- A range of integers. -/
def width : Parameter :=
  ⟨0, ⟨"width", by decide⟩, .ints ⟨0, 10, 0, by decide, by decide⟩, .int 0, by decide⟩

/-- Every second integer of a range. -/
def depth : Parameter :=
  ⟨1, ⟨"depth", by decide⟩, .ints ⟨0, 7, 2, by decide, by decide⟩, .int 4, by decide⟩

/-- Two ranges of integers. -/
def twoRanges : List Parameter :=
  [width, depth]

/-- A law of two dimensions. -/
def twoNumbers : Distribution :=
  ⟨.made 2, .joint
    [.uniformInt ⟨0, 20, .linear, 0, by decide⟩, .uniformInt ⟨0, 5, .linear, 1, by decide⟩]⟩

/-- The law of two dimensions is one that the constructors make. -/
theorem made_twoNumbers : twoNumbers.law.Made := by
  refine @Law.Made.joint [_, _] _ (fun part hpart => ?_) rfl
  rcases List.mem_pair.1 hpart with rfl | rfl <;> exact .uniformInt _

/-- A law for both ranges, a call that fails, and a law that only one of them can have alone. -/
theorem wellFormed_run_twoRanges :
    (∀ p ∈ twoRanges, p.domain.defaultLaw?.isSome) ∧
      (∀ call ∈ [(twoNumbers, [1, 0]), (twoNumbers, [0, 5])], call.1.law.Made) ∧
      ∃ a, ofParameters twoRanges = .ok a ∧
        (run twoRanges a [(twoNumbers, [1, 0]), (twoNumbers, [0, 5])]).WellFormed twoRanges ∧
        ∀ i < twoRanges.length, ∃ distribution d,
          (run twoRanges a [(twoNumbers, [1, 0]), (twoNumbers, [0, 5])]).lawAt i =
            .ok (distribution, d) := by
  have hp : ∀ p ∈ twoRanges, p.domain.defaultLaw?.isSome := by decide
  have hmade : ∀ call ∈ [(twoNumbers, [1, 0]), (twoNumbers, [0, 5])], call.1.law.Made := by
    intro call hcall
    rcases List.mem_pair.1 hcall with rfl | rfl <;> exact made_twoNumbers
  exact ⟨hp, hmade, wellFormed_run hp hmade⟩

end SearchSpace.Assignment
