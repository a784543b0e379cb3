import SearchSpace.Proofs.DependencyGraph.Children

/-!
# The order of a dependency graph

`DependencyGraph.ofParents` gives a graph only with an order of all its nodes that has the parents
of each node before it (`ofParents_order`). While nodes are taken from the queue, the order and the
queue together hold the nodes all of whose parents are in the order, and the count of a node is the
number of its parents that are not in the order (`Drained`). Taking one node from the queue
preserves this (`Drained.step`), and no count has to go below zero on the way.
-/

namespace SearchSpace.DependencyGraph

/-- No node of an order is its own parent or has a parent among the nodes after it. -/
def ParentsFirst (parents : List (List Nat)) : List Nat → Prop
  | [] => True
  | node :: order =>
    (∀ parent ∈ parentsIn parents node, parent ∉ node :: order) ∧ ParentsFirst parents order

variable {parents : List (List Nat)}

/-- A node can stand at the end of an order if it is no parent of itself or of a node before it. -/
theorem ParentsFirst.concat {node : Nat} (hself : node ∉ parentsIn parents node) :
    ∀ {order : List Nat}, ParentsFirst parents order →
      (∀ i ∈ order, node ∉ parentsIn parents i) → ParentsFirst parents (order ++ [node])
  | [], _, _ => by
    refine ⟨fun parent hparent hmem => ?_, trivial⟩
    rw [List.mem_singleton.1 hmem] at hparent
    exact hself hparent
  | i :: order, ⟨hi, horder⟩, hnode => by
    refine ⟨fun parent hparent hmem => ?_, horder.concat hself fun j hj => hnode j (.tail i hj)⟩
    rcases List.mem_append.1 (show parent ∈ (i :: order) ++ [node] from hmem) with hmem | hmem
    · exact hi parent hparent hmem
    · rw [List.mem_singleton.1 hmem] at hparent
      exact hnode i (.head order) hparent

/-! ## Counts -/

/-- Counting down different nodes whose counts are positive succeeds. It takes one off each of these
counts and gives those that were one. -/
theorem countDownAll?_eq_some : ∀ {nodes counts : List Nat}, nodes.Nodup →
    (∀ i ∈ nodes, ∃ k, counts[i]? = some (k + 1)) →
    ∃ counts', countDownAll? counts nodes =
        some (counts', nodes.filter fun i => counts[i]? == some 1) ∧
      counts'.length = counts.length ∧
      ∀ i, counts'[i]? = if i ∈ nodes then (counts[i]?).map (· - 1) else counts[i]?
  | [], counts, _, _ => ⟨counts, rfl, rfl, fun i => by simp⟩
  | node :: nodes, counts, hnodup, hpositive => by
    obtain ⟨hnode, hnodes⟩ := List.nodup_cons.1 hnodup
    obtain ⟨k, hk⟩ := hpositive node (.head nodes)
    have hother : ∀ i ∈ nodes, (counts.set node k)[i]? = counts[i]? := by
      intro i hi
      refine List.getElem?_set_ne fun hne => hnode ?_
      rw [hne]
      exact hi
    obtain ⟨counts', hall, hlength, hget⟩ :=
      @countDownAll?_eq_some nodes (counts.set node k) hnodes fun i hi => by
        obtain ⟨k', hk'⟩ := hpositive i (.tail node hi)
        exact ⟨k', (hother i hi).trans hk'⟩
    have hfilter : (nodes.filter fun i => (counts.set node k)[i]? == some 1) =
        nodes.filter fun i => counts[i]? == some 1 :=
      List.filter_congr fun i hi => by rw [hother i hi]
    refine ⟨counts', ?_, by rw [hlength, List.length_set], fun i => ?_⟩
    · have hzero : (counts[node]? == some 1) = (k == 0) := by rw [hk]; simp
      rw [hfilter] at hall
      rw [List.filter_cons, hzero]
      simp only [countDownAll?, countDown?, hk, hall, Option.bind_eq_bind, Option.bind_some]
      rfl
    · rw [hget i]
      by_cases hi : i = node
      · have hlt : node < counts.length := (List.getElem?_eq_some_iff.1 hk).1
        subst hi
        rw [if_neg hnode, if_pos (.head nodes), hk, List.getElem?_set_self hlt]
        rfl
      · have hset : (counts.set node k)[i]? = counts[i]? := List.getElem?_set_ne (Ne.symm hi)
        simp only [List.mem_cons, hi, false_or, hset]

/-- A new node in the order takes one off the parents that are not in it, if it is one of them. -/
theorem countP_not_mem_concat {order : List Nat} {node : Nat} (hnode : node ∉ order) :
    ∀ {l : List Nat}, l.Nodup →
      l.countP (· ∉ order) = l.countP (· ∉ order ++ [node]) + if node ∈ l then 1 else 0
  | [], _ => rfl
  | i :: l, hnodup => by
    obtain ⟨hi, hl⟩ := List.nodup_cons.1 hnodup
    rw [List.countP_cons, List.countP_cons, countP_not_mem_concat hnode hl]
    by_cases hne : i = node
    · subst hne
      simp [hnode, hi]
    · have hne' : ¬ node = i := fun h => hne h.symm
      have hconcat : i ∈ order ++ [node] ↔ i ∈ order := by simp [hne]
      simp only [hconcat, List.mem_cons, hne', false_or]
      omega

/-- No parent is left out of the order just if their number is zero. -/
theorem countP_not_mem_eq_zero {order l : List Nat} :
    l.countP (· ∉ order) = 0 ↔ ∀ i ∈ l, i ∈ order := by
  simp [List.countP_eq_zero]

/-! ## Draining the queue -/

/-- The state of the search for an order. -/
structure Drained (parents : List (List Nat)) (counts queue order : List Nat) : Prop where
  length_counts : counts.length = parents.length
  nodup : (order ++ queue).Nodup
  /-- The count of a node is the number of its parents that are not in the order. -/
  count : ∀ i < parents.length,
    counts[i]? = some ((parentsIn parents i).countP (· ∉ order))
  /-- A node is in the queue or the order as soon as all its parents are in the order. -/
  mem_iff : ∀ i, i ∈ order ++ queue ↔
    i < parents.length ∧ ∀ parent ∈ parentsIn parents i, parent ∈ order
  parentsFirst : ParentsFirst parents order

namespace Drained

variable {counts queue order : List Nat} {node : Nat}

/-- With the order empty, the queue holds the nodes without parents. -/
theorem initial : Drained parents (parents.map List.length)
    ((List.range parents.length).filter fun i =>
      ((parents.map List.length)[i]?.getD 0) == 0) [] where
  length_counts := List.length_map List.length
  nodup := List.nodup_range.filter _
  count i hi := by simp [parentsIn, hi]
  mem_iff i := by
    rw [List.nil_append, List.mem_filter, List.mem_range]
    refine and_congr_right fun hi => ?_
    simp [parentsIn, hi, List.eq_nil_iff_forall_not_mem]
  parentsFirst := trivial

/-- The order and the queue hold nodes, each once. -/
theorem length_le (h : Drained parents counts queue order) :
    order.length + queue.length ≤ parents.length := by
  have hsubset : order ++ queue ⊆ List.range parents.length := fun i hi =>
    List.mem_range.2 ((h.mem_iff i).1 hi).1
  have hle := (List.subperm_of_subset h.nodup hsubset).length_le
  rwa [List.length_append, List.length_range] at hle

/-- The next node moves from the queue to the order, and the nodes of which it was the last parent
missing enter the queue. -/
theorem step (hparents : ∀ l ∈ parents, l.Nodup)
    (h : Drained parents counts (node :: queue) order) :
    ∃ counts' ready, countDownAll? counts (childrenOf parents node) = some (counts', ready) ∧
      Drained parents counts' (queue ++ ready) (order ++ [node]) := by
  have hnode : node ∉ order := fun hmem =>
    (List.nodup_append.1 h.nodup).2.2 node hmem node (.head queue) rfl
  have hnodup : ∀ i, (parentsIn parents i).Nodup := by
    intro i
    unfold parentsIn
    cases hi : parents[i]? with
    | none => exact List.nodup_nil
    | some l => exact hparents l (List.mem_of_getElem? hi)
  have hcount := fun i => countP_not_mem_concat hnode (hnodup i)
  obtain ⟨counts', hall, hlength, hget⟩ :=
    @countDownAll?_eq_some (childrenOf parents node) counts (nodup_childrenOf node) fun i hi => by
      obtain ⟨hlt, hmem⟩ := mem_childrenOf.1 hi
      refine ⟨(parentsIn parents i).countP (· ∉ order ++ [node]), ?_⟩
      rw [h.count i hlt, hcount i, if_pos hmem]
  refine ⟨counts', _, hall, ?_⟩
  -- A child is ready if nothing but `node` was missing.
  have hready : ∀ i, (i ∈ (childrenOf parents node).filter fun i => counts[i]? == some 1) ↔
      i < parents.length ∧ node ∈ parentsIn parents i ∧
        ∀ parent ∈ parentsIn parents i, parent ∈ order ++ [node] := by
    intro i
    rw [List.mem_filter, mem_childrenOf, and_assoc]
    refine and_congr_right fun hlt => and_congr_right fun hmem => ?_
    have hone := hcount i
    rw [if_pos hmem] at hone
    rw [h.count i hlt, ← countP_not_mem_eq_zero, beq_iff_eq, Option.some.injEq, hone]
    omega
  have hparentsNode := ((h.mem_iff node).1 (List.mem_append_right order (.head queue))).2
  have hassoc : order ++ [node] ++ (queue ++ (childrenOf parents node).filter fun i =>
        counts[i]? == some 1) =
      (order ++ node :: queue) ++ (childrenOf parents node).filter fun i =>
        counts[i]? == some 1 := by
    simp only [List.append_assoc, List.cons_append, List.nil_append]
  exact {
    length_counts := hlength.trans h.length_counts
    nodup := by
      rw [hassoc]
      refine List.nodup_append.2 ⟨h.nodup, (nodup_childrenOf node).filter _, ?_⟩
      intro i hold j hnew heq
      subst heq
      exact hnode (((h.mem_iff i).1 hold).2 node ((hready i).1 hnew).2.1)
    count := by
      intro i hi
      rw [hget i, h.count i hi, hcount i]
      by_cases hmem : node ∈ parentsIn parents i
      · rw [if_pos (mem_childrenOf.2 ⟨hi, hmem⟩), if_pos hmem]
        rfl
      · rw [if_neg fun hchild => hmem (mem_childrenOf.1 hchild).2, if_neg hmem]
        rfl
    mem_iff := by
      intro i
      rw [hassoc, List.mem_append, h.mem_iff, hready]
      constructor
      · rintro (⟨hi, hold⟩ | ⟨hi, -, hnew⟩)
        · exact ⟨hi, fun parent hparent => List.mem_append_left _ (hold parent hparent)⟩
        · exact ⟨hi, hnew⟩
      · rintro ⟨hi, hnew⟩
        by_cases hmem : node ∈ parentsIn parents i
        · exact .inr ⟨hi, hmem, hnew⟩
        · refine .inl ⟨hi, fun parent hparent => ?_⟩
          rcases List.mem_append.1 (hnew parent hparent) with hin | hin
          · exact hin
          · exact absurd (List.mem_singleton.1 hin ▸ hparent) hmem
    parentsFirst := by
      have hself : node ∉ parentsIn parents node := fun hmem => hnode (hparentsNode node hmem)
      refine h.parentsFirst.concat hself fun i hi hmem => ?_
      exact hnode (((h.mem_iff i).1 (List.mem_append_left _ hi)).2 node hmem) }

/-- Draining the queue succeeds with as much fuel as there are nodes that are not in the order. -/
theorem drain (hparents : ∀ l ∈ parents, l.Nodup) {children : List (List Nat)}
    (hchildren : ∀ i < parents.length, children[i]? = some (childrenOf parents i)) :
    ∀ (fuel : Nat) {counts queue order : List Nat}, Drained parents counts queue order →
      parents.length ≤ fuel + order.length →
      ∃ counts' order', drain? children fuel counts queue order = some order' ∧
        Drained parents counts' [] order'
  | fuel, counts, [], order, h, _ => ⟨counts, order, by cases fuel <;> rfl, h⟩
  | 0, counts, node :: queue, order, h, hfuel => by
    have hle := h.length_le
    rw [List.length_cons] at hle
    omega
  | fuel + 1, counts, node :: queue, order, h, hfuel => by
    have hlt := ((h.mem_iff node).1 (List.mem_append_right order (.head queue))).1
    obtain ⟨counts', ready, hall, hstep⟩ := h.step hparents
    obtain ⟨counts'', order', hdrain, hfinal⟩ :=
      drain hparents hchildren fuel hstep (by rw [List.length_append, List.length_singleton]; omega)
    refine ⟨counts'', order', ?_, hfinal⟩
    simp only [drain?, hchildren node hlt, Option.getD_some, hall, Option.bind_eq_bind,
      Option.bind_some]
    exact hdrain

end Drained

/-- The search for an order ends with the queue empty. -/
theorem sort?_eq_some (hparents : ∀ l ∈ parents, l.Nodup) :
    ∃ counts order,
      sort? parents ((List.range parents.length).map (childrenOf parents)) = some order ∧
        Drained parents counts [] order :=
  Drained.initial.drain hparents (fun i hi => by simp [hi]) parents.length (Nat.le_add_right _ _)

/-! ## The graph of some lists of parents -/

variable {lists children : List (List Nat)}

/-- No parent stands twice among those of a node after they are sorted. -/
theorem nodup_of_mem_map_ascending : ∀ l ∈ lists.map ascending, l.Nodup := by
  intro l hl
  obtain ⟨list, -, rfl⟩ := List.mem_map.1 hl
  exact nodup_ascending list

/-- Once the children of each node are known, it depends on the length of the order alone whether
there is a graph. -/
theorem exists_ofParents_eq (h : childLists (lists.map ascending) = .ok children) :
    children = (List.range lists.length).map (childrenOf (lists.map ascending)) ∧
      ∃ counts order, sort? (lists.map ascending) children = some order ∧
        Drained (lists.map ascending) counts [] order ∧
        ofParents lists = if order.length < lists.length then .error .invalidGraph
          else .ok ⟨lists.map ascending, children, order⟩ := by
  have hchildren : children = (List.range (lists.map ascending).length).map
      (childrenOf (lists.map ascending)) := by
    cases hfind : (lists.map ascending).flatten.find? ((lists.map ascending).length ≤ ·) with
    | none => exact Except.ok.inj (h.symm.trans (childLists_eq_ok nodup_of_mem_map_ascending hfind))
    | some parent => cases h.symm.trans (childLists_eq_error nodup_of_mem_map_ascending hfind)
  obtain ⟨counts, order, hsort, hdrained⟩ := sort?_eq_some (@nodup_of_mem_map_ascending lists)
  rw [← hchildren] at hsort
  rw [List.length_map] at hchildren
  refine ⟨hchildren, counts, order, hsort, hdrained, ?_⟩
  simp only [ofParents, h, bind, Except.bind, hsort, List.length_map]

/-- A graph has the given parents in ascending order, and its order has all nodes, each after its
parents. -/
theorem ofParents_order {g : DependencyGraph} (h : ofParents lists = .ok g) :
    g.parents = lists.map ascending ∧ g.order.Perm (List.range lists.length) ∧
      ParentsFirst g.parents g.order := by
  obtain ⟨children, hchildren, -⟩ := bind_eq_ok.1 h
  obtain ⟨-, counts, order, hsort, hdrained, hgraph⟩ := exists_ofParents_eq hchildren
  rw [hgraph] at h
  split at h
  · cases h
  · next hlength =>
    cases h
    refine ⟨rfl, ?_, hdrained.parentsFirst⟩
    have hsubset : order ⊆ List.range lists.length := by
      intro i hi
      have hlt := ((hdrained.mem_iff i).1 (List.mem_append_left [] hi)).1
      rwa [List.length_map, ← List.mem_range] at hlt
    have horder : order.Nodup := (List.append_nil order) ▸ hdrained.nodup
    refine (List.subperm_of_subset horder hsubset).perm_of_length_le ?_
    rw [List.length_range]
    exact Nat.le_of_not_lt hlength

end SearchSpace.DependencyGraph
