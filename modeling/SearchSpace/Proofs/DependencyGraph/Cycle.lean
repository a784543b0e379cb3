import Mathlib.Data.Fintype.Card
import Mathlib.Data.Fintype.EquivFin
import Mathlib.Order.WellFounded
import SearchSpace.Proofs.DependencyGraph.Order

/-!
# Cycles of a dependency graph

`DependencyGraph.ofParents` decides whether the nodes can be put into an order, and what it gives is
the graph that it was asked for (`ofParents_decides`). Of nodes that are below one another in a
cycle none can come first, since a parent stands before its child in the order
(`ParentsFirst.idxOf_lt`). The other way round, when the queue is empty, each node that is left out
of the order has a parent that is left out as well (`Drained.exists_parent_of_not_mem`), and among
finitely many nodes this makes a cycle (`isCyclic_of_forall_exists`).
-/

namespace SearchSpace.DependencyGraph

/-! ## Edges, paths and cycles -/

/-- A node stands in the list of parents of another. -/
def IsParent (lists : List (List Nat)) (parent child : Nat) : Prop :=
  parent ∈ parentsIn lists child

/-- A path along the edges from parents to children comes back to the node at which it starts; a
node that is its own parent makes such a path with one edge. -/
def IsCyclic (lists : List (List Nat)) : Prop :=
  ∃ node, Relation.TransGen (IsParent lists) node node

/-- Some parent is no node. -/
def LeavesRange (lists : List (List Nat)) : Prop :=
  ∃ list ∈ lists, ∃ parent ∈ list, lists.length ≤ parent

instance (lists : List (List Nat)) : Decidable (LeavesRange lists) :=
  inferInstanceAs (Decidable (∃ list ∈ lists, ∃ parent ∈ list, lists.length ≤ parent))

/-- A graph has the given edges, each once and sorted on both sides, and an order of all nodes in
which every parent stands before its children. -/
structure Represents (g : DependencyGraph) (lists : List (List Nat)) : Prop where
  perm : g.order.Perm (List.range lists.length)
  before : ∀ parent child, IsParent lists parent child →
    g.order.idxOf parent < g.order.idxOf child
  parentsAt : ∀ node < lists.length, ∃ parents, g.parentsAt node = .ok parents ∧
    parents.Pairwise (· < ·) ∧ ∀ parent, parent ∈ parents ↔ IsParent lists parent node
  childrenAt : ∀ node < lists.length, ∃ children, g.childrenAt node = .ok children ∧
    children.Pairwise (· < ·) ∧ ∀ child, child ∈ children ↔ IsParent lists node child

variable {lists : List (List Nat)} {parent child : Nat}

/-- What has a parent is a node. -/
theorem IsParent.lt_length (h : IsParent lists parent child) : child < lists.length := by
  rw [IsParent, parentsIn] at h
  by_contra hle
  rw [List.getElem?_eq_none (Nat.not_lt.1 hle)] at h
  cases h

/-- Unless some parent is no node, every parent is one. -/
theorem IsParent.parent_lt (hrange : ¬ LeavesRange lists) (h : IsParent lists parent child) :
    parent < lists.length := by
  by_contra hle
  have hlt := h.lt_length
  rw [IsParent, parentsIn, List.getElem?_eq_getElem hlt, Option.getD_some] at h
  exact hrange ⟨_, List.getElem_mem hlt, parent, h, Nat.not_lt.1 hle⟩

/-- Sorting the parents of each node changes none of them. -/
theorem mem_parentsIn_map_ascending :
    parent ∈ parentsIn (lists.map ascending) child ↔ IsParent lists parent child := by
  rw [IsParent, parentsIn, parentsIn, List.getElem?_map]
  cases lists[child]? with
  | none => rfl
  | some list => exact mem_ascending

/-! ## An order excludes cycles -/

/-- In an order with parents first, a parent has a lesser place than its child. -/
theorem ParentsFirst.idxOf_lt {parents : List (List Nat)} : ∀ {order : List Nat},
    ParentsFirst parents order → parent ∈ order → child ∈ order →
      parent ∈ parentsIn parents child → order.idxOf parent < order.idxOf child
  | node :: order, ⟨hnode, horder⟩, hparent, hchild, hedge => by
    have hne : child ≠ node := by
      rintro rfl
      exact hnode parent hedge hparent
    have hchild := (List.mem_cons.1 hchild).resolve_left hne
    rw [List.idxOf_cons_ne order (Ne.symm hne)]
    rcases List.mem_cons.1 hparent with rfl | hparent
    · rw [List.idxOf_cons_self]
      exact Nat.succ_pos _
    · by_cases heq : parent = node
      · rw [heq, List.idxOf_cons_self]
        exact Nat.succ_pos _
      · rw [List.idxOf_cons_ne order (Ne.symm heq)]
        exact Nat.succ_lt_succ (horder.idxOf_lt hparent hchild hedge)

/-- Places that grow along each edge grow along each path, so that no path comes back. -/
theorem not_isCyclic_of_forall_lt (place : Nat → Nat)
    (h : ∀ parent child, IsParent lists parent child → place parent < place child) :
    ¬ IsCyclic lists := by
  rintro ⟨node, hpath⟩
  have hgrows : ∀ i, Relation.TransGen (IsParent lists) node i → place node < place i := by
    intro i hi
    induction hi with
    | single hedge => exact h _ _ hedge
    | tail _ hedge ih => exact ih.trans (h _ _ hedge)
  exact lt_irrefl _ (hgrows node hpath)

/-! ## What is left out of the order is in a cycle -/

/-- Finitely many nodes each of which has a parent among them have a cycle. -/
theorem isCyclic_of_forall_exists (n : Nat) (left : Nat → Prop) (hlt : ∀ i, left i → i < n)
    (hne : ∃ i, left i) (hparent : ∀ i, left i → ∃ p, left p ∧ IsParent lists p i) :
    IsCyclic lists := by
  by_contra hacyclic
  -- without a cycle the paths between the nodes are well-founded, and some node is the first one
  let below : Fin n → Fin n → Prop := fun i j => Relation.TransGen (IsParent lists) i j
  have : IsTrans (Fin n) below := ⟨fun _ _ _ => Relation.TransGen.trans⟩
  have : Std.Irrefl below := ⟨fun i hi => hacyclic ⟨i, hi⟩⟩
  have hfounded : WellFounded below := Finite.wellFounded_of_trans_of_irrefl below
  obtain ⟨i, hi⟩ := hne
  obtain ⟨first, hfirst, hleast⟩ := hfounded.has_min {j | left j} ⟨⟨i, hlt i hi⟩, hi⟩
  obtain ⟨p, hp, hedge⟩ := hparent first hfirst
  exact hleast ⟨p, hlt p hp⟩ hp (.single hedge)

/-- When the queue is empty, a node that is not in the order has a parent that is not in it. -/
theorem Drained.exists_parent_of_not_mem {parents : List (List Nat)} {counts order : List Nat}
    (h : Drained parents counts [] order) {i : Nat} (hi : i < parents.length) (hmem : i ∉ order) :
    ∃ p ∈ parentsIn parents i, p ∉ order := by
  by_contra hall
  push Not at hall
  exact hmem ((List.append_nil order) ▸ (h.mem_iff i).2 ⟨hi, hall⟩)

/-- An order that is too short leaves a node out. -/
theorem exists_lt_of_length_lt {n : Nat} {order : List Nat} (h : order.length < n) :
    ∃ i < n, i ∉ order := by
  by_contra hall
  push Not at hall
  have hsubset : List.range n ⊆ order := fun i hi => hall i (List.mem_range.1 hi)
  have hle := (List.subperm_of_subset List.nodup_range hsubset).length_le
  rw [List.length_range] at hle
  omega

/-- When the queue is empty and the order is too short, there is a cycle. -/
theorem Drained.isCyclic {counts order : List Nat} (hrange : ¬ LeavesRange lists)
    (h : Drained (lists.map ascending) counts [] order) (hlength : order.length < lists.length) :
    IsCyclic lists := by
  refine isCyclic_of_forall_exists lists.length (fun i => i < lists.length ∧ i ∉ order)
    (fun i hi => hi.1) (exists_lt_of_length_lt hlength) fun i ⟨hi, hmem⟩ => ?_
  obtain ⟨p, hp, hleft⟩ := h.exists_parent_of_not_mem (by rwa [List.length_map]) hmem
  have hedge := mem_parentsIn_map_ascending.1 hp
  exact ⟨p, ⟨hedge.parent_lt hrange, hleft⟩, hedge⟩

/-! ## The graph of some lists of parents -/

/-- A parent that is no node is found and named. -/
theorem ofParents_of_leavesRange (h : LeavesRange lists) :
    ∃ parent, ofParents lists = .error (.outOfBounds parent lists.length) ∧
      lists.length ≤ parent ∧ ∃ list ∈ lists, parent ∈ list := by
  obtain ⟨list, hlist, parent, hparent, hle⟩ := h
  have hmem : parent ∈ (lists.map ascending).flatten :=
    List.mem_flatten.2 ⟨_, List.mem_map_of_mem hlist, mem_ascending.2 hparent⟩
  have hlength : (lists.map ascending).length = lists.length := List.length_map ascending
  rw [← hlength] at hle ⊢
  obtain ⟨found, hfind⟩ : ∃ found,
      (lists.map ascending).flatten.find? ((lists.map ascending).length ≤ ·) = some found :=
    Option.isSome_iff_exists.1 (List.find?_isSome.2 ⟨parent, hmem, decide_eq_true hle⟩)
  have hbeyond : (lists.map ascending).length ≤ found := by
    simpa only [decide_eq_true_eq] using List.find?_some hfind
  obtain ⟨sorted, hsorted, hfound⟩ := List.mem_flatten.1 (List.mem_of_find?_eq_some hfind)
  obtain ⟨list', hlist', rfl⟩ := List.mem_map.1 hsorted
  refine ⟨found, ?_, hbeyond, list', hlist', mem_ascending.1 hfound⟩
  rw [ofParents, childLists_eq_error nodup_of_mem_map_ascending hfind]
  rfl

/-- If all parents are nodes, the children of each node are found. -/
theorem exists_childLists (h : ¬ LeavesRange lists) :
    ∃ children, childLists (lists.map ascending) = .ok children := by
  refine ⟨_, childLists_eq_ok nodup_of_mem_map_ascending (List.find?_eq_none.2 ?_)⟩
  intro parent hparent hle
  obtain ⟨_, hsorted, hmem⟩ := List.mem_flatten.1 hparent
  obtain ⟨list, hlist, rfl⟩ := List.mem_map.1 hsorted
  refine h ⟨list, hlist, parent, mem_ascending.1 hmem, ?_⟩
  rw [← List.length_map (f := ascending)]
  exact of_decide_eq_true hle

/-- A graph that is made has the given edges. -/
theorem represents_of_ofParents {g : DependencyGraph} (hrange : ¬ LeavesRange lists)
    (h : ofParents lists = .ok g) : g.Represents lists := by
  obtain ⟨hparents, hperm, hfirst⟩ := ofParents_order h
  have hmem : ∀ i, i ∈ g.order ↔ i < lists.length := fun i =>
    hperm.mem_iff.trans List.mem_range
  have hchildren : g.children =
      (List.range lists.length).map (childrenOf (lists.map ascending)) := by
    obtain ⟨children, hchildren⟩ := exists_childLists hrange
    obtain ⟨heq, counts, order, -, -, hgraph⟩ := exists_ofParents_eq hchildren
    rw [hgraph] at h
    split at h <;> cases h
    exact heq
  refine ⟨hperm, fun parent child hedge => ?_, fun node hnode => ?_, fun node hnode => ?_⟩
  · refine hfirst.idxOf_lt ((hmem parent).2 (hedge.parent_lt hrange))
      ((hmem child).2 hedge.lt_length) ?_
    rw [hparents]
    exact mem_parentsIn_map_ascending.2 hedge
  · refine ⟨ascending lists[node], ?_, pairwise_ascending _, fun parent => ?_⟩
    · rw [parentsAt, hparents, List.getElem?_map, List.getElem?_eq_getElem hnode]
      rfl
    · rw [mem_ascending, IsParent, parentsIn, List.getElem?_eq_getElem hnode, Option.getD_some]
  · refine ⟨childrenOf (lists.map ascending) node, ?_, List.pairwise_lt_range.filter _,
      fun child => ?_⟩
    · rw [childrenAt, hchildren, List.getElem?_map, List.getElem?_range hnode]
      rfl
    · rw [mem_childrenOf, mem_parentsIn_map_ascending, List.length_map]
      exact and_iff_right_of_imp IsParent.lt_length

/-- The search for an order never has to take anything off a count that is zero. It is an error if a
parent is no node, and then such a parent is named. Otherwise it is an error just if there is a
cycle, and without a cycle there is a graph, which has the given edges and an order of all nodes
with parents before children. -/
theorem ofParents_decides (lists : List (List Nat)) :
    (LeavesRange lists →
      ∃ parent, ofParents lists = .error (.outOfBounds parent lists.length) ∧
        lists.length ≤ parent ∧ ∃ list ∈ lists, parent ∈ list) ∧
    (¬ LeavesRange lists →
      (∃ children order, childLists (lists.map ascending) = .ok children ∧
        sort? (lists.map ascending) children = some order) ∧
      (ofParents lists = .error .invalidGraph ↔ IsCyclic lists) ∧
      (¬ IsCyclic lists → ∃ g, ofParents lists = .ok g ∧ g.Represents lists)) := by
  refine ⟨ofParents_of_leavesRange, fun hrange => ?_⟩
  obtain ⟨children, hchildren⟩ := exists_childLists hrange
  obtain ⟨-, counts, order, hsort, hdrained, hgraph⟩ := exists_ofParents_eq hchildren
  by_cases hlength : order.length < lists.length
  · have hcyclic := hdrained.isCyclic hrange hlength
    rw [if_pos hlength] at hgraph
    exact ⟨⟨children, order, hchildren, hsort⟩, iff_of_true hgraph hcyclic,
      fun hacyclic => absurd hcyclic hacyclic⟩
  · rw [if_neg hlength] at hgraph
    have hrepresents := represents_of_ofParents hrange hgraph
    have hacyclic := not_isCyclic_of_forall_lt _ hrepresents.before
    refine ⟨⟨children, order, hchildren, hsort⟩, iff_of_false ?_ hacyclic,
      fun _ => ⟨_, hgraph, hrepresents⟩⟩
    rw [hgraph]
    exact fun h => nomatch h

/-- A parent that is no node, and two roots with two nodes below them, one of which has a parent
twice. -/
theorem ofParents_decides_twoRoots :
    (LeavesRange [[], [0, 7]] ∧
      ∃ parent, ofParents [[], [0, 7]] = .error (.outOfBounds parent 2) ∧ 2 ≤ parent) ∧
      ¬ LeavesRange [[], [0, 0], [], [2, 0]] ∧ ¬ IsCyclic [[], [0, 0], [], [2, 0]] ∧
      ∃ g, ofParents [[], [0, 0], [], [2, 0]] = .ok g ∧ g.Represents [[], [0, 0], [], [2, 0]] := by
  have hleaves : LeavesRange [[], [0, 7]] := by decide
  obtain ⟨parent, hbounds, hle, -⟩ := (ofParents_decides [[], [0, 7]]).1 hleaves
  have hrange : ¬ LeavesRange [[], [0, 0], [], [2, 0]] := by decide
  have hacyclic : ¬ IsCyclic [[], [0, 0], [], [2, 0]] := by
    -- the parents are even and the children odd
    refine not_isCyclic_of_forall_lt (· % 2) fun parent child hedge => ?_
    have hlt := hedge.lt_length
    rw [IsParent, parentsIn] at hedge
    simp only [List.length_cons, List.length_nil] at hlt
    rcases (by omega : child = 0 ∨ child = 1 ∨ child = 2 ∨ child = 3) with rfl | rfl | rfl | rfl
    · cases hedge
    · simp at hedge
      omega
    · cases hedge
    · simp at hedge
      omega
  exact ⟨⟨hleaves, parent, hbounds, hle⟩, hrange, hacyclic,
    ((ofParents_decides [[], [0, 0], [], [2, 0]]).2 hrange).2.2 hacyclic⟩

end SearchSpace.DependencyGraph
