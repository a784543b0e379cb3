import SearchSpace.Proofs.DependencyGraph.Ascending
import SearchSpace.Proofs.Outcome

/-!
# The children of a dependency graph

`DependencyGraph.childLists` enters the nodes one after the other, each with all its parents. The
children that a node has then are those that have it among their parents, in ascending order
(`childLists_eq_ok`, `childrenOf`). If some parent is no node, the first such parent is named
(`childLists_eq_error`).
-/

namespace SearchSpace.DependencyGraph

/-- The parents of a node; none for what is no node. -/
def parentsIn (parents : List (List Nat)) (node : Nat) : List Nat :=
  (parents[node]?).getD []

/-- The nodes that have `parent` among their parents. -/
def childrenOf (parents : List (List Nat)) (parent : Nat) : List Nat :=
  (List.range parents.length).filter fun child => parent ∈ parentsIn parents child

/-- The nodes from `child` on that have `parent` among their parents. -/
def childrenFrom (child : Nat) (parents : List (List Nat)) (parent : Nat) : List Nat :=
  ((parents.zipIdx child).filter fun entry => parent ∈ entry.1).map Prod.snd

variable {parents children : List (List Nat)} {child : Nat}

/-- The children of a node are the nodes that have it as a parent. -/
theorem mem_childrenOf {node child : Nat} :
    child ∈ childrenOf parents node ↔
      child < parents.length ∧ node ∈ parentsIn parents child := by
  simp [childrenOf]

/-- No child of a node stands twice in the list of its children. -/
theorem nodup_childrenOf (node : Nat) : (childrenOf parents node).Nodup :=
  List.nodup_range.filter _

/-- The children of a node are those from the first one on. -/
theorem childrenFrom_zero (node : Nat) : childrenFrom 0 parents node = childrenOf parents node := by
  have hentry : ∀ entry ∈ parents.zipIdx,
      decide (node ∈ entry.1) = decide (node ∈ parentsIn parents entry.2) := by
    intro entry hmem
    rw [parentsIn, List.mem_zipIdx_iff_getElem?.1 hmem, Option.getD_some]
  rw [childrenFrom, List.filter_congr hentry, childrenOf, List.range_eq_range',
    ← List.zipIdx_map_snd 0 parents, List.filter_map]
  rfl

/-! ## Entering a child -/

/-- A child that is entered stands last among the children of each of its parents. -/
theorem enterChild_eq_ok {list : List Nat} (hnodup : list.Nodup)
    (hlt : ∀ parent ∈ list, parent < children.length) :
    enterChild child list children = .ok (children.mapIdx fun node entered =>
      entered ++ if node ∈ list then [child] else []) := by
  induction list generalizing children with
  | nil =>
    rw [enterChild]
    exact congrArg Except.ok (List.ext_getElem? fun node => by simp)
  | cons parent list ih =>
    obtain ⟨hparent, hlist⟩ := List.nodup_cons.1 hnodup
    have hmodify : children.modify parent (· ++ [child]) = children.mapIdx fun node entered =>
        entered ++ if node = parent then [child] else [] := by
      refine List.ext_getElem? fun node => ?_
      rw [List.getElem?_modify, List.getElem?_mapIdx]
      cases children[node]? with
      | none => rfl
      | some entered => by_cases hnode : parent = node <;> simp [hnode, eq_comm]
    rw [enterChild, if_pos (hlt parent List.mem_cons_self), hmodify,
      ih hlist fun other hother => by
        rw [List.length_mapIdx]
        exact hlt other (List.mem_cons_of_mem parent hother),
      List.mapIdx_mapIdx]
    congr 1
    refine List.mapIdx_eq_mapIdx_iff.2 fun node _ => ?_
    -- `parent` does not stand in the rest of the list, so no node gets the child twice
    by_cases hnode : node = parent
    · subst hnode
      simp [hparent]
    · simp [hnode]

/-- A child cannot be entered if one of its parents is no node, and the first such one is named. -/
theorem enterChild_eq_error {list : List Nat} {parent : Nat}
    (h : list.find? (children.length ≤ ·) = some parent) :
    enterChild child list children = .error (.outOfBounds parent children.length) := by
  induction list generalizing children with
  | nil => cases h
  | cons first list ih =>
    rw [List.find?_cons] at h
    by_cases hle : children.length ≤ first
    · rw [decide_eq_true hle] at h
      cases h
      rw [enterChild, if_neg (Nat.not_lt.2 hle)]
    · rw [decide_eq_false hle] at h
      have hlength : (children.modify first (· ++ [child])).length = children.length :=
        List.length_modify ..
      rw [enterChild, if_pos (Nat.not_le.1 hle), ih (by rw [hlength]; exact h), hlength]

/-! ## Entering all nodes -/

/-- Nodes that are entered stand in their order behind the children that there are. -/
theorem enterFrom_eq_ok (hnodup : ∀ list ∈ parents, list.Nodup)
    (hlt : ∀ list ∈ parents, ∀ parent ∈ list, parent < children.length) :
    enterFrom child parents children = .ok (children.mapIdx fun node entered =>
      entered ++ childrenFrom child parents node) := by
  induction parents generalizing child children with
  | nil =>
    rw [enterFrom]
    exact congrArg Except.ok (List.ext_getElem? fun node => by simp [childrenFrom])
  | cons list parents ih =>
    obtain ⟨hlist, hnodup⟩ := List.forall_mem_cons.1 hnodup
    obtain ⟨hfirst, hlt⟩ := List.forall_mem_cons.1 hlt
    rw [enterFrom, enterChild_eq_ok hlist hfirst]
    refine (ih hnodup fun list hmem parent hparent => ?_).trans ?_
    · rw [List.length_mapIdx]
      exact hlt list hmem parent hparent
    · rw [List.mapIdx_mapIdx]
      congr 1
      refine List.mapIdx_eq_mapIdx_iff.2 fun node _ => ?_
      by_cases hnode : node ∈ list <;> simp [childrenFrom, hnode]

/-- Nodes cannot be entered if some parent is no node, and the first such one is named. -/
theorem enterFrom_eq_error {parent : Nat} (hnodup : ∀ list ∈ parents, list.Nodup)
    (h : parents.flatten.find? (children.length ≤ ·) = some parent) :
    enterFrom child parents children = .error (.outOfBounds parent children.length) := by
  induction parents generalizing child children with
  | nil => cases h
  | cons list parents ih =>
    obtain ⟨hlist, hnodup⟩ := List.forall_mem_cons.1 hnodup
    rw [List.flatten_cons, List.find?_append] at h
    cases hfind : list.find? (children.length ≤ ·) with
    | some first =>
      rw [hfind] at h
      cases h
      rw [enterFrom, enterChild_eq_error hfind]
      rfl
    | none =>
      rw [hfind, Option.none_or] at h
      have hlt : ∀ parent ∈ list, parent < children.length := by
        simpa using List.find?_eq_none.1 hfind
      rw [enterFrom, enterChild_eq_ok hlist hlt]
      refine (ih hnodup ?_).trans ?_ <;> rw [List.length_mapIdx]
      exact h

/-- If all parents are nodes, each node has just the nodes as children that have it as a parent. -/
theorem childLists_eq_ok (hnodup : ∀ list ∈ parents, list.Nodup)
    (h : parents.flatten.find? (parents.length ≤ ·) = none) :
    childLists parents = .ok ((List.range parents.length).map (childrenOf parents)) := by
  have hlt : ∀ list ∈ parents, ∀ parent ∈ list,
      parent < (List.replicate parents.length ([] : List Nat)).length := by
    intro list hlist parent hparent
    rw [List.length_replicate, ← Nat.not_le]
    have hnode := List.find?_eq_none.1 h parent (List.mem_flatten.2 ⟨list, hlist, hparent⟩)
    exact fun hle => hnode (decide_eq_true hle)
  rw [childLists, enterFrom_eq_ok hnodup hlt]
  refine congrArg Except.ok (List.ext_getElem? fun node => ?_)
  rw [List.getElem?_mapIdx, List.getElem?_map, List.getElem?_replicate]
  by_cases hnode : node < parents.length
  · rw [if_pos hnode, List.getElem?_range hnode, Option.map_some, Option.map_some,
      List.nil_append, childrenFrom_zero]
  · rw [if_neg hnode, List.getElem?_eq_none (by rw [List.length_range]; exact Nat.not_lt.1 hnode)]
    rfl

/-- If some parent is no node, the first such one is named. -/
theorem childLists_eq_error {parent : Nat} (hnodup : ∀ list ∈ parents, list.Nodup)
    (h : parents.flatten.find? (parents.length ≤ ·) = some parent) :
    childLists parents = .error (.outOfBounds parent parents.length) := by
  have hlength : (List.replicate parents.length ([] : List Nat)).length = parents.length :=
    List.length_replicate
  rw [childLists, enterFrom_eq_error hnodup (by rw [hlength]; exact h), hlength]

end SearchSpace.DependencyGraph
