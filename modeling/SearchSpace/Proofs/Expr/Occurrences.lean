import SearchSpace.Proofs.Expr.Reads
import SearchSpace.Proofs.Expr.RoundTrip

/-!
# The places of the parameters that occur

`Occurs` says where a parameter stands in an expression, by going down from a node to its children.
`Expr.vars` finds just the parameters that occur (`mem_vars_iff`), so `Expr.indices` gives just
their places, and an evaluation reads no value but those at these places: two vectors that differ
elsewhere give the same result or the same error (`eval_reads_indices`).
-/

namespace SearchSpace.Expr

/-- A parameter stands in an expression as its variable, or it stands in a child of its node. -/
inductive Occurs (p : Parameter) : Expr Parameter → Prop
  | var : Occurs p (.var p)
  | child {e part : Expr Parameter} : part ∈ e.children → Occurs p part → Occurs p e

mutual
/-- A parameter that is found in an expression occurs there. -/
theorem occurs_of_mem_vars {p : Parameter} : ∀ (e : Expr Parameter), p ∈ e.vars → Occurs p e
  | literal v, h => by cases h
  | var q, h => by
    cases List.mem_singleton.1 h
    exact .var
  | unary op e, h => .child (List.mem_singleton_self e) (occurs_of_mem_vars e h)
  | binary op left right, h => by
    rcases List.mem_append.1 h with h | h
    · exact .child List.mem_cons_self (occurs_of_mem_vars left h)
    · exact .child (List.mem_cons_of_mem left List.mem_cons_self) (occurs_of_mem_vars right h)
  | list items, h =>
    have ⟨item, hitem, hoccurs⟩ := exists_occurs_of_mem_varsAll items h
    .child hitem hoccurs

/-- A parameter that is found in some expressions occurs in one of them. -/
theorem exists_occurs_of_mem_varsAll {p : Parameter} : ∀ (es : List (Expr Parameter)),
    p ∈ varsAll es → ∃ e ∈ es, Occurs p e
  | e :: es, h => by
    rcases List.mem_append.1 h with h | h
    · exact ⟨e, List.mem_cons_self, occurs_of_mem_vars e h⟩
    · obtain ⟨item, hitem, hoccurs⟩ := exists_occurs_of_mem_varsAll es h
      exact ⟨item, List.mem_cons_of_mem e hitem, hoccurs⟩
end

/-- The parameters of a child are found in the expression. -/
theorem vars_subset_of_mem_children {e part : Expr Parameter} (h : part ∈ e.children) :
    part.vars ⊆ e.vars := by
  cases e with
  | literal v => cases h
  | var q => cases h
  | unary op operand => cases List.mem_singleton.1 h; exact List.Subset.refl _
  | binary op left right =>
    rcases List.mem_pair.1 h with rfl | rfl
    · exact List.subset_append_left _ _
    · exact List.subset_append_right _ _
  | list items => exact vars_subset_varsAll h

/-- The parameters that are found in an expression are those that occur there. -/
theorem mem_vars_iff {p : Parameter} {e : Expr Parameter} : p ∈ e.vars ↔ Occurs p e := by
  refine ⟨occurs_of_mem_vars e, fun h => ?_⟩
  induction h with
  | var => exact List.mem_singleton_self p
  | child hpart _ ih => exact vars_subset_of_mem_children hpart ih

/-- The places that an expression reads are those of the parameters that occur there. -/
theorem mem_indices_iff {scope : Scope} {e : Expr Parameter} {places : List Nat}
    (h : e.indices scope = .ok places) {i : Nat} :
    i ∈ places ↔ ∃ p, Occurs p e ∧ scope.indexOf? p = some i := by
  constructor
  · intro hi
    obtain ⟨found, hfound, rfl⟩ := indices_eq_ok.1 h
    obtain ⟨n, hn, rfl⟩ := List.getElem_of_mem (DependencyGraph.mem_ascending.1 hi)
    have hlt : n < e.vars.length := hfound.length_eq ▸ hn
    exact ⟨e.vars[n], mem_vars_iff.1 (List.getElem_mem hlt), hfound.get hlt hn⟩
  · rintro ⟨p, hp, hindex⟩
    obtain ⟨j, hj, hindex'⟩ := exists_mem_of_indices h (mem_vars_iff.2 hp)
    rw [hindex] at hindex'
    cases hindex'
    exact hj

/-- An expression with given places in a scope has the same result or error on any two vectors that
agree at these places; these are the places of the parameters that occur in it, ascending and each
once. -/
theorem eval_reads_indices {scope : Scope} {e : Expr Parameter} {places : List Nat}
    (h : e.indices scope = .ok places) :
    (∀ v w : List Value, v.length = scope.size → w.length = scope.size →
      (∀ i ∈ places, v[i]? = w[i]?) → e.eval ⟨scope, v⟩ = e.eval ⟨scope, w⟩) ∧
      places.Pairwise (· < ·) ∧
      ∀ i, i ∈ places ↔ ∃ p, Occurs p e ∧ scope.indexOf? p = some i := by
  refine ⟨fun v w hv hw hagree => ?_, ?_, fun i => mem_indices_iff h⟩
  · exact eval_congr_of_indices h (hv.trans hw.symm) hagree
  · obtain ⟨found, -, rfl⟩ := indices_eq_ok.1 h
    exact DependencyGraph.pairwise_ascending found

/-- A condition on one of two ranges, which reads it twice. -/
def narrow : Expr Parameter :=
  .binary .or (.binary .less (.var Assignment.width) (.literal (.int 5)))
    (.binary .member (.var Assignment.width) (.list [.literal (.int 7)]))

/-- The condition does not read the other range, which may be inactive. -/
theorem eval_reads_indices_narrow :
    narrow.indices ranges = .ok [0] ∧
      narrow.eval ⟨ranges, [.int 3, .int 4]⟩ = narrow.eval ⟨ranges, [.int 3, .inactive]⟩ ∧
      [0].Pairwise (· < ·) ∧
      ∃ p, Occurs p narrow ∧ ranges.indexOf? p = some 0 := by
  have hascending : DependencyGraph.ascending [0, 0] = [0] :=
    DependencyGraph.ascending_eq_iff.2 ⟨List.pairwise_singleton _ 0, by simp⟩
  have hindices : narrow.indices ranges = .ok [0] :=
    indices_eq_ok.2 ⟨[0, 0], .cons rfl (.cons rfl .nil), hascending⟩
  obtain ⟨hsame, hascends, hplaces⟩ := eval_reads_indices hindices
  refine ⟨hindices, hsame _ _ rfl rfl fun i hi => ?_, hascends, (hplaces 0).1 List.mem_cons_self⟩
  cases List.mem_singleton.1 hi
  rfl

end SearchSpace.Expr
