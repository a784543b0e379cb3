import SearchSpace.Proofs.Assignment.Representation
import SearchSpace.Proofs.Law.Columns
import SearchSpace.Proofs.Parameter.Domain
import SearchSpace.Proofs.Rejection

/-!
# What an assignment draws

The vectors that are drawn from an assignment of laws of integers have an admitted value for every
parameter (`Threads.always_sampleRows`). For one group this is because its draws keep the bounds of
its law, and a dimension is left unchecked only where these lie inside the domain
(`always_batch`). The groups fill a vector one after the other (`Filled.scatter`), and it is full at
the end because every parameter is in one of them.
-/

namespace SearchSpace.Assignment

open Rejection (Sampler Accepts)

variable {parameters : List Parameter}

/-- The parameter at a place, if there is one, admits a value. -/
def AdmitsAt (parameters : List Parameter) (i : Nat) (v : Value) : Prop :=
  ∀ p, parameters[i]? = some p → p.domain.admits v = true

/-! ## Rows -/

/-- The rows of some columns, all of them long enough, have what the columns have, position by
position. -/
theorem forall₂_rowsOf {Q : Nat → Value → Prop} {indices : List Nat} :
    ∀ {n : Nat} {columns : List (List Value)},
      List.Forall₂ (fun i column => column.length = n ∧ ∀ v ∈ column, Q i v) indices columns →
        ∀ row ∈ rowsOf n columns, List.Forall₂ Q indices row
  | 0, _, _, row, hrow => nomatch hrow
  | n + 1, columns, hcolumns, row, hrow => by
    rcases List.mem_cons.1 hrow with rfl | hrow
    · clear hrow
      induction hcolumns with
      | nil => exact .nil
      | @cons i column indices columns hcolumn _ ih =>
        obtain ⟨hlength, hmembers⟩ := hcolumn
        cases column with
        | nil => cases hlength
        | cons v column => exact .cons (hmembers v (.head column)) ih
    · refine forall₂_rowsOf ?_ row hrow
      rw [List.forall₂_map_right_iff]
      refine hcolumns.imp fun i column hcolumn => ?_
      refine ⟨by rw [List.length_tail, hcolumn.1, Nat.add_sub_cancel], fun v hv => ?_⟩
      exact hcolumn.2 v (List.mem_of_mem_tail hv)

/-! ## One group -/

/-- The values of the columns for the places of a group are admitted or missing. -/
theorem forall₂_columns {n : Nat} {indices : List Nat} {bounds : List Interval}
    {raw : List (List Scalar)} {f : List Scalar × Nat × Bool → List Value}
    (hf : ∀ column i checked, f (column, i, checked) =
      (parameters[i]?).elim (column.map fun _ => .inactive) (·.domain.ofScalars checked column))
    (hdomains : ∀ p ∈ parameters, ∀ r, p.domain ≠ .floats r)
    (hlength : indices.length = bounds.length)
    (hraw : List.Forall₂ (Law.IsColumn Interval.ContainsInt n) bounds raw) :
    List.Forall₂
      (fun i column => column.length = n ∧ ∀ v ∈ column, v = .inactive ∨ AdmitsAt parameters i v)
      indices
      ((raw.zip (indices.zip (List.zipWith
        (fun i bounds => parameters[i]?.all fun p => p.domain.isExceededBy bounds)
        indices bounds))).map f) := by
  induction hraw generalizing indices with
  | nil =>
    rw [List.length_eq_zero_iff.1 hlength]
    exact .nil
  | @cons bound column bounds raw hcolumn _ ih =>
    cases indices with
    | nil => cases hlength
    | cons i indices =>
      refine .cons ?_ (ih (Nat.succ.inj hlength))
      obtain ⟨hcount, hmembers⟩ := hcolumn
      rw [hf]
      cases hp : parameters[i]? with
      | none =>
        refine ⟨(List.length_map _).trans hcount, fun v hv => .inl ?_⟩
        obtain ⟨_, _, rfl⟩ := List.mem_map.1 hv
        rfl
      | some p =>
        refine ⟨(List.length_map _).trans hcount, fun v hv => ?_⟩
        simp only [hp, Option.all_some, Option.elim_some, Domain.ofScalars, List.mem_map] at hv
        obtain ⟨x, hx, rfl⟩ := hv
        have hp' := hdomains p (List.mem_of_getElem? hp)
        refine (Domain.ofScalar_admits (hmembers x hx) hp').imp id fun hadmits q hq => ?_
        cases hp.symm.trans hq
        exact hadmits

/-- The joint draws of a group that are accepted have an admitted value for each of its places. -/
theorem always_batch {node : Group.Node} (hfits : Fits parameters node.toGroup node.checked)
    (hlaw : node.distribution.law.OfIntegers)
    (hdomains : ∀ p ∈ parameters, ∀ r, p.domain ≠ .floats r) (n : Nat) :
    Sampler.Always (batch parameters node n)
      (Accepts (List.Forall₂ (AdmitsAt parameters) node.indices)) := by
  have hdraw := hfits.made.always_draw hlaw
  have hcolumns := Law.always_columns hdraw hfits.made.length_bounds n
  rw [batch]
  refine (Sampler.always_lift hcolumns).bind fun raw hraw => Sampler.always_pure ?_
  rw [hfits.checked_eq, checks]
  have hlength := hfits.length_indices.trans hfits.made.length_bounds.symm
  intro joint hjoint
  obtain ⟨row, hrow, hjoint⟩ := List.mem_map.1 hjoint
  have hvalues := forall₂_rowsOf
    (forall₂_columns (fun column i checked => by dsimp only; cases parameters[i]? <;> rfl)
      hdomains hlength hraw) row hrow
  split at hjoint
  · cases hjoint
  · next hactive =>
    cases hjoint
    rw [Bool.not_eq_true, List.any_eq_false] at hactive
    refine List.forall₂_iff_zip.2 ⟨hvalues.length_eq, fun {i v} hmem => ?_⟩
    refine (List.forall₂_zip hvalues hmem).resolve_left ?_
    rintro rfl
    exact hactive _ (List.of_mem_zip hmem).2 rfl

/-! ## All groups -/

/-- A vector with a value for each parameter, admitted at the places that are done. -/
structure Filled (parameters : List Parameter) (isDone : Nat → Prop) (row : List Value) : Prop where
  length_eq : row.length = parameters.length
  admits : ∀ i, isDone i → i < parameters.length →
    ∃ v, row[i]? = some v ∧ AdmitsAt parameters i v

/-- An admitted value is put at its place. -/
theorem Filled.set {isDone : Nat → Prop} {row : List Value} (h : Filled parameters isDone row)
    {i : Nat} {v : Value} (hv : AdmitsAt parameters i v) :
    Filled parameters (fun j => isDone j ∨ j = i) (row.set i v) where
  length_eq := List.length_set.trans h.length_eq
  admits j hj hlt := by
    by_cases hji : j = i
    · subst hji
      exact ⟨v, List.getElem?_set_self (h.length_eq ▸ hlt), hv⟩
    · obtain ⟨w, hw, hadmits⟩ := h.admits j (hj.resolve_right hji) hlt
      exact ⟨w, (List.getElem?_set_ne (Ne.symm hji)).trans hw, hadmits⟩

/-- The admitted values of a joint draw are put at their places. -/
theorem Filled.scatter {isDone : Nat → Prop} {row joint : List Value} {indices : List Nat}
    (h : Filled parameters isDone row)
    (hjoint : List.Forall₂ (AdmitsAt parameters) indices joint) :
    Filled parameters (fun i => isDone i ∨ i ∈ indices) (scatter indices joint row) := by
  induction hjoint generalizing isDone row with
  | nil => exact ⟨h.length_eq, fun i hi => h.admits i (hi.resolve_right List.not_mem_nil)⟩
  | @cons i v indices joint hv _ ih =>
    obtain ⟨hlength, hadmits⟩ := ih (h.set hv)
    refine ⟨hlength, fun j hj => hadmits j ?_⟩
    rw [List.mem_cons, ← or_assoc] at hj
    exact hj

/-- Each vector is filled at the places of a group. -/
theorem Filled.zipWith_scatter {isDone : Nat → Prop} {indices : List Nat} :
    ∀ {rows draws : List (List Value)}, (∀ row ∈ rows, Filled parameters isDone row) →
      (∀ joint ∈ draws, List.Forall₂ (AdmitsAt parameters) indices joint) →
      ∀ row ∈ List.zipWith (fun row joint => Assignment.scatter indices joint row) rows draws,
        Filled parameters (fun i => isDone i ∨ i ∈ indices) row
  | [], _, _, _, row, hrow => nomatch hrow
  | _ :: _, [], _, _, row, hrow => nomatch hrow
  | first :: rows, joint :: draws, hrows, hdraws, row, hrow => by
    obtain ⟨hfirst, hrows⟩ := List.forall_mem_cons.1 hrows
    obtain ⟨hjoint, hdraws⟩ := List.forall_mem_cons.1 hdraws
    rcases List.mem_cons.1 hrow with rfl | hrow
    · exact hfirst.scatter hjoint
    · exact zipWith_scatter hrows hdraws row hrow

/-- Drawing for some groups keeps the number of vectors, and fills each of them at the places of the
groups. -/
theorem always_fillRows (hdomains : ∀ p ∈ parameters, ∀ r, p.domain ≠ .floats r) (n : Nat) :
    ∀ {nodes : List Group.Node} {rows : List (List Value)} {isDone : Nat → Prop},
      (∀ node ∈ nodes, Fits parameters node.toGroup node.checked) →
      (∀ node ∈ nodes, node.distribution.law.OfIntegers) →
      rows.length = n → (∀ row ∈ rows, Filled parameters isDone row) →
      Sampler.Always (fillRows parameters n nodes rows) fun rows' => rows'.length = n ∧
        ∀ row ∈ rows', Filled parameters (fun i => isDone i ∨ ∃ node ∈ nodes, i ∈ node.indices) row
  | [], rows, isDone, _, _, hlength, hrows => by
    refine Sampler.always_pure ⟨hlength, fun row hrow => ?_⟩
    refine ⟨(hrows row hrow).length_eq, fun i hi => (hrows row hrow).admits i ?_⟩
    exact hi.resolve_right fun ⟨_, hnode, _⟩ => nomatch hnode
  | node :: nodes, rows, isDone, hfits, hlaws, hlength, hrows => by
    obtain ⟨hnode, hfits⟩ := List.forall_mem_cons.1 hfits
    obtain ⟨hlaw, hlaws⟩ := List.forall_mem_cons.1 hlaws
    have hdraws := Rejection.always_collect (always_batch hnode hlaw hdomains) n
    refine hdraws.bind fun draws ⟨hcount, hdraws⟩ => ?_
    have hstep := always_fillRows hdomains n hfits hlaws
      (by rw [List.length_zipWith, hlength, hcount, Nat.min_self])
      (Filled.zipWith_scatter hrows hdraws)
    refine hstep.imp fun rows' ⟨hlength', hrows'⟩ => ⟨hlength', fun row hrow => ?_⟩
    obtain ⟨hsize, hadmits⟩ := hrows' row hrow
    refine ⟨hsize, fun i hi => hadmits i ?_⟩
    rcases hi with hi | ⟨node', hnode', hi⟩
    · exact .inl (.inl hi)
    · rcases List.mem_cons.1 hnode' with rfl | hnode'
      · exact .inl (.inr hi)
      · exact .inr ⟨node', hnode', hi⟩

/-- A vector that is filled at the places of all parameters has an admitted value for each. -/
theorem Filled.forall₂ {isDone : Nat → Prop} {row : List Value} (h : Filled parameters isDone row)
    (hdone : ∀ i < parameters.length, isDone i) :
    List.Forall₂ (fun p v => p.domain.admits v = true) parameters row := by
  refine List.forall₂_iff_get.2 ⟨h.length_eq.symm, fun i hi hi' => ?_⟩
  obtain ⟨v, hv, hadmits⟩ := h.admits i (hdone i hi) hi
  obtain ⟨_, rfl⟩ := List.getElem?_eq_some_iff.1 hv
  exact hadmits _ (List.getElem?_eq_getElem hi)

/-- An assignment of laws of integers draws as many vectors as are wanted, each with an admitted
value for every parameter. -/
theorem Threads.always_sampleRows {a : Assignment} {order : List Nat}
    (h : Threads parameters a order fun _ => False)
    (hdomains : ∀ p ∈ parameters, ∀ r, p.domain ≠ .floats r)
    (hlaws : ∀ group ∈ a.groups, group.distribution.law.OfIntegers) (n : Nat) :
    Sampler.Always (a.sampleRows parameters n) fun rows => rows.length = n ∧
      ∀ row ∈ rows, List.Forall₂ (fun p v => p.domain.admits v = true) parameters row := by
  have hnodes : ∀ node ∈ a.nodes, node.distribution.law.OfIntegers := fun node hnode =>
    hlaws node.toGroup (List.mem_map_of_mem hnode)
  have hblank : ∀ row ∈ List.replicate n (parameters.map fun _ => Value.inactive),
      Filled parameters (fun _ => False) row := by
    intro row hrow
    rw [List.eq_of_mem_replicate hrow]
    exact ⟨List.length_map _, fun _ hi => hi.elim⟩
  have hrows := always_fillRows hdomains n (fun node hnode => h.fits_of_mem_nodes hnode) hnodes
    List.length_replicate hblank
  refine hrows.imp fun rows ⟨hlength, hrows⟩ => ⟨hlength, fun row hrow => ?_⟩
  refine (hrows row hrow).forall₂ fun i hi => .inr ?_
  have hmem := h.partition.mem_iff.2 (List.mem_range.2 hi)
  obtain ⟨group, hgroup, hi⟩ := List.mem_flatMap.1 hmem
  obtain ⟨node, hnode, rfl⟩ := List.mem_map.1 hgroup
  exact ⟨node, hnode, hi⟩

end SearchSpace.Assignment
