import SearchSpace.Proofs.Law.Support

/-!
# Draws laid out in columns

`Law.columns` makes one column for each number of a draw. What the numbers of every draw have,
position by position, the members of the columns have (`always_columns`), and every column is as
long as there are draws.
-/

namespace SearchSpace.Law

variable {R : Interval → Scalar → Prop} {bounds : List Interval} {law : Law}

/-- A column for one position: it has `n` members, each of which has to do with the bound of this
position as `R` says. -/
def IsColumn (R : Interval → Scalar → Prop) (n : Nat) (bound : Interval) (column : List Scalar) :
    Prop :=
  column.length = n ∧ ∀ x ∈ column, R bound x

/-- Columns without members. -/
theorem isColumn_replicate (bounds : List Interval) :
    List.Forall₂ (IsColumn R 0) bounds (List.replicate bounds.length []) := by
  induction bounds with
  | nil => exact .nil
  | cons bound bounds ih => exact .cons ⟨rfl, fun x hx => nomatch hx⟩ ih

/-- A draw adds a member to each column. -/
theorem isColumn_zipWith_cons {n : Nat} {columns : List (List Scalar)} {row : List Scalar}
    (hcolumns : List.Forall₂ (IsColumn R n) bounds columns) (hrow : List.Forall₂ R bounds row) :
    List.Forall₂ (IsColumn R (n + 1)) bounds
      (List.zipWith (fun column x => x :: column) columns row) := by
  induction hcolumns generalizing row with
  | nil => exact .nil
  | cons hcolumn _ ih =>
    obtain ⟨⟩ | ⟨hx, hrow⟩ := hrow
    obtain ⟨hlength, hmembers⟩ := hcolumn
    refine .cons ⟨congrArg (· + 1) hlength, ?_⟩ (ih hrow)
    exact List.forall_mem_cons.2 ⟨hx, hmembers⟩

/-- Turning the columns around changes neither their lengths nor their members. -/
theorem isColumn_map_reverse {n : Nat} {columns : List (List Scalar)}
    (hcolumns : List.Forall₂ (IsColumn R n) bounds columns) :
    List.Forall₂ (IsColumn R n) bounds (columns.map List.reverse) := by
  rw [List.forall₂_map_right_iff]
  refine hcolumns.imp fun bound column h => ?_
  exact ⟨List.length_reverse.trans h.1, fun x hx => h.2 x (List.mem_reverse.1 hx)⟩

/-- Further draws lengthen the columns. -/
theorem always_columns_go (hdraw : Draw.Always law.draw (List.Forall₂ R bounds)) :
    ∀ (n : Nat) {k : Nat} {found : List (List Scalar)},
      List.Forall₂ (IsColumn R k) bounds found →
        Draw.Always (Law.columns.go law n found) (List.Forall₂ (IsColumn R (n + k)) bounds)
  | 0, k, found, hfound => by
    rw [columns.go, Nat.zero_add]
    exact Draw.always_pure (isColumn_map_reverse hfound)
  | n + 1, k, found, hfound => by
    rw [columns.go, Nat.add_right_comm]
    exact hdraw.bind fun row hrow =>
      always_columns_go hdraw n (isColumn_zipWith_cons hfound hrow)

/-- The columns of `n` draws have a member for each draw. What the numbers of every draw have to do
with the bounds, so have the members of the columns. -/
theorem always_columns (hdraw : Draw.Always law.draw (List.Forall₂ R bounds))
    (hlength : bounds.length = law.dimension) (n : Nat) :
    Draw.Always (law.columns n) (List.Forall₂ (IsColumn R n) bounds) := by
  rw [columns, ← hlength]
  exact always_columns_go hdraw n (isColumn_replicate bounds)

end SearchSpace.Law
