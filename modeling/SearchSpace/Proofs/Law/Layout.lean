import SearchSpace.Proofs.Law.Buffer

/-!
# Three layouts of one series of draws

A series of draws can be taken one at a time, end to end in one buffer, or as columns from a row
that is written over by each draw. These are the same numbers in different places, and the generator
ends in the same state (`Made.layouts_agree`). A stretch of the buffer for all rows holds the draw
that was written into it (`Made.filledRows_go_eq`). The row that is used again keeps nothing from
one draw to the next, so the columns grow as they do without it (`Made.filledColumns_go_eq`), by one
row of a transposed table at a time (`Made.columns_go_eq`).
-/

namespace SearchSpace.Law

variable {law : Law}

/-! ## End to end -/

/-- Rows end to end are the rows one after the other. -/
theorem rows_eq (law : Law) (n : Nat) :
    law.rows n = List.flatten <$> Draw.successive law.draw n := by
  induction n with
  | zero => rfl
  | succ n ih =>
    rw [rows, Draw.successive, map_bind]
    refine bind_congr fun row => ?_
    rw [ih, bind_map_left, map_bind]
    exact bind_congr fun rows => by rw [map_pure, List.flatten_cons]

/-- The stretches of a buffer are filled with the rows, one after the other. -/
theorem Made.filledRows_go_eq (h : law.Made) : ∀ (n start : Nat) (out : Array Scalar),
    start + n * law.dimension ≤ out.size →
      filledRows.go law n start out =
        (fun rows => overwrite out start rows.flatten) <$> Draw.successive law.draw n
  | 0, start, out, _ => congrArg pure overwrite_nil.symm
  | n + 1, start, out, hroom => by
    rw [Nat.succ_mul] at hroom
    rw [filledRows.go, Draw.successive, h.fill_eq start out (by omega), bind_map_left, map_bind]
    refine h.always_length.bind_congr fun row hrow => ?_
    have hfits : start + row.length ≤ out.size := by omega
    have hrest : start + law.dimension + n * law.dimension ≤ (overwrite out start row).size := by
      rw [size_overwrite hfits]
      omega
    rw [h.filledRows_go_eq n _ _ hrest, map_bind, map_eq_pure_bind]
    refine bind_congr fun rows => ?_
    rw [map_pure, ← hrow, overwrite_overwrite hfits, List.flatten_cons]

/-- It makes no difference to the rows whether there is a buffer for all of them. -/
theorem Made.filledRows_eq (h : law.Made) (n : Nat) : law.filledRows n = law.rows n := by
  have hcount : n * law.dimension / law.dimension = n := Nat.mul_div_cancel n h.dimension_pos
  simp only [filledRows, hcount]
  rw [rows_eq, h.filledRows_go_eq n 0 _ (by rw [size_blank, Nat.zero_add]), bind_map_left,
    ← map_eq_pure_bind]
  refine (h.always_length.successive n).map_congr fun rows hrows => ?_
  have hlength : rows.flatten.length = n * law.dimension := by
    rw [List.length_flatten, List.map_eq_replicate_iff.2 hrows.2, List.sum_replicate_nat, hrows.1]
  rw [overwrite_zero (by rw [hlength, size_blank])]

/-! ## Columns -/

/-- The columns of rows of `width` numbers: column `i` has the number at place `i` of each row. -/
def transpose (width : Nat) (rows : List (List Scalar)) : List (List Scalar) :=
  (List.range width).map fun i => rows.filterMap (·[i]?)

/-- There are as many columns as the rows have numbers. -/
@[simp] theorem length_transpose (width : Nat) (rows : List (List Scalar)) :
    (transpose width rows).length = width := by
  rw [transpose, List.length_map, List.length_range]

/-- Each column of a table with one row more starts with a number of this row. -/
theorem transpose_cons {width : Nat} {row : List Scalar} (hrow : row.length = width)
    (rows : List (List Scalar)) :
    transpose width (row :: rows) =
      List.zipWith (fun x column => x :: column) row (transpose width rows) := by
  subst hrow
  refine List.ext_getElem (by simp) fun i hi _ => ?_
  rw [length_transpose] at hi
  simp [transpose, hi]

/-- A row adds one number to each column. -/
theorem map_addRow : ∀ (columns : List (Array Scalar)) (row : List Scalar),
    columns.length = row.length →
      (addRow columns row).map (·.toList.reverse) =
        List.zipWith (fun column x => x :: column) (columns.map (·.toList.reverse)) row
  | [], _, _ => rfl
  | column :: columns, x :: row, h => by
    rw [addRow, List.map_cons, List.map_cons, List.zipWith_cons_cons,
      map_addRow columns row (Nat.succ.inj h), Array.toList_push, List.reverse_concat]

/-- A row changes none of the columns' number. -/
theorem length_addRow : ∀ (columns : List (Array Scalar)) (row : List Scalar),
    (addRow columns row).length = columns.length
  | [], _ => rfl
  | _ :: _, [] => rfl
  | _ :: columns, _ :: row => congrArg (· + 1) (length_addRow columns row)

/-- Columns that are made with a row that is written over are those that are made of new rows. -/
theorem Made.filledColumns_go_eq (h : law.Made) : ∀ (n : Nat) (row : Array Scalar)
    (found : List (Array Scalar)), row.size = law.dimension → found.length = law.dimension →
      filledColumns.go law n row found = columns.go law n (found.map (·.toList.reverse))
  | 0, row, found, _, _ => by
    rw [filledColumns.go, columns.go, List.map_map]
    refine congrArg pure (List.map_congr_left fun column _ => ?_)
    exact (List.reverse_reverse column.toList).symm
  | n + 1, row, found, hsize, hlength => by
    rw [filledColumns.go, columns.go, h.fill_zero hsize, bind_map_left]
    refine h.always_length.bind_congr fun new hnew => ?_
    -- the row is of the size of a draw again, so that the next one leaves nothing of it either
    have hsame : found.length = new.length := hlength.trans hnew.symm
    rw [h.filledColumns_go_eq n _ _ hnew ((length_addRow found new).trans hlength),
      map_addRow found new hsame]

/-- So it makes no difference to the columns of `n` draws whether there is a buffer. -/
theorem Made.filledColumns_eq (h : law.Made) (n : Nat) : law.filledColumns n = law.columns n := by
  rw [filledColumns, columns,
    h.filledColumns_go_eq n _ _ (size_blank _) List.length_replicate, List.map_replicate]
  rfl

/-- No rows make empty columns. -/
theorem transpose_nil (width : Nat) : transpose width [] = List.replicate width [] := by
  simp [transpose, List.map_const']

/-- The numbers of a row can be put in front of what is found, or of what is added to it. -/
theorem zipWith_reverse_append_cons : ∀ (found : List (List Scalar)) (row : List Scalar)
    (added : List (List Scalar)),
      List.zipWith (fun column back => column.reverse ++ back)
          (List.zipWith (fun column x => x :: column) found row) added =
        List.zipWith (fun column back => column.reverse ++ back) found
          (List.zipWith (fun x back => x :: back) row added)
  | [], _, _ => rfl
  | _ :: _, [], _ => rfl
  | _ :: _, _ :: _, [] => rfl
  | column :: found, x :: row, back :: added => by
    simp only [List.zipWith_cons_cons, List.reverse_cons, List.append_assoc, List.singleton_append]
    rw [zipWith_reverse_append_cons found row added]

/-- In columns whose numbers are kept last first, each further row puts one number in front. -/
theorem Made.columns_go_eq (h : law.Made) : ∀ (n : Nat) (found : List (List Scalar)),
    found.length = law.dimension →
      columns.go law n found =
        (fun rows => List.zipWith (fun column back => column.reverse ++ back) found
          (transpose law.dimension rows)) <$> Draw.successive law.draw n
  | 0, found, hlength => by
    rw [columns.go, Draw.successive, map_pure, transpose_nil]
    refine congrArg pure (List.ext_getElem ?_ fun i hi hi' => ?_)
    · simp [hlength]
    · simp
  | n + 1, found, hlength => by
    rw [columns.go, Draw.successive, map_bind]
    refine h.always_length.bind_congr fun row hrow => ?_
    rw [h.columns_go_eq n _ (by rw [List.length_zipWith, hlength, hrow, Nat.min_self]), map_bind,
      map_eq_pure_bind]
    refine bind_congr fun rows => ?_
    rw [map_pure, transpose_cons hrow, zipWith_reverse_append_cons]

/-- The columns of `n` draws are those of the table that has the draws as its rows. -/
theorem Made.columns_eq (h : law.Made) (n : Nat) :
    law.columns n = transpose law.dimension <$> Draw.successive law.draw n := by
  rw [columns, h.columns_go_eq n _ List.length_replicate]
  congr 1
  funext rows
  refine List.ext_getElem (by simp) fun i hi hi' => ?_
  simp

/-! ## One series -/

/-- From every state of the generator, `n` draws of a law that is made, each in a buffer of its own,
are `n` rows of the law's dimension; the buffer for all rows holds these rows end to end, the
columns are the columns of these rows, and all three leave the generator in the same state. -/
theorem Made.layouts_agree (h : law.Made) (n : Nat) (g : Generator) :
    ∃ (rows : List (List Scalar)) (g' : Generator),
      (Draw.successive law.filledRow n).run g = (rows, g') ∧
      rows.length = n ∧ (∀ row ∈ rows, row.length = law.dimension) ∧
      (law.filledRows n).run g = (rows.flatten, g') ∧
      (law.filledColumns n).run g = (transpose law.dimension rows, g') := by
  obtain ⟨hcount, hlength⟩ := h.always_length.successive n g
  refine ⟨((Draw.successive law.draw n).run g).1, ((Draw.successive law.draw n).run g).2, ?_,
    hcount, hlength, ?_, ?_⟩
  · rw [h.filledRow_eq]
    rfl
  · rw [h.filledRows_eq, rows_eq]
    rfl
  · rw [h.filledColumns_eq, h.columns_eq]
    rfl

/-- Two draws of three integers. -/
theorem layouts_agree_nested : nested.Made ∧
    ∃ (rows : List (List Scalar)) (g' : Generator),
      (Draw.successive nested.filledRow 2).run ⟨7⟩ = (rows, g') ∧
      (nested.filledRows 2).run ⟨7⟩ = (rows.flatten, g') ∧
      (nested.filledColumns 2).run ⟨7⟩ = (transpose 3 rows, g') := by
  obtain ⟨rows, g', hone, -, -, hall, hcolumns⟩ := made_nested.layouts_agree 2 ⟨7⟩
  exact ⟨made_nested, rows, g', hone, hall, hcolumns⟩

end SearchSpace.Law
