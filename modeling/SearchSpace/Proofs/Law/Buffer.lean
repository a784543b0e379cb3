import SearchSpace.Law.Buffer
import SearchSpace.Proofs.Law.Support

/-!
# Draws in a buffer are draws

Where a buffer has room for it, writing a draw of a law that is made into the buffer is drawing a
row and putting it in place of as many numbers of the buffer (`Made.fill_eq`): no position of the
stretch keeps what was there, none outside of it changes, and the generator moves on as for the draw
alone. So the offsets that a joint law gives to its parts fit together at every depth, and the shape
of a law, the kinds of its numbers and their bounds say what a buffer holds after a draw
(`fill_keeps_shape`).
-/

namespace SearchSpace.Law

/-! ## Overwriting -/

/-- A buffer with a row in place of what was there from position `start` on. -/
def overwrite (out : Array Scalar) (start : Nat) (row : List Scalar) : Array Scalar :=
  (out.toList.take start ++ row ++ out.toList.drop (start + row.length)).toArray

variable {out : Array Scalar} {start : Nat}

/-- A row that fits keeps the size of the buffer. -/
theorem size_overwrite {row : List Scalar} (h : start + row.length ≤ out.size) :
    (overwrite out start row).size = out.size := by
  have htake : min start out.size = start := by omega
  rw [overwrite, List.size_toArray, List.length_append, List.length_append, List.length_take,
    List.length_drop, Array.length_toList, htake]
  omega

/-- Nothing is overwritten by an empty row. -/
theorem overwrite_nil : overwrite out start [] = out := by
  rw [overwrite, List.append_nil, List.length_nil, Nat.add_zero, List.take_append_drop]

/-- A row of the size of the buffer is all that is left. -/
theorem overwrite_zero {row : List Scalar} (h : row.length = out.size) :
    overwrite out 0 row = row.toArray := by
  have hdrop : out.toList.drop (0 + row.length) = [] :=
    List.drop_eq_nil_of_le (by rw [Array.length_toList]; omega)
  rw [overwrite, List.take_zero, List.nil_append, hdrop, List.append_nil]

/-- A row can be written in two pieces, the second from where the first ends. -/
theorem overwrite_overwrite {front : List Scalar} (h : start + front.length ≤ out.size)
    (back : List Scalar) : overwrite (overwrite out start front) (start + front.length) back =
      overwrite out start (front ++ back) := by
  have hlength : (out.toList.take start ++ front).length = start + front.length := by
    rw [List.length_append, List.length_take, Array.length_toList]
    omega
  have htake : (overwrite out start front).toList.take (start + front.length) =
      out.toList.take start ++ front := by
    rw [overwrite, ← hlength, List.take_left]
  have hdrop : (overwrite out start front).toList.drop (start + front.length + back.length) =
      out.toList.drop (start + (front ++ back).length) := by
    rw [overwrite, ← List.drop_drop, ← hlength, List.drop_left, hlength, List.drop_drop,
      List.length_append, Nat.add_assoc]
  rw [overwrite, htake, hdrop, overwrite, List.append_assoc (List.take start _)]

/-- Setting a position of the buffer is overwriting it with one number. -/
theorem setIfInBounds_eq_overwrite (h : start < out.size) (x : Scalar) :
    out.setIfInBounds start x = overwrite out start [x] := by
  apply Array.toList_inj.1
  rw [Array.toList_setIfInBounds, overwrite, List.length_singleton, List.append_assoc,
    List.set_eq_take_append_cons_drop, if_pos (by rwa [Array.length_toList])]
  rfl

/-! ## Filling -/

/-- Writing a draw of the law into a buffer that has room for it is drawing a row and putting it
there. -/
def FillsRow (law : Law) : Prop :=
  ∀ (start : Nat) (out : Array Scalar), start + law.dimension ≤ out.size →
    law.fill start out = overwrite out start <$> law.draw

/-- Parts that are written one after the other make one row. -/
theorem fillAll_eq : ∀ {laws : List Law}, (∀ law ∈ laws, law.FillsRow) →
    (∀ law ∈ laws, Draw.Always law.draw fun row => row.length = law.dimension) →
    ∀ (start : Nat) (out : Array Scalar), start + totalDimension laws ≤ out.size →
      fillAll laws start out = overwrite out start <$> drawAll laws
  | [], _, _, start, out, _ => congrArg pure overwrite_nil.symm
  | law :: laws, hfills, hlength, start, out, hroom => by
    obtain ⟨hlaw, hlaws⟩ := List.forall_mem_cons.1 hfills
    obtain ⟨hrow, hrows⟩ := List.forall_mem_cons.1 hlength
    rw [totalDimension] at hroom
    rw [fillAll, drawAll, hlaw start out (by omega), bind_map_left, map_bind]
    refine hrow.bind_congr fun front hfront => ?_
    have hfits : start + front.length ≤ out.size := by omega
    have hrest : start + law.dimension + totalDimension laws ≤
        (overwrite out start front).size := by
      rw [size_overwrite hfits]
      omega
    rw [fillAll_eq hlaws hrows _ _ hrest, map_bind, map_eq_pure_bind]
    refine bind_congr fun back => ?_
    rw [map_pure, ← hfront, overwrite_overwrite hfits]

/-- The part at an index is written as it is drawn. -/
theorem fillPart_eq {start : Nat} {out : Array Scalar} : ∀ {parts : List Law},
    (∀ part ∈ parts, part.fill start out = overwrite out start <$> part.draw) →
    ∀ i : Nat, fillPart parts i start out = overwrite out start <$> drawPart parts i
  | [], _, _ => congrArg pure overwrite_nil.symm
  | _ :: _, h, 0 => h _ List.mem_cons_self
  | _ :: _, h, i + 1 => fillPart_eq (List.forall_mem_cons.1 h).2 i

/-- A law that is made writes rows. -/
theorem Made.fill_eq {law : Law} (h : law.Made) : law.FillsRow := by
  induction h with
  | uniformInt law | uniformFloat law | normal law | roulette table =>
    intro start out hroom
    rw [fill, draw, map_bind]
    refine bind_congr fun x => ?_
    rw [map_pure, setIfInBounds_eq_overwrite hroom]
  | mixture hmade hlaw ih =>
    obtain ⟨first, rest, table, bounds, rfl, _, _, hbounds, rfl⟩ := ofMixture_eq_ok hlaw
    intro start out hroom
    rw [fill, draw, map_bind]
    refine bind_congr fun i => fillPart_eq (fun part hpart => ?_) i
    refine ih part hpart start out ?_
    rwa [← (hmade part hpart).length_types, types_of_mem_mixture hbounds part hpart]
  | joint hmade hlaw ih =>
    obtain ⟨_, rfl⟩ := ofJoint_eq_ok hlaw
    intro start out hroom
    rw [fill, draw]
    exact fillAll_eq ih (fun part hpart => (hmade part hpart).always_length) start out hroom

/-- In a buffer of the size of a row nothing but the row is left. -/
theorem Made.fill_zero {law : Law} (h : law.Made) {out : Array Scalar}
    (hsize : out.size = law.dimension) : law.fill 0 out = List.toArray <$> law.draw := by
  rw [h.fill_eq 0 out (by omega)]
  exact h.always_length.map_congr fun row hrow => overwrite_zero (hrow.trans hsize.symm)

/-- A buffer has the size that it is made with. -/
@[simp] theorem size_blank (size : Nat) : (blank size).size = size :=
  Array.size_replicate

/-- One draw from a buffer of its own is a draw. -/
theorem Made.filledRow_eq {law : Law} (h : law.Made) : law.filledRow = law.draw := by
  rw [filledRow, h.fill_zero (size_blank _), bind_map_left]
  exact bind_pure law.draw

/-! ## Shape, kinds and bounds -/

/-- Parts that are made never have bounds that cannot be united. A law that is made draws at least
one number, and it has as many kinds and bounds, the bounds of these kinds. In a buffer of this
size, a draw leaves nothing but numbers that leaves have drawn: each is of the kind that the law
gives for its position, and if each lies within the bounds of the leaf that drew it, each lies
within the bounds that the law gives for its position. -/
theorem fill_keeps_shape :
    (∀ (parts : List Law) (weights : List Float), (∀ part ∈ parts, part.Made) →
      ofMixture parts weights ≠ .error (.invalidValue .unionTypes)) ∧
    ∀ law : Law, law.Made →
      1 ≤ law.dimension ∧ law.types.length = law.dimension ∧
      law.bounds.length = law.dimension ∧ law.bounds.map Interval.type = law.types ∧
      ∀ (g : Generator) (out : Array Scalar), out.size = law.dimension →
        ∃ drawn : List (Law × Scalar),
          law.leafDraws.run g = (drawn, ((law.fill 0 out).run g).2) ∧
          (∀ p ∈ drawn, law.IsLeafDraw p) ∧
          ((law.fill 0 out).run g).1.toList = drawn.map Prod.snd ∧
          ((law.fill 0 out).run g).1.toList.map Scalar.type = law.types ∧
          ((∀ p ∈ drawn, Within p.1.bounds [p.2]) →
            Within law.bounds ((law.fill 0 out).run g).1.toList) := by
  refine ⟨fun parts weights hparts hunion => ?_, fun law h => ?_⟩
  · have hlands := lands_ofMixture weights fun part hpart => (hparts part hpart).map_type_bounds
    rw [hunion] at hlands
    exact hlands rfl
  · refine ⟨h.dimension_pos, h.length_types, h.length_bounds, h.map_type_bounds,
      fun g out hsize => ⟨(law.leafDraws.run g).1, ?_⟩⟩
    have hfill : (law.fill 0 out).run g =
        (((law.leafDraws.run g).1.map Prod.snd).toArray, (law.leafDraws.run g).2) := by
      rw [h.fill_zero hsize, ← map_leafDraws]
      rfl
    have htyped := h.typed g
    rw [← map_leafDraws] at htyped
    rw [hfill]
    exact ⟨rfl, always_leafDraws law g, rfl, htyped, h.always_keepsLeafBounds g⟩

/-- Two laws of two integers. -/
def pairs : List Law :=
  [.joint [.uniformInt ⟨0, 30, .linear, 0, by decide⟩,
      .uniformInt ⟨1, 64, .logarithmic, 3, by decide⟩],
    .joint [.uniformInt ⟨-5, 5, .linear, 2, by decide⟩, .roulette ⟨[1.0, 0.0, 2.0], by decide⟩]]

/-- Two integers from one of two laws, and an index by weight. -/
def nested : Law :=
  .joint [.mixture pairs ⟨[1.0, 3.0], by decide⟩ [.int, .int] [.ints (-5) 30, .ints 0 64],
    .roulette ⟨[0.5, 0.5], by decide⟩]

/-- The constructors make the two laws. -/
theorem made_pairs : ∀ part ∈ pairs, part.Made := by
  intro part hpart
  rcases List.mem_pair.1 hpart with rfl | rfl <;>
    refine @Law.Made.joint [_, _] _ (fun leaf hleaf => ?_) rfl <;>
    rcases List.mem_pair.1 hleaf with rfl | rfl
  exacts [.uniformInt _, .uniformInt _, .uniformInt _, .roulette _]

/-- They make the law of three integers. -/
theorem made_nested : nested.Made := by
  refine @Law.Made.joint [_, _] _ (fun part hpart => ?_) rfl
  rcases List.mem_pair.1 hpart with rfl | rfl
  · exact @Law.Made.mixture pairs [1.0, 3.0] _ made_pairs rfl
  · exact .roulette _

/-- A draw of the law of three integers in a buffer for three numbers, all of whose leaves keep
their bounds. -/
theorem fill_keeps_shape_nested :
    (∀ part ∈ pairs, part.Made) ∧ ofMixture pairs [1.0, 3.0] ≠ .error (.invalidValue .unionTypes) ∧
      nested.Made ∧ (blank 3).size = nested.dimension ∧
      ∃ drawn, nested.leafDraws.run ⟨7⟩ = (drawn, ((nested.fill 0 (blank 3)).run ⟨7⟩).2) ∧
        (∀ p ∈ drawn, Within p.1.bounds [p.2]) ∧
        Within nested.bounds ((nested.fill 0 (blank 3)).run ⟨7⟩).1.toList := by
  have hsize : (blank 3).size = nested.dimension := by decide
  obtain ⟨drawn, hrun, hleaf, -, -, hwithin⟩ :=
    (fill_keeps_shape.2 nested made_nested).2.2.2.2 ⟨7⟩ (blank 3) hsize
  have hbounds : ∀ p ∈ drawn, Within p.1.bounds [p.2] := by
    intro p hp
    obtain ⟨hmem, g, hdraw⟩ := hleaf p hp
    rw [← hdraw]
    exact made_nested.supported_leaves (by decide) p.1 hmem g
  exact ⟨made_pairs, fill_keeps_shape.1 pairs [1.0, 3.0] made_pairs, made_nested, hsize, drawn,
    hrun, hbounds, hwithin hbounds⟩

end SearchSpace.Law
