import SearchSpace.Generator

/-!
# What a draw can give

`Draw.Always` is a property that all results of a draw have, whatever the generator. It is proved
along the steps of the draw (`Draw.Always.bind`). A word that is drawn below a bound is below it
(`Draw.always_below`).
-/

namespace SearchSpace.Draw

variable {α β : Type}

/-- All results of a draw have a property. -/
def Always (x : Draw α) (P : α → Prop) : Prop :=
  ∀ g : Generator, P (x.run g).1

/-- A result that takes no word. -/
theorem always_pure {a : α} {P : α → Prop} (h : P a) : Always (pure a) P :=
  fun _ => h

/-- A draw that goes on with the result of another. -/
theorem Always.bind {x : Draw α} {f : α → Draw β} {P : α → Prop} {Q : β → Prop}
    (hx : Always x P) (hf : ∀ a, P a → Always (f a) Q) : Always (x >>= f) Q := by
  intro g
  exact hf (x.run g).1 (hx g) (x.run g).2

/-- A draw that goes on with any word or number. -/
theorem always_bind {x : Draw α} {f : α → Draw β} {Q : β → Prop} (hf : ∀ a, Always (f a) Q) :
    Always (x >>= f) Q :=
  fun g => hf (x.run g).1 (x.run g).2

/-- All results have the weaker properties too. -/
theorem Always.imp {x : Draw α} {P Q : α → Prop} (hx : Always x P) (h : ∀ a, P a → Q a) :
    Always x Q :=
  fun g => h _ (hx g)

/-- What all results have that are changed by a function. -/
theorem Always.map {x : Draw α} {f : α → β} {P : β → Prop} (hx : Always x fun a => P (f a)) :
    Always (f <$> x) P :=
  fun g => hx g

/-- Draws that go on in the same way with all results there can be are the same. -/
theorem Always.bind_congr {x : Draw α} {P : α → Prop} {f f' : α → Draw β} (hx : Always x P)
    (h : ∀ a, P a → f a = f' a) : x >>= f = x >>= f' := by
  funext g
  show f (x.run g).1 (x.run g).2 = f' (x.run g).1 (x.run g).2
  rw [h _ (hx g)]

/-- Draws whose results are changed in the same way are the same. -/
theorem Always.map_congr {x : Draw α} {P : α → Prop} {f f' : α → β} (hx : Always x P)
    (h : ∀ a, P a → f a = f' a) : f <$> x = f' <$> x := by
  rw [map_eq_pure_bind, map_eq_pure_bind]
  exact hx.bind_congr fun a ha => congrArg pure (h a ha)

/-- The results of `n` draws of the same kind, one after the other. -/
def successive (x : Draw α) : Nat → Draw (List α)
  | 0 => pure []
  | n + 1 => do
    let first ← x
    let rest ← successive x n
    pure (first :: rest)

/-- Of `n` draws there are `n` results, which have what all results of the draw have. -/
theorem Always.successive {x : Draw α} {P : α → Prop} (hx : Always x P) :
    ∀ n : Nat, Always (successive x n) fun results => results.length = n ∧ ∀ a ∈ results, P a
  | 0 => always_pure ⟨rfl, fun _ h => nomatch h⟩
  | n + 1 => by
    rw [Draw.successive]
    refine hx.bind fun first hfirst => (hx.successive n).bind fun rest hrest => always_pure ?_
    exact ⟨congrArg (· + 1) hrest.1, List.forall_mem_cons.2 ⟨hfirst, hrest.2⟩⟩

/-- The upper half of the product of a word and a bound is below the bound. -/
theorem upper_half_lt {bound : UInt64} (hbound : 0 < bound) (word : UInt64) :
    UInt64.ofNat (word.toNat * bound.toNat / UInt64.size) < bound := by
  have hword : word.toNat < UInt64.size := word.toNat_lt
  have hsize : bound.toNat < UInt64.size := bound.toNat_lt
  have hpos : 0 < bound.toNat := UInt64.lt_iff_toNat_lt.1 hbound
  have hlt : word.toNat * bound.toNat / UInt64.size < bound.toNat :=
    Nat.div_lt_of_lt_mul (Nat.mul_lt_mul_of_pos_right hword hpos)
  rw [UInt64.lt_iff_toNat_lt, UInt64.toNat_ofNat_of_lt' (Nat.lt_trans hlt hsize)]
  exact hlt

/-- A word drawn below a positive bound is below it, however many words are refused. -/
theorem always_below {bound : UInt64} (hbound : 0 < bound) : Always (below bound) (· < bound) := by
  have hgo : ∀ n, Always (below.go bound n) (· < bound) := by
    intro n
    induction n with
    | zero => exact always_pure hbound
    | succ n ih =>
      refine always_bind fun word => ?_
      show Always (if _ then _ else _) _
      split
      · exact ih
      · exact always_pure (upper_half_lt hbound word)
  exact hgo redraws

end SearchSpace.Draw
