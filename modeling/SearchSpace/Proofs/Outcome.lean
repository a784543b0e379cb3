import Mathlib.Data.List.Forall2
import SearchSpace.Error

/-!
# Outcomes

A computation that may fail succeeds just if each of its steps does. `bind_eq_ok` takes a success
apart into those of two steps, and `mapM_eq_ok` that of a map over a list into those of its members.
`Lands P Q` bounds what a computation can come to, a result or an error, and is put together step by
step (`Lands.bind`). Computations that differ in their errors at most have the same `toOption`, under
which the order of two steps does not matter (`toOption_bind`, `Option.bind_comm`).
-/

namespace SearchSpace

variable {ε α β : Type}

/-- Two steps succeed if the first does, and the second does on its result. -/
theorem bind_eq_ok {x : Except ε α} {f : α → Except ε β} {r : β} :
    x >>= f = .ok r ↔ ∃ a, x = .ok a ∧ f a = .ok r := by
  cases x with
  | error e => exact iff_of_false (fun h => nomatch h) fun ⟨_, h, _⟩ => nomatch h
  | ok a =>
    constructor
    · intro h
      exact ⟨a, rfl, h⟩
    · rintro ⟨b, h, hf⟩
      cases h
      exact hf

/-- A step that cannot fail succeeds if the one before it does. -/
theorem map_eq_ok {x : Except ε α} {f : α → β} {r : β} :
    f <$> x = .ok r ↔ ∃ a, x = .ok a ∧ f a = r := by
  cases x with
  | error e => exact iff_of_false (fun h => nomatch h) fun ⟨_, h, _⟩ => nomatch h
  | ok a =>
    constructor
    · intro h
      cases h
      exact ⟨a, rfl, rfl⟩
    · rintro ⟨b, h, rfl⟩
      cases h
      rfl

/-- A map over a list succeeds if it does on each member. -/
theorem mapM_eq_ok {f : α → Except ε β} {l : List α} {r : List β} :
    l.mapM f = .ok r ↔ List.Forall₂ (fun x y => f x = .ok y) l r := by
  induction l generalizing r with
  | nil =>
    rw [List.mapM_nil, List.forall₂_nil_left_iff]
    constructor
    · intro h
      cases h
      rfl
    · rintro rfl
      rfl
  | cons x l ih =>
    rw [List.mapM_cons, bind_eq_ok, List.forall₂_cons_left_iff]
    constructor
    · rintro ⟨y, hy, h⟩
      obtain ⟨ys, hys, h⟩ := bind_eq_ok.1 h
      cases h
      exact ⟨y, ys, hy, ih.1 hys, rfl⟩
    · rintro ⟨y, ys, hy, hys, rfl⟩
      exact ⟨y, hy, bind_eq_ok.2 ⟨ys, ih.2 hys, rfl⟩⟩

/-- A computation whose result passes a test succeeds. -/
theorem exists_ok_of_any {x : Except ε α} {p : α → Bool} (h : x.toOption.any p = true) :
    ∃ a, x = .ok a ∧ p a = true := by
  cases x with
  | error e => cases h
  | ok a => exact ⟨a, rfl, h⟩

/-! ## Results without errors -/

/-- There is a result just if the computation succeeds with it. -/
theorem toOption_eq_some {x : Except ε α} {a : α} : x.toOption = some a ↔ x = .ok a := by
  cases x with
  | error e => exact iff_of_false (fun h => nomatch h) fun h => nomatch h
  | ok b =>
    constructor
    · intro h
      cases h
      rfl
    · intro h
      cases h
      rfl

/-- The result of two steps is that of the second on that of the first. -/
theorem toOption_bind (x : Except ε α) (f : α → Except ε β) :
    (x >>= f).toOption = x.toOption.bind fun a => (f a).toOption := by
  cases x with
  | error e => rfl
  | ok a => rfl

/-- The result of a computation that is mapped. -/
theorem toOption_map (f : α → β) (x : Except ε α) : (f <$> x).toOption = x.toOption.map f := by
  cases x with
  | error e => rfl
  | ok a => rfl

/-- Two computations with the same result have it both or both fail. -/
theorem ok_or_error_of_toOption_eq {x y : Except ε α} (h : x.toOption = y.toOption) :
    (∃ a, x = .ok a ∧ y = .ok a) ∨ (∃ e, x = .error e) ∧ ∃ e, y = .error e := by
  cases x with
  | ok a =>
    cases y with
    | ok b =>
      cases h
      exact .inl ⟨a, rfl, rfl⟩
    | error e => cases h
  | error e =>
    cases y with
    | ok b => cases h
    | error e' => exact .inr ⟨⟨e, rfl⟩, e', rfl⟩

/-- Of two computations with the same result one succeeds if the other does. -/
theorem exists_ok_iff_of_toOption_eq {x y : Except ε α} (h : x.toOption = y.toOption) :
    (∃ a, x = .ok a) ↔ ∃ a, y = .ok a := by
  rcases ok_or_error_of_toOption_eq h with ⟨a, rfl, rfl⟩ | ⟨⟨e, rfl⟩, e', rfl⟩
  · exact Iff.rfl
  · exact iff_of_false (fun ⟨_, h⟩ => nomatch h) fun ⟨_, h⟩ => nomatch h

/-- The error of a computation that fails, after it is mapped. -/
@[simp] theorem mapError_error {ε' : Type} (f : ε → ε') (e : ε) :
    (Except.error e : Except ε α).mapError f = .error (f e) :=
  rfl

/-! ## What a computation comes to -/

/-- A computation gives a result with one property or an error with another one. -/
def Lands (P : α → Prop) (Q : ε → Prop) : Except ε α → Prop
  | .ok a => P a
  | .error e => Q e

/-- A computation comes to its own outcome. -/
theorem lands_self (x : Except ε α) : Lands (fun a => x = .ok a) (fun e => x = .error e) x := by
  cases x with
  | error e => rfl
  | ok a => rfl

/-- A computation lands if the first of two steps does, and the second on each result that the first
can have. -/
theorem Lands.bind {P : α → Prop} {P' : β → Prop} {Q : ε → Prop} {x : Except ε α}
    {f : α → Except ε β} (h : Lands P Q x) (hf : ∀ a, P a → Lands P' Q (f a)) :
    Lands P' Q (x >>= f) := by
  cases x with
  | error e => exact h
  | ok a => exact hf a h

/-- A computation lands with weaker properties too. -/
theorem Lands.imp {P P' : α → Prop} {Q Q' : ε → Prop} {x : Except ε α} (h : Lands P Q x)
    (hP : ∀ a, P a → P' a) (hQ : ∀ e, Q e → Q' e) : Lands P' Q' x := by
  cases x with
  | error e => exact hQ e h
  | ok a => exact hP a h

end SearchSpace
