import SearchSpace.Rejection
import SearchSpace.Proofs.Generator

/-!
# What a collection of draws can give

`Sampler.Always` is a property that all results of a computation have that may fail and keeps its
state when it does. Collecting `n` accepted draws gives just `n` of them, or none at all, and what
all accepted draws of a batch have, the collected ones have (`always_collect`).
-/

namespace SearchSpace.Rejection

variable {σ α β : Type}

/-! ## Computations that may fail -/

/-- All results of a computation have a property, if there is one. -/
def Sampler.Always (x : Sampler σ α) (P : α → Prop) : Prop :=
  ∀ s a, (x.run.run s).1 = .ok a → P a

/-- A result without a step. -/
theorem Sampler.always_pure {a : α} {P : α → Prop} (h : P a) :
    Sampler.Always (pure a : Sampler σ α) P := by
  intro s b hb
  cases hb
  exact h

/-- A failure has no result. -/
theorem Sampler.always_throw {e : Error} {P : α → Prop} :
    Sampler.Always (throw e : Sampler σ α) P := by
  intro s a ha
  cases ha

/-- A computation that goes on with the result of another. -/
theorem Sampler.Always.bind {x : Sampler σ α} {f : α → Sampler σ β} {P : α → Prop} {Q : β → Prop}
    (hx : Sampler.Always x P) (hf : ∀ a, P a → Sampler.Always (f a) Q) :
    Sampler.Always (x >>= f) Q := by
  intro s b hb
  have hb : (ExceptT.bindCont f (x.run.run s).1 (x.run.run s).2).1 = .ok b := hb
  cases hresult : (x.run.run s).1 with
  | error e =>
    rw [hresult] at hb
    cases hb
  | ok a =>
    rw [hresult] at hb
    exact hf a (hx s a hresult) _ b hb

/-- All results have the weaker properties too. -/
theorem Sampler.Always.imp {x : Sampler σ α} {P Q : α → Prop} (hx : Sampler.Always x P)
    (h : ∀ a, P a → Q a) : Sampler.Always x Q :=
  fun s a ha => h a (hx s a ha)

/-- A computation whose errors are worded in another way. -/
theorem Sampler.Always.adapt {x : Sampler σ α} {P : α → Prop} (hx : Sampler.Always x P)
    (f : Error → Error) : Sampler.Always (ExceptT.adapt f x : Sampler σ α) P := by
  intro s a ha
  have ha : ((x.run.run s).1.mapError f) = .ok a := ha
  cases hresult : (x.run.run s).1 with
  | error e =>
    rw [hresult] at ha
    cases ha
  | ok b =>
    rw [hresult] at ha
    cases ha
    exact hx s a hresult

/-- A step that has no state. -/
theorem Sampler.always_outcome {x : Except Error α} {P : α → Prop} (hx : ∀ a, x = .ok a → P a) :
    Sampler.Always (ExceptT.mk (pure x) : Sampler σ α) P :=
  fun _ a ha => hx a ha

/-- A draw, which cannot fail. -/
theorem Sampler.always_lift {x : Draw α} {P : α → Prop} (hx : Draw.Always x P) :
    Sampler.Always (ExceptT.lift x : Sampler Generator α) P := by
  intro g a ha
  have hfirst := hx g
  cases ha
  exact hfirst

/-! ## Collecting -/

/-- Every accepted draw of a batch has a property. -/
def Accepts (P : α → Prop) (batch : List (Option α)) : Prop :=
  ∀ a, some a ∈ batch → P a

/-- Collecting goes on until there are `n` accepted draws. -/
theorem always_collectFrom {draw : Nat → Sampler σ (List (Option α))} {P : α → Prop}
    (hdraw : ∀ k, Sampler.Always (draw k) (Accepts P)) (n : Nat) (schedule : List Nat)
    {accepted : List α} (hlength : accepted.length ≤ n) (haccepted : ∀ a ∈ accepted, P a) :
    Sampler.Always (collectFrom draw n schedule accepted) fun xs =>
      xs.length = n ∧ ∀ a ∈ xs, P a := by
  induction schedule generalizing accepted with
  | nil =>
    rw [collectFrom]
    split
    · next hfull => exact Sampler.always_pure ⟨Nat.le_antisymm hlength hfull, haccepted⟩
    · exact Sampler.always_throw
  | cons multiple schedule ih =>
    rw [collectFrom]
    split
    · next hfull => exact Sampler.always_pure ⟨Nat.le_antisymm hlength hfull, haccepted⟩
    · refine (hdraw _).bind fun batch hbatch => ih ?_ ?_
      · have htake := List.length_take_le (n - accepted.length) (batch.filterMap id)
        rw [List.length_append]
        omega
      · intro a ha
        rcases List.mem_append.1 ha with ha | ha
        · exact haccepted a ha
        · obtain ⟨b, hb, heq⟩ := List.mem_filterMap.1 (List.mem_of_mem_take ha)
          exact hbatch a (heq ▸ hb)

/-- Collecting gives `n` accepted draws, if it gives any. -/
theorem always_collect {draw : Nat → Sampler σ (List (Option α))} {P : α → Prop}
    (hdraw : ∀ k, Sampler.Always (draw k) (Accepts P)) (n : Nat) :
    Sampler.Always (collect draw n) fun xs => xs.length = n ∧ ∀ a ∈ xs, P a :=
  always_collectFrom hdraw n schedule (Nat.zero_le n) fun _ ha => nomatch ha

end SearchSpace.Rejection
