import SearchSpace.Parameter.Basic
import SearchSpace.Proofs.Binary64.Whole
import SearchSpace.Proofs.Parameter.Domain

/-!
# Canonical forms denote the value

The form in which a domain holds a value is one that it admits, and it holds what it admits as it
is. The form is the value or a number of the other kind that is equal to it, also where an integer
is rounded on its way to binary64, since the two are compared as binary64 numbers. The exception is
a set of integers that is given a binary64 number beyond all of them: the number is clamped to the
nearest integer of 64 bits, and if that is a member, it is taken for the number (`Clamped`). Apart
from that the form denotes what the value does (`Domain.canonical?_denotes`).
-/

namespace SearchSpace

open Binary64

variable {d : Domain} {v w : Value} {x : SignedFloat}

/-! ## Numbers of the other kind -/

/-- The first value is a number beyond all integers of 64 bits, and the second is the integer at that
end of their range. -/
inductive Clamped : Value → Value → Prop
  | above {x : SignedFloat} (h : 2 ^ 63 < value x.toFloat) :
    Clamped (.float x) (.int Int64.maxValue)
  | below {x : SignedFloat} (h : value x.toFloat < -2 ^ 63) :
    Clamped (.float x) (.int Int64.minValue)

namespace Clamped

/-- No value is clamped to itself. -/
theorem irrefl (v : Value) : ¬Clamped v v := by
  intro h
  cases h

/-- A number that is clamped is large. -/
theorem lt_abs_value (h : Clamped (.float x) w) : 2 ^ 63 < |value x.toFloat| := by
  cases h with
  | above h => exact lt_abs.2 (.inl h)
  | below h => exact lt_abs.2 (.inr (lt_neg_of_lt_neg h))

/-- A whole number is clamped by its truncation if it is large. -/
theorem truncate_iff (h : isWhole x.toFloat = true) :
    Clamped (.float x) (.int (truncate x.toFloat)) ↔ 2 ^ 63 < |value x.toFloat| := by
  refine ⟨lt_abs_value, fun hlarge => ?_⟩
  obtain ⟨hx, z, hz⟩ := exists_int_of_isWhole h
  rcases lt_abs.1 hlarge with habove | hbelow
  · have hle : 2 ^ 63 ≤ z := by
      rw [hz] at habove
      exact_mod_cast habove.le
    rw [truncate_of_le hx hz hle]
    exact above habove
  · have hneg : value x.toFloat < -2 ^ 63 := lt_neg_of_lt_neg hbelow
    have hlt : z < -2 ^ 63 := by
      rw [hz] at hneg
      exact_mod_cast hneg
    rw [truncate_of_lt hx hz hlt]
    exact below hneg

end Clamped

namespace Domain

/-- The other kind of an integer is binary64, and that of a whole binary64 number is integer. -/
theorem exists_of_otherKind? (h : otherKind? v = some w) :
    (∃ n, v = .int n ∧ w = .float (.ofFloat (ofInt64 n))) ∨
      ∃ x, isWhole x.toFloat = true ∧ v = .float x ∧ w = .int (truncate x.toFloat) := by
  cases v with
  | int n =>
    cases h
    exact .inl ⟨n, rfl, rfl⟩
  | float x =>
    obtain ⟨hwhole, hw⟩ := Option.ite_none_right_eq_some.1 h
    cases hw
    exact .inr ⟨x, hwhole, rfl, rfl⟩
  | none | bool b | string s | object key | inactive => cases h

/-- A number in the other kind is another value. -/
theorem ne_of_otherKind? (h : otherKind? v = some w) : w ≠ v := by
  rcases exists_of_otherKind? h with ⟨n, rfl, rfl⟩ | ⟨x, -, rfl, rfl⟩ <;> simp

/-- A number in the other kind is equal to the number unless it is clamped. -/
theorem equals_otherKind? (h : otherKind? v = some w) :
    v.equals w = .ok true ↔ ¬Clamped v w := by
  rcases exists_of_otherKind? h with ⟨n, rfl, rfl⟩ | ⟨x, hwhole, rfl, rfl⟩
  · have hsame : (ofInt64 n == ofInt64 n) = true :=
      (beq_iff_value (isFinite_ofInt64 n) (isFinite_ofInt64 n)).2 rfl
    have hequals : (Value.int n).equals (.float (.ofFloat (ofInt64 n))) = .ok true :=
      congrArg Except.ok hsame
    refine ⟨fun _ hclamped => ?_, fun _ => hequals⟩
    cases hclamped
  · have hequals : (Value.float x).equals (.int (truncate x.toFloat)) =
        .ok (x.toFloat == ofInt64 (truncate x.toFloat)) :=
      rfl
    rw [hequals, Except.ok.injEq, beq_ofInt64_truncate hwhole, Clamped.truncate_iff hwhole, not_lt]

/-! ## Forms in a domain -/

/-- A domain admits the form in which it holds a value, which is the value or, if that is a number,
one of the other kind. -/
theorem spec_of_canonical? (h : d.canonical? v = some w) :
    d.admits w = true ∧ (w = v ∨ otherKind? v = some w) := by
  cases d with
  | ints r =>
    cases v with
    | int n =>
      obtain ⟨hadmits, hw⟩ := Option.ite_none_right_eq_some.1 h
      cases hw
      exact ⟨hadmits, .inl rfl⟩
    | none | bool b | float x | string s | object key | inactive => cases h
  | floats r =>
    cases v with
    | int n =>
      obtain ⟨hadmits, hw⟩ := Option.ite_none_right_eq_some.1 h
      cases hw
      exact ⟨hadmits, .inr rfl⟩
    | float x =>
      obtain ⟨hadmits, hw⟩ := Option.ite_none_right_eq_some.1 h
      cases hw
      exact ⟨hadmits, .inl rfl⟩
    | none | bool b | string s | object key | inactive => cases h
  | categorical s | ordinal s =>
    refine ⟨(canonical?_canonical? rfl h).1, .inl ?_⟩
    obtain ⟨-, -, hw⟩ := Option.map_eq_some_iff.1 h
    exact hw.symm
  | discrete s =>
    refine ⟨(canonical?_canonical? rfl h).1, ?_⟩
    simp only [canonical?] at h
    split at h
    · cases h
      exact .inl rfl
    · obtain ⟨u, hu, hw⟩ := Option.bind_eq_some_iff.1 h
      obtain ⟨-, -, rfl⟩ := Option.map_eq_some_iff.1 hw
      exact .inr hu
  | text =>
    cases v with
    | string s =>
      cases h
      exact ⟨rfl, .inl rfl⟩
    | none | bool b | int n | float x | object key | inactive => cases h

/-- A domain holds what it admits as it is. -/
theorem canonical?_of_admits (h : d.admits v = true) : d.canonical? v = some v := by
  cases d with
  | ints r =>
    cases v with
    | int n => exact if_pos h
    | none | bool b | float x | string s | object key | inactive => cases h
  | floats r =>
    cases v with
    | float x => exact if_pos h
    | none | bool b | int n | string s | object key | inactive => cases h
  | categorical s | ordinal s =>
    obtain ⟨i, hi⟩ := Option.isSome_iff_exists.1 h
    exact Option.map_eq_some_iff.2 ⟨i, hi, rfl⟩
  | discrete s => exact if_pos h
  | text =>
    cases v with
    | string s => rfl
    | none | bool b | int n | float x | object key | inactive => cases h

/-- The form in which a domain holds a value is admitted, is its own form, and is the value or equal
to it, unless a number beyond all integers of 64 bits was clamped. An admitted value is its own form
too. -/
theorem canonical?_denotes (d : Domain) (v : Value) :
    (∀ w, d.canonical? v = some w →
      d.admits w = true ∧ d.canonical? w = some w ∧
        (w = v ∨ v.equals w = .ok true ↔ ¬Clamped v w)) ∧
      (d.admits v = true → d.canonical? v = some v) := by
  refine ⟨fun w h => ?_, canonical?_of_admits⟩
  obtain ⟨hadmits, hform⟩ := spec_of_canonical? h
  refine ⟨hadmits, canonical?_of_admits hadmits, ?_⟩
  rcases hform with rfl | hother
  · exact ⟨fun _ => Clamped.irrefl w, fun _ => .inl rfl⟩
  · rw [← equals_otherKind? hother]
    exact or_iff_right (ne_of_otherKind? hother)

/-- The set of the largest integer of 64 bits. -/
def largestInteger : Domain :=
  .discrete ⟨⟨[.int Int64.maxValue], by decide⟩, by decide⟩

/-- The number that is one greater, to which that integer is rounded, is equal to it. -/
theorem canonical?_denotes_largestInteger :
    let x : Value := .float (.ofFloat 9223372036854775808.0)
    let n : Value := .int Int64.maxValue
    largestInteger.canonical? x = some n ∧ largestInteger.admits n = true ∧
      largestInteger.canonical? n = some n ∧ ¬Clamped x n := by
  intro x n
  have hcanonical : largestInteger.canonical? x = some n := by decide +kernel
  obtain ⟨hadmits, -, hdenotes⟩ := (canonical?_denotes largestInteger x).1 n hcanonical
  have hequals : x.equals n = .ok true := by decide +kernel
  exact ⟨hcanonical, hadmits, (canonical?_denotes largestInteger n).2 hadmits,
    hdenotes.1 (.inr hequals)⟩

/-- A number that is twice as large is taken for it too, and is not equal to it. -/
theorem canonical?_not_equal : ¬∀ (id : Nat) (name : String) (description : Parameter.Description)
    (p : Parameter), Parameter.build id name description = .ok p → ∀ v,
      (∀ w, p.domain.canonical? v = some w →
        p.domain.admits w = true ∧ p.domain.canonical? w = some w ∧
          (w = v ∨ v.equals w = .ok true)) ∧
        (p.domain.admits v = true → p.domain.canonical? v = some v) := by
  intro h
  have hbuild : Parameter.build 0 "x" (.discrete [.int Int64.maxValue] 0) =
      .ok ⟨0, ⟨"x", by decide⟩, largestInteger, .int Int64.maxValue, by decide⟩ := by
    rfl
  have hcanonical : largestInteger.canonical? (.float (.ofFloat 18446744073709551616.0)) =
      some (.int Int64.maxValue) := by
    decide +kernel
  obtain ⟨-, -, hsame | hequals⟩ := (h _ _ _ _ hbuild _).1 _ hcanonical
  · cases hsame
  · revert hequals
    decide +kernel

end Domain

end SearchSpace
