import SearchSpace.Proofs.Comparison
import SearchSpace.Proofs.Expr.Reads
import SearchSpace.Proofs.Parameter.Domain

/-!
# Comparisons from either side

A comparison can be written from either side: `a < b` is `b > a`. Where one of the operands is a
variable with listed values, its parameter says how to compare, and it does not matter on which side
it stands (`told_flip`). Where both are, the parameter on the left says so alone, and the two sides
agree just if the parameters compare the two values alike (`toOption_eval_flip_iff`, `Concurs`). Two
parameters with one domain always do, and so do two with numbers where an order is asked for; one
with ranks and one with numbers do where the ranks of the values are in the order of numbers. With
that `eval_flip` holds of every comparison, whatever the operands are and whether or not the check
accepts them; without it there are parameters for which it fails (`eval_flip_needs_concurs`).
-/

namespace SearchSpace

/-- The operator that says the same of two operands in the other order. -/
def BinaryOp.flip : BinaryOp → BinaryOp
  | .less => .greater
  | .greater => .less
  | .lessOrEqual => .greaterOrEqual
  | .greaterOrEqual => .lessOrEqual
  | op => op

/-- The same order, or equality, is asked for from the other side. -/
@[simp] theorem BinaryOp.isOrdering_flip (op : BinaryOp) : op.flip.isOrdering = op.isOrdering := by
  cases op <;> rfl

/-- The operator from the other side compares too. -/
@[simp] theorem BinaryOp.isComparison_flip (op : BinaryOp) :
    op.flip.isComparison = op.isComparison := by
  cases op <;> rfl

/-- A domain has forms of two values, and they are the same or not. -/
def Domain.Equates (d : Domain) (l r : Value) (same : Bool) : Prop :=
  ∃ l' r', d.canonical? l = some l' ∧ d.canonical? r = some r' ∧ decide (l' = r') = same

/-- A domain with listed values has two values in an order. -/
inductive Domain.Orders (l r : Value) (o : Ordering) : Domain → Prop
  /-- Values with ranks are in the order in which they stand in the list. -/
  | ranks {s : ValueSet} {i j : Nat} (hl : s.values[i]? = some l) (hr : s.values[j]? = some r)
      (ho : compare i j = o) : Orders l r o (.ordinal s)
  /-- Numbers are in the order of numbers, also where they are not listed. -/
  | numbers {s : NumberSet} (ho : l.compare r = .ok o) : Orders l r o (.discrete s)

/-- Values with ranks have the order of their places, and no other one. -/
theorem Domain.orders_ordinal {s : ValueSet} {l r : Value} {o : Ordering} {i j : Nat}
    (hl : s.values[i]? = some l) (hr : s.values[j]? = some r) :
    Domain.Orders l r o (.ordinal s) ↔ compare i j = o := by
  rw [← ValueSet.position?_eq_some_iff] at hl hr
  constructor
  · intro h
    cases h with
    | ranks hl' hr' ho =>
      rw [← ValueSet.position?_eq_some_iff] at hl' hr'
      cases hl.symm.trans hl'
      cases hr.symm.trans hr'
      exact ho
  · exact .ranks (ValueSet.position?_eq_some_iff.1 hl) (ValueSet.position?_eq_some_iff.1 hr)

/-- Numbers have the order of numbers. -/
theorem Domain.orders_discrete {s : NumberSet} {l r : Value} {o : Ordering} :
    Domain.Orders l r o (.discrete s) ↔ l.compare r = .ok o := by
  constructor
  · intro h
    cases h with
    | numbers ho => exact ho
  · exact .numbers

namespace Expr

variable {b : Binding} {op : BinaryOp} {left right : Expr Parameter} {p q : Parameter}
  {l r : Value} {s t : ValueSet}

/-- Whether two parameters with listed values compare two values alike. Where an order is asked for,
either both have the values in one, and the comparison is true of both orders or of none, or neither
has them in one; else either both have forms of the values, and these are the same for both or for
none, or neither has. -/
def Concurs (op : BinaryOp) (p q : Parameter) (l r : Value) : Prop :=
  if op.isOrdering then
    ∀ truth, (∃ o, p.domain.Orders l r o ∧ holds op o = truth) ↔
      ∃ o, q.domain.Orders l r o ∧ holds op o = truth
  else ∀ same, p.domain.Equates l r same ↔ q.domain.Equates l r same

/-- Parameters with the same domain concur. -/
theorem concurs_of_domain_eq (h : p.domain = q.domain) : Concurs op p q l r := by
  rw [Concurs, h]
  split <;> exact fun _ => Iff.rfl

/-- Parameters with numbers concur on every order, whichever numbers these are. -/
theorem concurs_of_discrete {s t : NumberSet} (hop : op.isOrdering = true)
    (hp : p.domain = .discrete s) (hq : q.domain = .discrete t) : Concurs op p q l r := by
  rw [Concurs, if_pos hop, hp, hq]
  intro truth
  simp only [Domain.orders_discrete]

/-- A parameter with ranks and one with numbers concur on the order of two values if the ranks of
these are in the order of numbers. -/
theorem concurs_of_compare {t : NumberSet} {i j : Nat} (hop : op.isOrdering = true)
    (hp : p.domain = .ordinal s) (hq : q.domain = .discrete t) (hl : s.values[i]? = some l)
    (hr : s.values[j]? = some r) (ho : l.compare r = .ok (compare i j)) : Concurs op p q l r := by
  rw [Concurs, if_pos hop, hp, hq]
  intro truth
  simp only [Domain.orders_ordinal hl hr, Domain.orders_discrete, ho, Except.ok.injEq]

/-! ## Equality -/

/-- A parameter with listed values has them. -/
theorem exists_set_of_listed? (h : left.listed? = some p) : ∃ s, p.domain.set? = some s := by
  unfold listed? at h
  split at h
  · split at h
    · next hset =>
      cases h
      exact Option.isSome_iff_exists.1 hset
    · cases h
  · cases h

/-- Whether two values have the same place among those of a parameter. -/
def samePlace (p : Parameter) (l r : Value) : Except Error Bool := do
  let i ← placeOf p l
  let j ← placeOf p r
  pure (i == j)

/-- The place of a value is the one that the domain has for it. -/
theorem toOption_placeOf (p : Parameter) (v : Value) :
    (placeOf p v).toOption = p.domain.indexOf? v := by
  rw [placeOf]
  cases p.domain.indexOf? v with
  | none => rfl
  | some i => rfl

/-- Two values have the same place if the domain has the same place for them. -/
theorem toOption_samePlace (p : Parameter) (l r : Value) : (samePlace p l r).toOption =
    (p.domain.indexOf? l).bind fun i => (p.domain.indexOf? r).bind fun j => some (i == j) := by
  simp only [samePlace, toOption_bind, toOption_placeOf]
  rfl

/-- It does not matter which of two values is named first. -/
theorem samePlace_comm (p : Parameter) (l r : Value) :
    (samePlace p r l).toOption = (samePlace p l r).toOption := by
  simp only [toOption_samePlace]
  rw [Option.bind_comm]
  simp only [BEq.comm]

/-- Two values have the same place just if the domain has one form of both. -/
theorem samePlace_iff (hset : p.domain.set? = some s) {same : Bool} :
    (samePlace p l r).toOption = some same ↔ p.domain.Equates l r same := by
  constructor
  · intro h
    rw [toOption_samePlace, Domain.indexOf?_eq hset, Domain.indexOf?_eq hset] at h
    obtain ⟨i, hi, h⟩ := Option.bind_eq_some_iff.1 h
    obtain ⟨j, hj, h⟩ := Option.bind_eq_some_iff.1 h
    obtain ⟨l', hl, hi⟩ := Option.bind_eq_some_iff.1 hi
    obtain ⟨r', hr, hj⟩ := Option.bind_eq_some_iff.1 hj
    refine ⟨l', r', hl, hr, ?_⟩
    rw [← Option.some.inj h, Bool.beq_eq_decide_eq, decide_eq_decide]
    exact (ValueSet.position?_inj hi hj).symm
  · rintro ⟨l', r', hl, hr, rfl⟩
    obtain ⟨i, hi⟩ := Option.isSome_iff_exists.1 (Domain.canonical?_canonical? hset hl).1
    obtain ⟨j, hj⟩ := Option.isSome_iff_exists.1 (Domain.canonical?_canonical? hset hr).1
    rw [toOption_samePlace, Domain.indexOf?_eq hset, Domain.indexOf?_eq hset, hl, hr]
    simp only [Option.bind_some, hi, hj]
    rw [Option.some.injEq, Bool.beq_eq_decide_eq, decide_eq_decide]
    exact ValueSet.position?_inj hi hj

/-! ## Order -/

/-- The order of two values that a parameter with listed values gives. -/
def orderOf (p : Parameter) (l r : Value) : Except Error Ordering :=
  match p.domain with
  | .categorical _ => .error (.invalidValue (.noOrder p.name.text))
  | .ordinal _ => p.compareValues l r
  | _ => l.compare r

/-- Ranked values compare by their places. -/
theorem compareValues_ordinal {s : ValueSet} (h : p.domain = .ordinal s) (l r : Value) :
    p.compareValues l r = (do
      let i ← placeOf p l
      let j ← placeOf p r
      pure (compare i j)) := by
  simp only [Parameter.compareValues, placeOf, h]
  rfl

/-- The order that a parameter with ranked values gives is that of the places. -/
theorem toOption_orderOf_ordinal {s : ValueSet} (h : p.domain = .ordinal s) (l r : Value) :
    (orderOf p l r).toOption =
      (s.position? l).bind fun i => (s.position? r).bind fun j => some (compare i j) := by
  simp only [orderOf, h]
  simp only [compareValues_ordinal h, toOption_bind, toOption_placeOf, h, Domain.indexOf?_ordinal]
  rfl

/-- Two values in the other order compare the other way round. -/
theorem orderOf_swap (p : Parameter) (l r : Value) :
    (orderOf p r l).toOption = (orderOf p l r).toOption.map Ordering.swap := by
  cases h : p.domain with
  | ordinal s =>
    rw [toOption_orderOf_ordinal h, toOption_orderOf_ordinal h, Option.bind_comm]
    simp only [Option.map_bind, Function.comp_def, Option.map_some, Nat.compare_swap]
  | categorical s =>
    simp only [orderOf, h]
    rfl
  | ints _ | floats _ | discrete _ | text =>
    simp only [orderOf, h]
    exact Value.compare_swap l r

/-- Two values have an order just if the domain has them in it. -/
theorem orderOf_iff (hset : p.domain.set? = some s) {o : Ordering} :
    (orderOf p l r).toOption = some o ↔ p.domain.Orders l r o := by
  cases h : p.domain with
  | ints _ | floats _ | text =>
    rw [h] at hset
    cases hset
  | categorical s' =>
    rw [orderOf, h]
    exact iff_of_false (fun h => nomatch h) fun h => nomatch h
  | discrete s' =>
    rw [orderOf, h, toOption_eq_some]
    exact Domain.orders_discrete.symm
  | ordinal s' =>
    rw [toOption_orderOf_ordinal h]
    constructor
    · intro horder
      obtain ⟨i, hi, horder⟩ := Option.bind_eq_some_iff.1 horder
      obtain ⟨j, hj, horder⟩ := Option.bind_eq_some_iff.1 horder
      exact .ranks (ValueSet.position?_eq_some_iff.1 hi) (ValueSet.position?_eq_some_iff.1 hj)
        (Option.some.inj horder)
    · rintro ⟨hl, hr, ho⟩
      rw [ValueSet.position?_eq_some_iff.2 hl, ValueSet.position?_eq_some_iff.2 hr]
      exact congrArg some ho

/-- An order the other way round makes the comparison from the other side true. -/
theorem holds_flip (hop : op.isOrdering = true) (o : Ordering) :
    holds op.flip o.swap = holds op o := by
  cases op with
  | less | greater | lessOrEqual | greaterOrEqual => cases o <;> rfl
  | or | and | equal | notEqual | member | add | subtract | multiply | divide | modulo => cases hop

/-! ## What a parameter tells -/

/-- Whether two values are the same, as a parameter with listed values tells it. Without one they are
compared as they are. -/
def sameFor : Option Parameter → Value → Value → Except Error Bool
  | some p, l, r => samePlace p l r
  | none, l, r => l.equals r

/-- The order of two values, as a parameter with listed values tells it. Without one they are compared
as they are. -/
def orderFor : Option Parameter → Value → Value → Except Error Ordering
  | some p, l, r => orderOf p l r
  | none, l, r => l.compare r

/-- The truth of a comparison of two values, as a parameter with listed values tells it. -/
def told (op : BinaryOp) (arbiter? : Option Parameter) (l r : Value) : Except Error Bool :=
  match op with
  | .equal => sameFor arbiter? l r
  | .notEqual => not <$> sameFor arbiter? l r
  | op => holds op <$> orderFor arbiter? l r

/-- An order is told by that of the values. -/
theorem told_of_isOrdering (hop : op.isOrdering = true) (arbiter? : Option Parameter) (l r : Value) :
    told op arbiter? l r = holds op <$> orderFor arbiter? l r := by
  cases op with
  | less | greater | lessOrEqual | greaterOrEqual => rfl
  | or | and | equal | notEqual | member | add | subtract | multiply | divide | modulo => cases hop

/-- It does not matter which of two values is named first. -/
theorem sameFor_comm (arbiter? : Option Parameter) (l r : Value) :
    (sameFor arbiter? r l).toOption = (sameFor arbiter? l r).toOption := by
  cases arbiter? with
  | none => exact Value.equals_comm l r
  | some p => exact samePlace_comm p l r

/-- Two values in the other order compare the other way round. -/
theorem orderFor_swap (arbiter? : Option Parameter) (l r : Value) :
    (orderFor arbiter? r l).toOption = (orderFor arbiter? l r).toOption.map Ordering.swap := by
  cases arbiter? with
  | none => exact Value.compare_swap l r
  | some p => exact orderOf_swap p l r

/-- What one parameter tells does not depend on the side. -/
theorem told_flip (hop : op.isComparison = true) (arbiter? : Option Parameter) (l r : Value) :
    (told op.flip arbiter? r l).toOption = (told op arbiter? l r).toOption := by
  cases hordering : op.isOrdering with
  | false =>
    have hcomm := sameFor_comm arbiter? l r
    cases op with
    | equal => exact hcomm
    | notEqual => simp only [told, BinaryOp.flip, toOption_map, hcomm]
    | less | greater | lessOrEqual | greaterOrEqual => cases hordering
    | or | and | member | add | subtract | multiply | divide | modulo => cases hop
  | true =>
    have hflip : op.flip.isOrdering = true := op.isOrdering_flip.trans hordering
    rw [told_of_isOrdering hordering, told_of_isOrdering hflip, toOption_map, toOption_map,
      orderFor_swap, Option.map_map]
    exact congrArg (Option.map · _) (funext (holds_flip hordering))

/-- Two parameters with listed values tell the same of two values just if they concur on them. -/
theorem told_eq_iff (hop : op.isComparison = true) (hp : p.domain.set? = some s)
    (hq : q.domain.set? = some t) :
    (told op (some p) l r).toOption = (told op (some q) l r).toOption ↔ Concurs op p q l r := by
  cases hordering : op.isOrdering with
  | false =>
    have hsame : (samePlace p l r).toOption = (samePlace q l r).toOption ↔ Concurs op p q l r := by
      rw [Concurs, hordering, if_neg Bool.false_ne_true, Option.ext_iff]
      simp only [samePlace_iff hp, samePlace_iff hq]
    cases op with
    | equal => exact hsame
    | notEqual =>
      rw [← hsame, told, told, toOption_map, toOption_map]
      exact (Option.map_injective Bool.not_injective).eq_iff
    | less | greater | lessOrEqual | greaterOrEqual => cases hordering
    | or | and | member | add | subtract | multiply | divide | modulo => cases hop
  | true =>
    rw [Concurs, if_pos hordering, told_of_isOrdering hordering, told_of_isOrdering hordering,
      Option.ext_iff]
    simp only [orderFor, toOption_map, Option.map_eq_some_iff, orderOf_iff hp, orderOf_iff hq]

/-! ## Comparisons -/

/-- The parameter that says how two operands compare: that of the left one if it has listed values,
else that of the right one. -/
def arbiter? (left right : Expr Parameter) : Option Parameter :=
  left.listed?.orElse fun _ => right.listed?

/-- Equality of two operands is told by their arbiter. -/
theorem equalValues_eq : equalValues left right l r = sameFor (arbiter? left right) l r := by
  rw [equalValues, arbiter?]
  cases left.listed?.orElse fun _ => right.listed? <;> rfl

/-- The order of two operands is told by their arbiter. -/
theorem orderValues_eq : orderValues left right l r = orderFor (arbiter? left right) l r := by
  rw [orderValues, arbiter?]
  cases left.listed?.orElse fun _ => right.listed? <;> rfl

/-- The truth of a comparison of two operands with these values. -/
def verdict (op : BinaryOp) (left right : Expr Parameter) (l r : Value) : Except Error Bool :=
  told op (arbiter? left right) l r

/-- The value of a comparison is its truth. -/
theorem eval_comparison (hop : op.isComparison = true) : (binary op left right).eval b = (do
    let l ← left.eval b
    let r ← right.eval b
    Value.bool <$> verdict op left right l r) := by
  cases op with
  | equal | notEqual | less | greater | lessOrEqual | greaterOrEqual =>
    rw [eval_binary (by decide) (by decide) (by decide)]
    simp only [reduceCtorEq, reduceIte, BinaryOp.isOrdering, verdict, told, equalValues_eq,
      orderValues_eq, map_eq_pure_bind, bind_assoc, pure_bind]
  | or | and | member | add | subtract | multiply | divide | modulo => cases hop

/-- What a comparison evaluates to is a truth value. -/
theorem exists_bool_of_comparison (hop : op.isComparison = true) {v : Value}
    (h : (binary op left right).eval b = .ok v) : ∃ t, v = .bool t := by
  rw [eval_comparison hop] at h
  obtain ⟨l, -, h⟩ := bind_eq_ok.1 h
  obtain ⟨r, -, h⟩ := bind_eq_ok.1 h
  cases hverdict : verdict op left right l r with
  | error e =>
    rw [hverdict] at h
    cases h
  | ok t =>
    rw [hverdict] at h
    cases h
    exact ⟨t, rfl⟩

/-- Between operands with listed values, the truth of a comparison does not depend on the side just
if the parameters concur. -/
theorem verdict_flip_iff (hop : op.isComparison = true) (hleft : left.listed? = some p)
    (hright : right.listed? = some q) :
    (verdict op left right l r).toOption = (verdict op.flip right left r l).toOption ↔
      Concurs op p q l r := by
  obtain ⟨s, hs⟩ := exists_set_of_listed? hleft
  obtain ⟨t, ht⟩ := exists_set_of_listed? hright
  rw [verdict, verdict, told_flip hop, arbiter?, arbiter?, hleft, hright]
  exact told_eq_iff hop hs ht

/-- The truth of a comparison does not depend on the side if the parameters concur. -/
theorem verdict_flip (hop : op.isComparison = true)
    (h : ∀ p q, left.listed? = some p → right.listed? = some q → Concurs op p q l r) :
    (verdict op left right l r).toOption = (verdict op.flip right left r l).toOption := by
  cases hleft : left.listed? with
  | none =>
    rw [verdict, verdict, told_flip hop, arbiter?, arbiter?, hleft]
    cases right.listed? <;> rfl
  | some p =>
    cases hright : right.listed? with
    | none =>
      rw [verdict, verdict, told_flip hop, arbiter?, arbiter?, hleft, hright]
      rfl
    | some q => exact (verdict_flip_iff hop hleft hright).2 (h p q hleft hright)

/-- The value of a comparison of two values is its truth. -/
theorem toOption_eval_comparison (hop : op.isComparison = true) (hl : left.eval b = .ok l)
    (hr : right.eval b = .ok r) : ((binary op left right).eval b).toOption =
      (verdict op left right l r).toOption.map Value.bool := by
  rw [eval_comparison hop, hl, hr]
  exact toOption_map _ _

/-- Between two variables with listed values, a comparison and the same one written from the other
side have the same value or none just if the parameters concur. -/
theorem toOption_eval_flip_iff (hop : op.isComparison = true) (hleft : left.listed? = some p)
    (hright : right.listed? = some q) (hl : left.eval b = .ok l) (hr : right.eval b = .ok r) :
    ((binary op left right).eval b).toOption = ((binary op.flip right left).eval b).toOption ↔
      Concurs op p q l r := by
  have hflip : op.flip.isComparison = true := op.isComparison_flip.trans hop
  rw [toOption_eval_comparison hop hl hr, toOption_eval_comparison hflip hr hl,
    ← verdict_flip_iff hop hleft hright]
  exact (Option.map_injective fun _ _ => Value.bool.inj).eq_iff

/-- A comparison and the same one written from the other side have the same truth value or both
fail, if the parameters of the operands concur on the values of these where both have listed
values. -/
theorem eval_flip (hop : op.isComparison = true)
    (hconcurs : ∀ p q, left.listed? = some p → right.listed? = some q → ∀ l r,
      left.eval b = .ok l → right.eval b = .ok r → Concurs op p q l r) :
    (∃ t, (binary op left right).eval b = .ok (.bool t) ∧
        (binary op.flip right left).eval b = .ok (.bool t)) ∨
      (∃ e, (binary op left right).eval b = .error e) ∧
        ∃ e, (binary op.flip right left).eval b = .error e := by
  have hflip : op.flip.isComparison = true := op.isComparison_flip.trans hop
  have hsame : ((binary op left right).eval b).toOption =
      ((binary op.flip right left).eval b).toOption := by
    rw [eval_comparison hop, eval_comparison hflip]
    simp only [toOption_bind, toOption_map]
    rw [Option.bind_comm]
    cases hright : right.eval b with
    | error e => rfl
    | ok r =>
      cases hleft : left.eval b with
      | error e => rfl
      | ok l =>
        refine congrArg (Option.map Value.bool) (verdict_flip hop fun p q hp hq => ?_)
        exact hconcurs p q hp hq l r hleft hright
  rcases ok_or_error_of_toOption_eq hsame with ⟨v, hv, hv'⟩ | hfail
  · obtain ⟨t, rfl⟩ := exists_bool_of_comparison hop hv
    exact .inl ⟨t, hv, hv'⟩
  · exact .inr hfail

/-- Some integers of 64 bits, ranked in the order in which they are listed. -/
def grade : Parameter :=
  ⟨0, ⟨"grade", by decide⟩, .ordinal ⟨[.int 3, .int 1, .int 2], by decide⟩, .int 3, by decide⟩

/-- The same ones, ranked as numbers are. -/
def rank : Parameter :=
  ⟨1, ⟨"rank", by decide⟩, .ordinal ⟨[.int 1, .int 2, .int 3], by decide⟩, .int 1, by decide⟩

/-- Some of them and another one, as numbers. -/
def level : Parameter :=
  ⟨2, ⟨"level", by decide⟩, .discrete ⟨⟨[.int 1, .int 2, .int 4], by decide⟩, by decide⟩, .int 1,
    by decide⟩

/-- A binding of three parameters with listed values. -/
def graded : Binding :=
  ⟨⟨[grade, rank, level], by decide⟩, [.int 3, .int 2, .int 1]⟩

/-- A parameter with ranks and one of numbers that have two values in the same order. -/
theorem eval_flip_graded :
    BinaryOp.greater.isComparison = true ∧
      (∀ p q, (var rank).listed? = some p → (var level).listed? = some q → ∀ l r,
        (var rank).eval graded = .ok l → (var level).eval graded = .ok r →
          Concurs .greater p q l r) ∧
      ((∃ t, (binary .greater (var rank) (var level)).eval graded = .ok (.bool t) ∧
          (binary BinaryOp.greater.flip (var level) (var rank)).eval graded = .ok (.bool t)) ∨
        (∃ e, (binary .greater (var rank) (var level)).eval graded = .error e) ∧
          ∃ e, (binary BinaryOp.greater.flip (var level) (var rank)).eval graded = .error e) := by
  have hconcurs : ∀ p q, (var rank).listed? = some p → (var level).listed? = some q → ∀ l r,
      (var rank).eval graded = .ok l → (var level).eval graded = .ok r →
        Concurs .greater p q l r := by
    intro p q hp hq l r hl hr
    cases hp
    cases hq
    cases hl
    cases hr
    have hsecond : [Value.int 1, .int 2, .int 3][1]? = some (.int 2) := rfl
    have hfirst : [Value.int 1, .int 2, .int 3][0]? = some (.int 1) := rfl
    exact concurs_of_compare rfl rfl rfl hsecond hfirst rfl
  exact ⟨rfl, hconcurs, eval_flip rfl hconcurs⟩

/-- The parameter on the left says alone how two operands with listed values compare. Of two lists
the one has a 3 before a 2, and the other one after it. A list that has it before a 1 does not agree
with numbers either; and it has the 1, where they do not have a 3. The check accepts each comparison
from both sides, and the values are of their domains. -/
theorem eval_flip_needs_concurs :
    (∀ e ∈ [binary .less (var grade) (var rank), binary .greater (var rank) (var grade),
        binary .less (var grade) (var level), binary .greater (var level) (var grade),
        binary .equal (var grade) (var level), binary .equal (var level) (var grade)],
      e.check graded.scope = .ok ()) ∧
      List.Forall₂ (fun p v => p.domain.admits v = true) graded.scope.parameters graded.values ∧
      (binary .less (var grade) (var rank)).eval graded = .ok (.bool true) ∧
      (binary .greater (var rank) (var grade)).eval graded = .ok (.bool false) ∧
      (binary .less (var grade) (var level)).eval graded = .ok (.bool true) ∧
      (binary .greater (var level) (var grade)).eval graded = .ok (.bool false) ∧
      (binary .equal (var grade) (var level)).eval graded = .ok (.bool false) ∧
      (binary .equal (var level) (var grade)).eval graded =
        .error (.invalidValue (.notInDomain (.int 3) "level")) := by
  refine ⟨?_, .cons rfl (.cons rfl (.cons rfl .nil)), rfl, rfl, rfl, rfl, rfl, rfl⟩
  simp only [List.forall_mem_cons]
  exact ⟨rfl, rfl, rfl, rfl, rfl, rfl, List.forall_mem_nil _⟩

end Expr

end SearchSpace
