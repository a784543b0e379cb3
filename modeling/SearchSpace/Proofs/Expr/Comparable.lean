import SearchSpace.Proofs.Expr.Sides
import SearchSpace.Proofs.Parameter.Canonical

/-!
# Comparisons that the check accepts

The check of a comparison of a variable that has listed values with a literal looks at the literal,
so that the comparison has a truth value whatever the value of the variable is. The exception is an
order on a set of numbers. There the literal need not be a member, as any number has its place
between the members, and the check does not look whether it is a number (`Misfits`). With a literal
that is none the comparison fails on every value; all others that the check accepts have a truth
value on every value of the domain that is not not-a-number (`eval_comparison_iff`).
-/

namespace SearchSpace

namespace Expr

variable {b : Binding} {scope : Scope} {op : BinaryOp} {left right : Expr Parameter} {p : Parameter}
  {s : ValueSet} {l r v w : Value}

/-! ## What the check says -/

/-- An order is asked for between a set of numbers and a value that is none. -/
def Misfits (op : BinaryOp) (p : Parameter) (v : Value) : Prop :=
  op.isOrdering = true ∧ (∃ t, p.domain = .discrete t) ∧ v.isNumeric = false

/-- What the check asks of a literal next to a parameter with listed values: it is one of these, and
ranked if an order is asked for; or an order of numbers is asked for, where it may be anything. -/
inductive Accepts (op : BinaryOp) (p : Parameter) (v : Value) : Prop
  | listed (hmember : ∃ u, p.domain.canonical? v = some u)
    (hranked : op.isOrdering = true → ∃ t, p.domain = .ordinal t)
  | ordering (hordering : op.isOrdering = true) (hdiscrete : ∃ t, p.domain = .discrete t)

/-- What the check asks for does not depend on the side. -/
theorem Accepts.flip (h : Accepts op p v) : Accepts op.flip p v := by
  cases h with
  | listed hmember hranked => exact .listed hmember (op.isOrdering_flip ▸ hranked)
  | ordering hordering hdiscrete => exact .ordering (op.isOrdering_flip ▸ hordering) hdiscrete

/-- Neither does what it misses. -/
theorem misfits_flip : Misfits op.flip p v ↔ Misfits op p v := by
  rw [Misfits, BinaryOp.isOrdering_flip, Misfits]

/-- The check of a comparison is that of each operand against the other, and of both. -/
theorem check_comparison (hop : op.isComparison = true)
    (h : (binary op left right).check scope = .ok ()) :
    (checkOperand op left right = .ok () ∧ checkOperand op right left = .ok ()) ∧
      left.check scope = .ok () ∧ right.check scope = .ok () := by
  obtain ⟨_, hnode, hchildren⟩ := bind_eq_ok.1 h
  rw [checkNode, if_pos hop] at hnode
  obtain ⟨_, hleft, hright⟩ := bind_eq_ok.1 hnode
  obtain ⟨_, hleftCheck, hrightCheck⟩ := bind_eq_ok.1 hchildren
  exact ⟨⟨hleft, hright⟩, hleftCheck, hrightCheck⟩

/-- A literal that the check accepts is its own value, and not not-a-number. -/
theorem literal_of_check (h : (literal v : Expr Parameter).check scope = .ok ()) :
    (literal v).eval b = .ok v ∧ v.isNaN = false := by
  cases v with
  | inactive => cases h
  | float x =>
    refine ⟨by simp only [eval], ?_⟩
    simp only [check, checkNode] at h
    split at h
    · next hfinite => exact Binary64.isNaN_of_isFinite hfinite
    · cases h
  | none | bool b | int n | string s | object key => exact ⟨by simp only [eval], rfl⟩

/-- A variable has the value of its parameter, if the domain admits that. -/
theorem eval_var_of_admits (hvalue : b.valueOf p = .ok w) (hadmits : p.domain.admits w = true) :
    (var p).eval b = .ok w := by
  refine eval_var_of_valueOf hvalue ?_
  rintro rfl
  rw [Domain.not_admits_inactive] at hadmits
  cases hadmits

/-- The check of an operand with listed values against a literal is what it asks of that. -/
theorem accepts_of_checkOperand (hset : p.domain.set? = some s)
    (h : checkOperand op (var p) (literal v) = .ok ()) : Accepts op p v := by
  have hmember : ∀ {e : Error},
      (if (p.domain.canonical? v).isNone = true then Except.error e else .ok ()) = .ok () →
      ∃ u, p.domain.canonical? v = some u := by
    intro e hnone
    split at hnone
    · cases hnone
    · next hsome =>
      rw [Option.isNone_iff_eq_none] at hsome
      exact Option.ne_none_iff_exists'.1 hsome
  cases hdomain : p.domain with
  | ints r | floats r | text =>
    rw [hdomain] at hset
    cases hset
  | categorical t =>
    simp only [checkOperand, hdomain, Bool.and_true, Bool.true_and] at h
    split at h
    · cases h
    · next hordering => exact .listed (hmember (hdomain ▸ h)) fun hop => absurd hop hordering
  | ordinal t =>
    simp only [checkOperand, hdomain, Bool.and_false, Bool.true_and, Bool.false_eq_true,
      reduceIte] at h
    exact .listed (hmember (hdomain ▸ h)) fun _ => ⟨t, hdomain⟩
  | discrete t =>
    cases hordering : op.isOrdering with
    | true => exact .ordering hordering ⟨t, hdomain⟩
    | false =>
      simp only [checkOperand, hdomain, hordering, Bool.and_false, Bool.not_false, Bool.true_and,
        Bool.false_eq_true, reduceIte] at h
      exact .listed (hmember (hdomain ▸ h)) fun hop =>
        absurd (hordering.symm.trans hop) Bool.false_ne_true

/-! ## What the comparison comes to -/

/-- A variable with listed values says how it compares with a literal. -/
theorem listed?_var (hset : p.domain.set? = some s) : (var p).listed? = some p := by
  rw [listed?, hset]
  rfl

/-- A value that a parameter has a form of has a place. -/
theorem exists_placeOf (hset : p.domain.set? = some s) {u : Value}
    (h : p.domain.canonical? v = some u) : ∃ i, placeOf p v = .ok i := by
  obtain ⟨i, hi⟩ := Option.isSome_iff_exists.1 (Domain.canonical?_canonical? hset h).1
  refine ⟨i, ?_⟩
  rw [placeOf, Domain.indexOf?_eq hset, h, Option.bind_some, hi]

/-- A comparison by equality has a truth value if equality has. -/
theorem exists_verdict_of_equal (hop : op.isComparison = true) (hordering : op.isOrdering = false)
    {t : Bool} (h : sameFor (arbiter? left right) l r = .ok t) :
    ∃ t, verdict op left right l r = .ok t := by
  cases op with
  | equal => exact ⟨t, h⟩
  | notEqual => exact ⟨!t, by rw [verdict, told, h]; rfl⟩
  | less | greater | lessOrEqual | greaterOrEqual => cases hordering
  | or | and | member | add | subtract | multiply | divide | modulo => cases hop

/-- A comparison by order has a truth value if the operands have an order. -/
theorem exists_verdict_iff_of_isOrdering (hordering : op.isOrdering = true) :
    (∃ t, verdict op left right l r = .ok t) ↔
      ∃ o, orderFor (arbiter? left right) l r = .ok o := by
  simp only [verdict, told_of_isOrdering hordering, map_eq_ok]
  constructor
  · rintro ⟨_, o, ho, -⟩
    exact ⟨o, ho⟩
  · rintro ⟨o, ho⟩
    exact ⟨_, o, ho, rfl⟩

/-- A value of a parameter and a literal that is one have the same place or not, and where the values
are ranked, an order. -/
theorem exists_verdict_of_places (hop : op.isComparison = true) (hset : p.domain.set? = some s)
    (hw : ∃ i, placeOf p w = .ok i) (hv : ∃ i, placeOf p v = .ok i)
    (hranked : op.isOrdering = true → ∃ t, p.domain = .ordinal t) :
    ∃ t, verdict op (var p) (literal v) w v = .ok t := by
  obtain ⟨i, hi⟩ := hw
  obtain ⟨j, hj⟩ := hv
  cases hordering : op.isOrdering with
  | false =>
    refine exists_verdict_of_equal (t := i == j) hop hordering ?_
    rw [arbiter?, listed?_var hset]
    show samePlace p w v = _
    rw [samePlace, hi, hj]
    rfl
  | true =>
    obtain ⟨t, hdomain⟩ := hranked hordering
    refine (exists_verdict_iff_of_isOrdering hordering).2 ⟨compare i j, ?_⟩
    rw [arbiter?, listed?_var hset]
    show orderOf p w v = _
    simp only [orderOf, hdomain]
    rw [compareValues_ordinal hdomain, hi, hj]
    rfl

/-- A member of a set of numbers has an order with a literal if that is a number. -/
theorem exists_verdict_iff_of_discrete {t : NumberSet} (hordering : op.isOrdering = true)
    (hdomain : p.domain = .discrete t) (hnan : ∀ u ∈ t.values, u.isNaN = false)
    (hw : w ∈ t.values) (hv : v.isNaN = false) :
    (∃ t, verdict op (var p) (literal v) w v = .ok t) ↔ v.isNumeric = true := by
  have hset : p.domain.set? = some t.toValueSet := by rw [hdomain]; rfl
  rw [exists_verdict_iff_of_isOrdering hordering, arbiter?, listed?_var hset]
  have horder : orderOf p w v = w.compare v := by simp only [orderOf, hdomain]
  show (∃ o, orderOf p w v = .ok o) ↔ _
  rw [horder]
  exact Value.exists_compare_iff (t.isNumeric_of_mem hw) (hnan w hw) hv

/-- A comparison of an admitted value with a literal that the check accepts has a truth value unless
the literal misfits. -/
theorem exists_verdict_iff (hop : op.isComparison = true) (hset : p.domain.set? = some s)
    (hnan : ∀ u ∈ s.values, u.isNaN = false) (haccepts : Accepts op p v) (hv : v.isNaN = false)
    (hadmits : p.domain.admits w = true) :
    (∃ t, verdict op (var p) (literal v) w v = .ok t) ↔ ¬Misfits op p v := by
  cases haccepts with
  | listed hmember hranked =>
    obtain ⟨u, hu⟩ := hmember
    have hw := exists_placeOf hset (Domain.canonical?_of_admits hadmits)
    refine iff_of_true (exists_verdict_of_places hop hset hw (exists_placeOf hset hu) hranked) ?_
    rintro ⟨hordering, ⟨t, hdiscrete⟩, -⟩
    obtain ⟨t', hordinal⟩ := hranked hordering
    rw [hordinal] at hdiscrete
    cases hdiscrete
  | ordering hordering hdiscrete =>
    obtain ⟨t, hdomain⟩ := hdiscrete
    rw [hdomain] at hset hadmits
    cases hset
    have hmisfits : Misfits op p v ↔ v.isNumeric = false :=
      ⟨fun h => h.2.2, fun h => ⟨hordering, ⟨t, hdomain⟩, h⟩⟩
    rw [hmisfits, Bool.not_eq_false]
    exact exists_verdict_iff_of_discrete hordering hdomain hnan
      (ValueSet.mem_of_position? hadmits) hv

/-- The value of a comparison is a truth value if it has one on the values of the operands. -/
theorem exists_eval_iff (hop : op.isComparison = true) (hl : left.eval b = .ok l)
    (hr : right.eval b = .ok r) :
    (∃ t, (binary op left right).eval b = .ok (.bool t)) ↔
      ∃ t, verdict op left right l r = .ok t := by
  have heval : (binary op left right).eval b = Value.bool <$> verdict op left right l r := by
    rw [eval_comparison hop, hl, hr]
    rfl
  simp only [heval, map_eq_ok, Value.bool.injEq, exists_eq_right]

/-- A comparison between a variable with listed values, none of them not-a-number, and a literal, from
either side, that the check accepts has a truth value on each value of the domain, unless an order is
asked for between numbers and a literal that is none. -/
theorem eval_comparison_iff (hop : op.isComparison = true) (hset : p.domain.set? = some s)
    (hnan : ∀ u ∈ s.values, u.isNaN = false) {e : Expr Parameter}
    (he : e = binary op (var p) (literal v) ∨ e = binary op (literal v) (var p))
    (hcheck : e.check scope = .ok ()) (hvalue : b.valueOf p = .ok w)
    (hadmits : p.domain.admits w = true) :
    (∃ t, e.eval b = .ok (.bool t)) ↔ ¬Misfits op p v := by
  have hvar := eval_var_of_admits hvalue hadmits
  rcases he with rfl | rfl
  · obtain ⟨⟨hoperand, -⟩, -, hliteral⟩ := check_comparison hop hcheck
    obtain ⟨hown, hv⟩ := literal_of_check (b := b) hliteral
    rw [exists_eval_iff hop hvar hown]
    exact exists_verdict_iff hop hset hnan (accepts_of_checkOperand hset hoperand) hv hadmits
  · obtain ⟨⟨-, hoperand⟩, hliteral, -⟩ := check_comparison hop hcheck
    obtain ⟨hown, hv⟩ := literal_of_check (b := b) hliteral
    have hflip : (verdict op (literal v) (var p) v w).toOption =
        (verdict op.flip (var p) (literal v) w v).toOption := by
      refine verdict_flip hop fun q _ hq => ?_
      cases hq
    rw [exists_eval_iff hop hown hvar, exists_ok_iff_of_toOption_eq hflip, ← misfits_flip]
    exact exists_verdict_iff (op.isComparison_flip.trans hop) hset hnan
      (accepts_of_checkOperand hset hoperand).flip hv hadmits

/-- A number that is between the members of a set. -/
theorem eval_comparison_iff_level :
    BinaryOp.less.isComparison = true ∧
      (∃ s, level.domain.set? = some s ∧ ∀ u ∈ s.values, u.isNaN = false) ∧
      (binary .less (var level) (literal (.int 3))).check graded.scope = .ok () ∧
      graded.valueOf level = .ok (.int 1) ∧ level.domain.admits (.int 1) = true ∧
      ∃ t, (binary .less (var level) (literal (.int 3))).eval graded = .ok (.bool t) := by
  have hnan : ∀ u ∈ [Value.int 1, .int 2, .int 4], u.isNaN = false := by decide
  have hcheck : (binary .less (var level) (literal (.int 3))).check graded.scope = .ok () := rfl
  have hfits : ¬Misfits .less level (.int 3) := by
    rintro ⟨-, -, hnumeric⟩
    cases hnumeric
  exact ⟨rfl, ⟨_, rfl, hnan⟩, hcheck, rfl, rfl,
    (eval_comparison_iff rfl rfl hnan (.inl rfl) hcheck rfl rfl).2 hfits⟩

/-- A text is no number that an order could be asked for with, and the check accepts it. -/
theorem eval_comparison_needs_number : ¬∀ (scope : Scope) (op : BinaryOp) (p : Parameter)
    (s : ValueSet) (v : Value) (e : Expr Parameter), op.isComparison = true →
      p.domain.set? = some s → (∀ u ∈ s.values, u.isNaN = false) →
      (e = binary op (var p) (literal v) ∨ e = binary op (literal v) (var p)) →
      e.check scope = .ok () → ∀ (b : Binding) (w : Value), b.valueOf p = .ok w →
        p.domain.admits w = true → ∃ t, e.eval b = .ok (.bool t) := by
  intro h
  have heval : (binary .less (var level) (literal (.string "abc"))).eval graded =
      .error (.invalidValue (.unordered .int .string)) := by
    rfl
  obtain ⟨t, ht⟩ := h graded.scope .less level _ (.string "abc") _ rfl rfl (by decide) (.inl rfl) rfl
    graded (.int 1) rfl rfl
  rw [heval] at ht
  cases ht

end Expr

end SearchSpace
