import SearchSpace.Expr.Eval
import SearchSpace.Proofs.Outcome

/-!
# Logical chains

Operands can be joined by `||` in many ways that differ in where the parentheses stand. All of them
evaluate alike: to the `disjunction` of the outcomes of the operands, which one reads off the list of
these. It is the same with `&&` and the `conjunction`. Both are instances of `Joins.eval_eq`, which
asks of a function of lists that it treats what it makes of a part of a list like that part.

The operators differ in what an inactive operand does. `&&` takes it as an error like any other one,
and `||` leaves it out as long as there is a truth value elsewhere. Hence the order of the operands of
`||` matters for no more than which error is reported (`disjunction_perm`).
-/

namespace SearchSpace.Expr

/-- An expression joins a list of operands, in this order and in some grouping, by an operator. -/
inductive Joins {ν : Type} (op : BinaryOp) : List (Expr ν) → Expr ν → Prop
  | operand (e : Expr ν) : Joins op [e] e
  | join {es es' : List (Expr ν)} {left right : Expr ν} :
      Joins op es left → Joins op es' right → Joins op (es ++ es') (binary op left right)

/-! ## Outcomes of operands -/

/-- The error of an operand: that of its evaluation, or that it is no truth value. -/
def error? : Except Error Value → Option Error
  | .error e => some e
  | .ok (.bool _) => none
  | .ok v => some (.invalidValue (.notBoolean v))

/-- The truth value of an operand. -/
def truth? : Except Error Value → Option Bool
  | .ok (.bool t) => some t
  | _ => none

/-- The error of an operand, unless this is just that it is inactive. -/
def fault? (x : Except Error Value) : Option Error :=
  (error? x).filter fun e => !e.isInactive

/-- The outcome of operands that are joined by `||`. The first fault decides. Otherwise it is whether
an operand is true, and if no operand has a truth value, it is the outcome of the first one. -/
def disjunction (operands : List (Except Error Value)) : Except Error Value :=
  match operands.findSome? fault? with
  | some e => .error e
  | none =>
    if operands.filterMap truth? = [] then operands.headD (.ok (.bool false))
    else .ok (.bool ((operands.filterMap truth?).any id))

/-- The outcome of operands that are joined by `&&`. The first error decides. Otherwise it is whether
all operands are true. -/
def conjunction (operands : List (Except Error Value)) : Except Error Value :=
  match operands.findSome? error? with
  | some e => .error e
  | none => .ok (.bool ((operands.filterMap truth?).all id))

section Outcomes

variable {xs ys : List (Except Error Value)} {x : Except Error Value} {e : Error}

/-- The error of an operand that fails. -/
@[simp] theorem error?_error (e : Error) : error? (.error e) = some e :=
  rfl

/-- A truth value is no error. -/
@[simp] theorem error?_bool (t : Bool) : error? (.ok (.bool t)) = none :=
  rfl

/-- A truth value is no fault. -/
@[simp] theorem fault?_bool (t : Bool) : fault? (.ok (.bool t)) = none :=
  rfl

/-- To be inactive is no fault. -/
@[simp] theorem fault?_inactive (name : String) : fault? (.error (.inactiveParameter name)) = none :=
  rfl

/-- The truth value of an operand that has one. -/
@[simp] theorem truth?_bool (t : Bool) : truth? (.ok (.bool t)) = some t :=
  rfl

/-- An operand that fails has no truth value. -/
@[simp] theorem truth?_error (e : Error) : truth? (.error e) = none :=
  rfl

/-- What an operand without an error is. -/
theorem truth_of_error? (h : error? x = none) : ∃ t, x = .ok (.bool t) := by
  cases x with
  | error e => cases h
  | ok v =>
    cases v with
    | bool t => exact ⟨t, rfl⟩
    | _ => cases h

/-- What an operand without a fault is. -/
theorem truth_or_inactive (h : fault? x = none) :
    (∃ t, x = .ok (.bool t)) ∨ ∃ name, x = .error (.inactiveParameter name) := by
  cases x with
  | error e =>
    cases e with
    | inactiveParameter name => exact .inr ⟨name, rfl⟩
    | _ => cases h
  | ok v =>
    cases v with
    | bool t => exact .inl ⟨t, rfl⟩
    | _ => cases h

/-- The error of an operand stops `&&`. -/
theorem expectBool_of_error? (h : error? x = some e) : x >>= expectBool = .error e := by
  cases x with
  | error e' =>
    cases h
    rfl
  | ok v => cases v <;> cases h <;> rfl

/-- The fault of an operand stops `||`. -/
theorem orSide_of_fault? (h : fault? x = some e) : orSide x = .error e := by
  cases x with
  | error e' => cases e' <;> cases h <;> rfl
  | ok v => cases v <;> cases h <;> rfl

/-- A fault of operands is more than that one of them is inactive. -/
theorem isInactive_of_findSome? (h : xs.findSome? fault? = some e) : e.isInactive = false := by
  obtain ⟨x, -, hx⟩ := List.exists_of_findSome?_eq_some h
  rw [fault?, Option.filter_eq_some_iff, Bool.not_eq_true'] at hx
  exact hx.2

/-! ## Disjunctions -/

/-- A fault decides a disjunction. -/
theorem disjunction_of_fault (h : xs.findSome? fault? = some e) : disjunction xs = .error e := by
  rw [disjunction, h]

/-- Without a fault the truth values decide a disjunction, and without these the first operand. -/
theorem disjunction_of_none (h : xs.findSome? fault? = none) :
    disjunction xs = if xs.filterMap truth? = [] then xs.headD (.ok (.bool false))
      else .ok (.bool ((xs.filterMap truth?).any id)) := by
  rw [disjunction, h]

/-- The operator `||` forms the disjunction of its operands. -/
theorem evalOr_eq (x y : Except Error Value) : evalOr x y = disjunction [x, y] := by
  cases hx : fault? x with
  | some e =>
    have hfirst : [x, y].findSome? fault? = some e := by rw [List.findSome?_cons, hx]
    rw [disjunction_of_fault hfirst, evalOr, orSide_of_fault? hx]
    rfl
  | none =>
    have hx' := truth_or_inactive hx
    cases hy : fault? y with
    | some e =>
      have hfirst : [x, y].findSome? fault? = some e := by simp only [List.findSome?_cons, hx, hy]
      rw [disjunction_of_fault hfirst, evalOr, orSide_of_fault? hy]
      rcases hx' with ⟨t, rfl⟩ | ⟨name, rfl⟩ <;> rfl
    | none =>
      rcases hx' with ⟨_ | _, rfl⟩ | ⟨name, rfl⟩ <;>
        rcases truth_or_inactive hy with ⟨_ | _, rfl⟩ | ⟨name', rfl⟩ <;> rfl

/-- A disjunction does not change when two neighbours are replaced by theirs. -/
theorem disjunction_pair (xs ys : List (Except Error Value)) (x y : Except Error Value) :
    disjunction (xs ++ disjunction [x, y] :: ys) = disjunction (xs ++ ([x, y] ++ ys)) := by
  cases hfault : [x, y].findSome? fault? with
  | some e =>
    -- the fault of the two comes after those before them
    have herror : fault? (.error e) = some e := by
      rw [fault?, error?_error, Option.filter_some, isInactive_of_findSome? hfault]
      rfl
    have hfirst : (.error e :: ys).findSome? fault? = some e := by rw [List.findSome?_cons, herror]
    rw [disjunction_of_fault hfault]
    simp only [disjunction, List.findSome?_append, hfirst, hfault, Option.some_or]
    cases xs.findSome? fault? <;> rfl
  | none =>
    have hnone := List.findSome?_eq_none_iff.1 hfault
    have hx := truth_or_inactive (hnone x List.mem_cons_self)
    have hy := truth_or_inactive (hnone y (List.mem_cons_of_mem x List.mem_cons_self))
    rcases hx with ⟨t, rfl⟩ | ⟨name, rfl⟩ <;> rcases hy with ⟨t', rfl⟩ | ⟨name', rfl⟩
    · have hpair : disjunction [.ok (.bool t), .ok (.bool t')] = .ok (.bool (t || t')) := by
        cases t <;> cases t' <;> rfl
      rw [hpair]
      simp [disjunction, List.findSome?_cons, Bool.or_assoc]
    · have hpair : disjunction [.ok (.bool t), .error (.inactiveParameter name')] =
          .ok (.bool t) := by
        cases t <;> rfl
      rw [hpair]
      simp [disjunction, List.findSome?_cons]
    · have hpair : disjunction [.error (.inactiveParameter name), .ok (.bool t')] =
          .ok (.bool t') := by
        cases t' <;> rfl
      rw [hpair]
      simp [disjunction, List.findSome?_cons]
    · have hpair : disjunction [.error (.inactiveParameter name), .error (.inactiveParameter name')] =
          .error (.inactiveParameter name) :=
        rfl
      rw [hpair]
      simp [disjunction, List.findSome?_cons]

/-! ## Conjunctions -/

/-- An error decides a conjunction. -/
theorem conjunction_of_error (h : xs.findSome? error? = some e) : conjunction xs = .error e := by
  rw [conjunction, h]

/-- The operator `&&` forms the conjunction of its operands. -/
theorem eval_and_eq {b : Binding} {left right : Expr Parameter} :
    (binary .and left right).eval b = conjunction [left.eval b, right.eval b] := by
  have heval : (binary .and left right).eval b = (do
      let l ← left.eval b >>= expectBool
      let r ← right.eval b >>= expectBool
      pure (.bool (l && r))) := by
    simp only [eval, bind_assoc]
  rw [heval]
  cases hleft : error? (left.eval b) with
  | some e =>
    have hfirst : [left.eval b, right.eval b].findSome? error? = some e := by
      rw [List.findSome?_cons, hleft]
    rw [conjunction_of_error hfirst, expectBool_of_error? hleft]
    rfl
  | none =>
    obtain ⟨t, ht⟩ := truth_of_error? hleft
    cases hright : error? (right.eval b) with
    | some e =>
      have hfirst : [left.eval b, right.eval b].findSome? error? = some e := by
        simp only [List.findSome?_cons, hleft, hright]
      rw [conjunction_of_error hfirst, expectBool_of_error? hright, ht]
      rfl
    | none =>
      obtain ⟨t', ht'⟩ := truth_of_error? hright
      rw [ht, ht']
      cases t <;> cases t' <;> rfl

/-- A conjunction does not change when two neighbours are replaced by theirs. -/
theorem conjunction_pair (xs ys : List (Except Error Value)) (x y : Except Error Value) :
    conjunction (xs ++ conjunction [x, y] :: ys) = conjunction (xs ++ ([x, y] ++ ys)) := by
  cases herror : [x, y].findSome? error? with
  | some e =>
    have hfirst : (.error e :: ys).findSome? error? = some e := by
      rw [List.findSome?_cons, error?_error]
    rw [conjunction_of_error herror]
    simp only [conjunction, List.findSome?_append, hfirst, herror, Option.some_or]
    cases xs.findSome? error? <;> rfl
  | none =>
    have hnone := List.findSome?_eq_none_iff.1 herror
    have hx := truth_of_error? (hnone x List.mem_cons_self)
    have hy := truth_of_error? (hnone y (List.mem_cons_of_mem x List.mem_cons_self))
    obtain ⟨t, rfl⟩ := hx
    obtain ⟨t', rfl⟩ := hy
    have hpair : conjunction [.ok (.bool t), .ok (.bool t')] = .ok (.bool (t && t')) := by
      cases t <;> cases t' <;> rfl
    rw [hpair]
    simp [conjunction, List.findSome?_cons, Bool.and_assoc]

/-! ## The order of operands -/

/-- Without a fault and a truth value the disjunction of some operands is inactive. -/
theorem mapError_headD (hfault : xs.findSome? fault? = none) (htruth : xs.filterMap truth? = [])
    (hne : xs ≠ []) (d : Except Error Value) :
    (xs.headD d).mapError Error.isInactive = .error true := by
  cases xs with
  | nil => exact absurd rfl hne
  | cons x xs =>
    have hx : fault? x = none := List.findSome?_eq_none_iff.1 hfault x List.mem_cons_self
    have hx' : truth? x = none := List.filterMap_eq_nil_iff.1 htruth x List.mem_cons_self
    rcases truth_or_inactive hx with ⟨t, rfl⟩ | ⟨name, rfl⟩
    · cases hx'
    · rfl

/-- The operands of `||` in another order have the same disjunction, but for which error it is where
it is more than that the operands are inactive. -/
theorem disjunction_perm (h : xs.Perm ys) :
    (disjunction xs).mapError Error.isInactive = (disjunction ys).mapError Error.isInactive := by
  cases hfault : xs.findSome? fault? with
  | some e =>
    obtain ⟨x, hx, hxe⟩ := List.exists_of_findSome?_eq_some hfault
    have hsome : (ys.findSome? fault?).isSome = true :=
      List.findSome?_isSome_iff.2 ⟨x, h.mem_iff.1 hx, by rw [hxe]; rfl⟩
    obtain ⟨e', hfault'⟩ := Option.isSome_iff_exists.1 hsome
    rw [disjunction_of_fault hfault, disjunction_of_fault hfault', mapError_error, mapError_error,
      isInactive_of_findSome? hfault, isInactive_of_findSome? hfault']
  | none =>
    have hnone : ∀ x ∈ xs, fault? x = none := List.findSome?_eq_none_iff.1 hfault
    have hfault' : ys.findSome? fault? = none :=
      List.findSome?_eq_none_iff.2 fun y hy => hnone y (h.mem_iff.2 hy)
    have htruths := h.filterMap truth?
    rw [disjunction_of_none hfault, disjunction_of_none hfault']
    by_cases hempty : xs.filterMap truth? = []
    · have hempty' : ys.filterMap truth? = [] := by rwa [hempty, List.nil_perm] at htruths
      rw [if_pos hempty, if_pos hempty']
      by_cases hnil : xs = []
      · rw [hnil, List.nil_perm] at h
        rw [hnil, h]
      · have hnil' : ys ≠ [] := fun hys => hnil (List.perm_nil.1 (hys ▸ h))
        rw [mapError_headD hfault hempty hnil, mapError_headD hfault' hempty' hnil']
    · have hempty' : ys.filterMap truth? ≠ [] := fun hys => hempty (List.perm_nil.1 (hys ▸ htruths))
      rw [if_neg hempty, if_neg hempty', htruths.any_eq]

end Outcomes

/-! ## Groupings -/

section Groupings

variable {b : Binding} {op : BinaryOp} {f : List (Except Error Value) → Except Error Value}
  {es : List (Expr Parameter)} {e : Expr Parameter}
  (hop : ∀ left right, (binary op left right).eval b = f [left.eval b, right.eval b])
  (hpair : ∀ xs ys x y, f (xs ++ f [x, y] :: ys) = f (xs ++ ([x, y] ++ ys)))

include hop hpair

/-- Where an operator forms a function of the outcomes of its operands, and this does not change when
it is taken of two neighbours first, it does not change either when operands are joined. -/
theorem Joins.eval_eq (h : Joins op es e) (xs ys : List (Except Error Value)) :
    f (xs ++ e.eval b :: ys) = f (xs ++ es.map (eval b) ++ ys) := by
  induction h generalizing xs ys with
  | operand e => rw [List.map_singleton, List.append_assoc, List.singleton_append]
  | @join es es' left right hleft hright ihleft ihright =>
    calc f (xs ++ (binary op left right).eval b :: ys)
        = f (xs ++ ([left.eval b, right.eval b] ++ ys)) := by rw [hop, hpair]
      _ = f (xs ++ es.map (eval b) ++ right.eval b :: ys) := ihleft xs (right.eval b :: ys)
      _ = f (xs ++ es.map (eval b) ++ es'.map (eval b) ++ ys) := ihright (xs ++ es.map (eval b)) ys
      _ = f (xs ++ (es ++ es').map (eval b) ++ ys) := by
        rw [List.map_append, List.append_assoc xs]

/-- An expression that joins operands is the only one, or evaluates to a function of the outcomes. -/
theorem Joins.eq_or_eval_eq (h : Joins op es e) : es = [e] ∨ e.eval b = f (es.map (eval b)) := by
  cases h with
  | operand e => exact .inl rfl
  | @join es es' left right hleft hright =>
    right
    calc (binary op left right).eval b
        = f ([] ++ left.eval b :: [right.eval b]) := hop left right
      _ = f ([] ++ es.map (eval b) ++ [right.eval b]) := hleft.eval_eq hop hpair [] _
      _ = f (es.map (eval b) ++ es'.map (eval b) ++ []) := hright.eval_eq hop hpair _ []
      _ = f ((es ++ es').map (eval b)) := by rw [List.append_nil, List.map_append]

end Groupings

/-- There is an operand. -/
theorem Joins.length_pos {ν : Type} {op : BinaryOp} {es : List (Expr ν)} {e : Expr ν}
    (h : Joins op es e) : 0 < es.length := by
  induction h with
  | operand e => exact Nat.one_pos
  | join hleft hright ihleft ihright =>
    rw [List.length_append]
    omega

/-- An expression that joins one operand is this operand. -/
theorem Joins.eq_of_length {ν : Type} {op : BinaryOp} {es : List (Expr ν)} {e : Expr ν}
    (h : Joins op es e) (hone : es.length = 1) : es = [e] := by
  cases h with
  | operand e => rfl
  | join hleft hright =>
    have hpos := hleft.length_pos
    have hpos' := hright.length_pos
    rw [List.length_append] at hone
    omega

/-- Whatever the grouping, operands that are joined by `||` evaluate to their disjunction, and by `&&`
to their conjunction, unless there is one operand only. Operands that are joined by `||` in another
order evaluate to the same truth value, or are inactive too, or have a fault too. -/
theorem eval_joins (b : Binding) (es : List (Expr Parameter)) :
    (∀ e, Joins .or es e → es = [e] ∨ e.eval b = disjunction (es.map (eval b))) ∧
      (∀ e, Joins .and es e → es = [e] ∨ e.eval b = conjunction (es.map (eval b))) ∧
      ∀ es' e e', es.Perm es' → Joins .or es e → Joins .or es' e' →
        (e.eval b).mapError Error.isInactive = (e'.eval b).mapError Error.isInactive := by
  have hor : ∀ left right, (binary .or left right).eval b = disjunction [left.eval b, right.eval b] :=
    fun left right => evalOr_eq (left.eval b) (right.eval b)
  refine ⟨fun e h => h.eq_or_eval_eq hor disjunction_pair,
    fun e h => h.eq_or_eval_eq (fun _ _ => eval_and_eq) conjunction_pair, ?_⟩
  intro es' e e' hperm h h'
  by_cases hone : es.length = 1
  · have heq := h.eq_of_length hone
    have heq' := h'.eq_of_length (hperm.length_eq ▸ hone)
    rw [heq, heq', List.singleton_perm_singleton] at hperm
    rw [hperm]
  · have hne : es ≠ [e] := fun heq => hone (by rw [heq]; rfl)
    have hne' : es' ≠ [e'] := fun heq => hone (by rw [hperm.length_eq, heq]; rfl)
    rw [(h.eq_or_eval_eq hor disjunction_pair).resolve_left hne,
      (h'.eq_or_eval_eq hor disjunction_pair).resolve_left hne']
    exact disjunction_perm (hperm.map (eval b))

/-- A parameter with truth values. -/
def idle : Parameter :=
  ⟨0, ⟨"idle", by decide⟩, .categorical ⟨[.bool false, .bool true], by decide⟩, .bool false,
    by decide⟩

/-- A binding in which the parameter is inactive. -/
def idling : Binding :=
  ⟨⟨[idle], by decide⟩, [.inactive]⟩

/-- A number between an inactive operand and a true one is a fault in each grouping. -/
theorem eval_joins_idling :
    (binary .or (binary .or (var idle) (literal (.int 3))) (literal (.bool true))).eval idling =
        .error (.invalidValue (.notBoolean (.int 3))) ∧
      (binary .or (var idle) (binary .or (literal (.int 3)) (literal (.bool true)))).eval idling =
        .error (.invalidValue (.notBoolean (.int 3))) := by
  have hjoins := (eval_joins idling [var idle, literal (.int 3), literal (.bool true)]).1
  constructor
  · refine (hjoins _ (.join (.join (.operand _) (.operand _)) (.operand _))).elim ?_ fun h => ?_
    · intro h
      cases h
    · exact h
  · refine (hjoins _ (.join (.operand _) (.join (.operand _) (.operand _)))).elim ?_ fun h => ?_
    · intro h
      cases h
    · exact h

end SearchSpace.Expr
