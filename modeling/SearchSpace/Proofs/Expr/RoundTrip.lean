import SearchSpace.Expr.Check
import SearchSpace.Proofs.Assignment.Representation
import SearchSpace.Proofs.Expr.Made
import SearchSpace.Proofs.Expr.Printing
import SearchSpace.Proofs.Outcome

/-!
# Texts read back

An expression that the constructors make and that can be used in a scope is read back from its text
in that scope (`read_text`). Its text denotes it with names for its parameters, and looking the
names up and making the nodes anew gives the same tree (`resolve_rename`).
-/

namespace SearchSpace

/-! ## Names in a scope -/

/-- A parameter that nothing is wrong with has another name than those before it. -/
theorem Scope.firstFault?_cons {before ps : List Parameter} {p : Parameter}
    (h : firstFault? before (p :: ps) = none) :
    firstFault? (p :: before) ps = none ∧ ∀ q ∈ before, q.name.text ≠ p.name.text := by
  rw [firstFault?] at h
  split at h
  · cases h
  · split at h
    · cases h
    · next hname =>
      refine ⟨h, fun q hq htext => hname (List.any_eq_true.2 ⟨q, hq, beq_iff_eq.2 ?_⟩)⟩
      cases hp : p.name
      cases hq : q.name
      rw [hp, hq] at htext
      cases htext
      rfl

/-- The names of the parameters that come later differ from those before. -/
theorem Scope.name_ne_of_firstFault? {before ps : List Parameter}
    (h : firstFault? before ps = none) {p q : Parameter} (hp : p ∈ before) (hq : q ∈ ps) :
    p.name.text ≠ q.name.text := by
  induction ps generalizing before with
  | nil => cases hq
  | cons r ps ih =>
    obtain ⟨hrest, hnames⟩ := firstFault?_cons h
    rcases List.mem_cons.1 hq with rfl | hq
    · exact hnames p hp
    · exact ih hrest (List.mem_cons_of_mem r hp) hq

/-- Where nothing is wrong, a parameter is found by its name. -/
theorem Scope.find?_of_firstFault? {before ps : List Parameter}
    (h : firstFault? before ps = none) {p : Parameter} (hp : p ∈ ps) :
    ps.find? (·.name.text == p.name.text) = some p := by
  induction ps generalizing before with
  | nil => cases hp
  | cons r ps ih =>
    obtain ⟨hrest, -⟩ := firstFault?_cons h
    rcases List.mem_cons.1 hp with rfl | hp
    · exact List.find?_cons_of_pos (beq_self_eq_true _)
    · have hne := name_ne_of_firstFault? hrest List.mem_cons_self hp
      rw [List.find?_cons_of_neg (by rw [beq_iff_eq]; exact hne)]
      exact ih hrest hp

/-- A parameter of a scope is found by its name. -/
theorem Scope.find?_of_mem {s : Scope} {p : Parameter} (h : p ∈ s.parameters) :
    s.find? p.name.text = some p :=
  find?_of_firstFault? s.valid h

namespace Expr

variable {ν μ : Type}

/-! ## Names looked up anew -/

/-- The variables of an item are variables of the list. -/
theorem vars_subset_varsAll {e : Expr ν} {es : List (Expr ν)} (h : e ∈ es) :
    e.vars ⊆ varsAll es := by
  induction es with
  | nil => cases h
  | cons e' es ih =>
    rw [varsAll]
    rcases List.mem_cons.1 h with rfl | h
    · exact List.subset_append_left _ _
    · exact fun x hx => List.mem_append_right _ (ih h hx)

/-- Trees that are resolved one by one are resolved as a list. -/
theorem resolveAll_renameAll {f : ν → μ} {find : μ → Except Error ν} {es : List (Expr ν)}
    (h : ∀ e ∈ es, (e.rename f).resolve find = .ok e) :
    resolveAll find (renameAll f es) = .ok es := by
  induction es with
  | nil => rfl
  | cons e es ih =>
    obtain ⟨he, hes⟩ := List.forall_mem_cons.1 h
    rw [renameAll, resolveAll, he, ih hes]
    rfl

/-- A tree that the constructors make is made again when its names are looked up. -/
theorem resolve_rename {f : ν → μ} {find : μ → Except Error ν} {e : Expr ν} (h : e.Made)
    (hfind : ∀ x ∈ e.vars, find (f x) = .ok x) : (e.rename f).resolve find = .ok e := by
  induction h with
  | literal v => rfl
  | var x =>
    rw [rename, resolve, hfind x (List.mem_singleton_self x)]
    rfl
  | binary _ _ hmade ihl ihr =>
    cases (ofBinary_eq_ok.1 hmade).1
    rw [rename, resolve, ihl fun x hx => hfind x (List.mem_append_left _ hx),
      ihr fun x hx => hfind x (List.mem_append_right _ hx)]
    exact hmade
  | unary _ hmade ih =>
    cases (ofUnary_eq_ok.1 hmade).1
    rw [rename, resolve, ih hfind]
    exact hmade
  | list _ hmade ih =>
    cases (ofList_eq_ok.1 hmade).1
    rw [rename, resolve, resolveAll_renameAll fun e he =>
      ih e he fun x hx => hfind x (vars_subset_varsAll he hx)]
    exact hmade

/-! ## Trees that can be used -/

/-- A literal that can be used can be written, unless it stands for an object. -/
theorem isWritable_of_checkNode {scope : Scope} {v : Value}
    (h : checkNode scope (literal v) = .ok ()) (hobject : v.type ≠ .object) : v.IsWritable := by
  cases v with
  | object key => exact hobject rfl
  | inactive => cases h
  | float x =>
    rw [checkNode] at h
    split at h
    · next hfinite => exact hfinite
    · cases h
  | _ => trivial

/-- A variable that can be used is a parameter of the scope. -/
theorem isSome_of_checkNode {scope : Scope} {p : Parameter}
    (h : checkNode scope (var p) = .ok ()) : (scope.indexOf? p).isSome = true := by
  rw [checkNode] at h
  split at h
  · cases h
  · next hsome => rwa [Option.isNone_iff_eq_none, ← ne_eq, Option.ne_none_iff_isSome] at hsome

/-- A tree has only parameters of a scope, and no literals that cannot be written but objects. -/
structure Usable (scope : Scope) (vars : List Parameter) (literals : List Value) : Prop where
  vars : ∀ p ∈ vars, (scope.indexOf? p).isSome = true
  literals : ∀ v ∈ literals, v.type ≠ .object → v.IsWritable

/-- Two trees together. -/
theorem Usable.append {scope : Scope} {vars vars' : List Parameter} {values values' : List Value}
    (h : Usable scope vars values) (h' : Usable scope vars' values') :
    Usable scope (vars ++ vars') (values ++ values') := by
  constructor
  · intro p hp
    rcases List.mem_append.1 hp with hp | hp
    · exact h.vars p hp
    · exact h'.vars p hp
  · intro v hv
    rcases List.mem_append.1 hv with hv | hv
    · exact h.literals v hv
    · exact h'.literals v hv

mutual
/-- A tree that passes the check is usable. -/
theorem usable_of_check {scope : Scope} : ∀ (e : Expr Parameter), e.check scope = .ok () →
    Usable scope e.vars e.literals
  | literal v, h => by
    refine ⟨fun q hq => absurd hq List.not_mem_nil, fun w hw => ?_⟩
    rw [List.mem_singleton.1 hw]
    exact isWritable_of_checkNode h
  | var p, h => by
    refine ⟨fun q hq => ?_, fun w hw => absurd hw List.not_mem_nil⟩
    rw [List.mem_singleton.1 hq]
    exact isSome_of_checkNode h
  | binary _ left right, h => by
    obtain ⟨_, -, h⟩ := bind_eq_ok.1 h
    obtain ⟨_, hleft, hright⟩ := bind_eq_ok.1 h
    exact (usable_of_check left hleft).append (usable_of_check right hright)
  | unary _ operand, h => by
    obtain ⟨_, -, h⟩ := bind_eq_ok.1 h
    exact usable_of_check operand h
  | list items, h => by
    obtain ⟨_, -, h⟩ := bind_eq_ok.1 h
    exact usable_of_checkAll items h

/-- Trees that pass the check are usable. -/
theorem usable_of_checkAll {scope : Scope} : ∀ (es : List (Expr Parameter)),
    checkAll scope es = .ok () → Usable scope (varsAll es) (literalsAll es)
  | [], _ => ⟨fun q hq => absurd hq List.not_mem_nil, fun w hw => absurd hw List.not_mem_nil⟩
  | e :: es, h => by
    obtain ⟨_, he, hes⟩ := bind_eq_ok.1 h
    exact (usable_of_check e he).append (usable_of_checkAll es hes)
end

/-! ## Reading a text back -/

/-- A parameter whose identity a scope has is found by its name, if no other has its identity. -/
theorem parameterOf_eq_ok {scope : Scope} {p : Parameter}
    (hidentity : ∀ q ∈ scope.parameters, q.id = p.id → q = p)
    (h : (scope.indexOf? p).isSome = true) : parameterOf scope p.name.text = .ok p := by
  rw [Scope.indexOf?, List.findIdx?_isSome, List.any_eq_true] at h
  obtain ⟨q, hq, hid⟩ := h
  rw [hidentity q hq (eq_of_beq hid)] at hq
  rw [parameterOf, Scope.find?_of_mem hq]

/-- An expression without objects that the constructors make and that can be used in a scope is
read back from its text. The check knows a parameter by its identity, and the text by its name: an
identity must belong to one parameter. -/
theorem read_text {scope : Scope} {e : Expr Parameter} (hmade : e.Made)
    (hobject : ∀ v ∈ e.literals, v.type ≠ .object) (hcheck : e.check scope = .ok ())
    (hidentity : ∀ p ∈ e.vars, ∀ q ∈ scope.parameters, q.id = p.id → q = p) :
    read scope e.text = .ok e := by
  obtain ⟨hvars, hliterals⟩ := usable_of_check e hcheck
  have hprinted := printed e fun v hv => hliterals v hv (hobject v hv)
  have htext : ofText e.text = some (e.rename (·.name.text)) :=
    ofText_of_writes (hprinted.level 0 (Nat.zero_le _))
  rw [read, htext]
  exact resolve_rename hmade fun p hp => parameterOf_eq_ok (hidentity p hp) (hvars p hp)

/-- The scope of two ranges. -/
def ranges : Scope :=
  ⟨Assignment.twoRanges, by decide⟩

/-- A condition with a difference on the right of another one, signs before numbers, a list, and a
text with a quotation mark. -/
def condition : Expr Parameter :=
  .binary .and
    (.binary .less
      (.binary .subtract (.var Assignment.width)
        (.binary .subtract (.var Assignment.depth) (.literal (.int (-3)))))
      (.unary .negative (.literal (.float (.ofFloat (.ofBits 0x3FB999999999999A))))))
    (.binary .member (.unary .negative (.var Assignment.depth))
      (.list [.literal (.int 4), .literal (.string "a\"b")]))

/-- The constructors make the condition. -/
theorem made_condition : condition.Made := by
  have hdifference := @Made.binary _ .subtract _ _ _ (.var Assignment.width)
    (@Made.binary _ .subtract _ _ _ (.var Assignment.depth) (.literal (.int (-3))) rfl) rfl
  have hless := @Made.binary _ .less _ _ _ hdifference
    (@Made.unary _ .negative _ _ (.literal (.float (.ofFloat (.ofBits 0x3FB999999999999A)))) rfl)
    rfl
  have hlist : (list [literal (.int 4), literal (.string "a\"b")] : Expr Parameter).Made := by
    refine @Made.list _ [literal (.int 4), literal (.string "a\"b")] _ (fun item hitem => ?_) rfl
    rcases List.mem_pair.1 hitem with rfl | rfl <;> exact .literal _
  have hmember := @Made.binary _ .member _ _ _
    (@Made.unary _ .negative _ _ (.var Assignment.depth) rfl) hlist rfl
  exact @Made.binary _ .and _ _ _ hless hmember rfl

/-- The text of the condition, from which the condition is read. -/
theorem read_text_condition :
    condition.Made ∧ (∀ v ∈ condition.literals, v.type ≠ .object) ∧
      condition.check ranges = .ok () ∧
      (∀ p ∈ condition.vars, ∀ q ∈ ranges.parameters, q.id = p.id → q = p) ∧
      condition.text = "width - (depth - -3) < -(0.1) && -depth # [4, \"a\\\"b\"]" ∧
      read ranges condition.text = .ok condition := by
  have hobject : ∀ v ∈ condition.literals, v.type ≠ .object := by decide
  have hcheck : condition.check ranges = .ok () := rfl
  have hidentity : ∀ p ∈ condition.vars, ∀ q ∈ ranges.parameters, q.id = p.id → q = p := by
    intro p hp q hq hid
    have hvar : p = Assignment.width ∨ p = Assignment.depth := by
      simpa [condition, vars, varsAll] using hp
    rcases hvar with rfl | rfl <;> rcases List.mem_pair.1 hq with rfl | rfl
    · rfl
    · cases hid
    · cases hid
    · rfl
  exact ⟨made_condition, hobject, hcheck, hidentity, by decide +kernel,
    read_text made_condition hobject hcheck hidentity⟩

end Expr

end SearchSpace
