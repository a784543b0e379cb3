import SearchSpace.Proofs.Expr.RoundTrip

/-!
# Names looked up

`Expr.resolve` replaces names and makes every node anew, so that it refuses what a constructor
refuses. It gives an expression just if this has the names of the given tree, the lookup finds its
variables, and the constructors make it (`resolve_eq_ok`). It gives one whenever the lookup finds the
names and no constructor refuses (`exists_resolve`); all that it says otherwise is that the
expression is invalid (`lands_resolve`).
-/

namespace SearchSpace.Expr

variable {ν μ : Type}

/-! ## What names are resolved to -/

/-- A lookup finds the variables of an expression by their names. -/
def Finds (find : μ → Except Error ν) (f : ν → μ) (xs : List ν) : Prop :=
  ∀ x ∈ xs, find (f x) = .ok x

mutual
/-- What a tree is resolved to has its names, which are looked up, and is made by the
constructors. -/
theorem resolve_spec {f : ν → μ} {find : μ → Except Error ν}
    (hname : ∀ n x, find n = .ok x → f x = n) : ∀ (t : Expr μ) (e : Expr ν),
    t.resolve find = .ok e → e.rename f = t ∧ Finds find f e.vars ∧ e.Made
  | literal v, e, h => by
    cases h
    exact ⟨rfl, fun _ hx => absurd hx List.not_mem_nil, .literal v⟩
  | var n, e, h => by
    obtain ⟨x, hx, h⟩ := bind_eq_ok.1 h
    cases h
    have hn := hname n x hx
    refine ⟨congrArg var hn, fun y hy => ?_, .var x⟩
    rw [List.mem_singleton.1 hy, hn, hx]
  | binary op left right, e, h => by
    obtain ⟨l, hl, h⟩ := bind_eq_ok.1 h
    obtain ⟨r, hr, h⟩ := bind_eq_ok.1 h
    obtain ⟨heql, hfindl, hmadel⟩ := resolve_spec hname left l hl
    obtain ⟨heqr, hfindr, hmader⟩ := resolve_spec hname right r hr
    obtain rfl := (ofBinary_eq_ok.1 h).1
    refine ⟨?_, List.forall_mem_append.2 ⟨hfindl, hfindr⟩, .binary hmadel hmader h⟩
    rw [rename, heql, heqr]
  | unary op operand, e, h => by
    obtain ⟨o, ho, h⟩ := bind_eq_ok.1 h
    obtain ⟨heq, hfind, hmade⟩ := resolve_spec hname operand o ho
    obtain rfl := (ofUnary_eq_ok.1 h).1
    refine ⟨?_, hfind, .unary hmade h⟩
    rw [rename, heq]
  | list items, e, h => by
    obtain ⟨es, hes, h⟩ := bind_eq_ok.1 h
    obtain ⟨heq, hfind, hmade⟩ := resolveAll_spec hname items es hes
    obtain rfl := (ofList_eq_ok.1 h).1
    refine ⟨?_, hfind, .list hmade h⟩
    rw [rename, heq]

/-- What some trees are resolved to has their names, which are looked up, and is made by the
constructors. -/
theorem resolveAll_spec {f : ν → μ} {find : μ → Except Error ν}
    (hname : ∀ n x, find n = .ok x → f x = n) : ∀ (ts : List (Expr μ)) (es : List (Expr ν)),
    resolveAll find ts = .ok es →
      renameAll f es = ts ∧ Finds find f (varsAll es) ∧ ∀ e ∈ es, e.Made
  | [], es, h => by
    cases h
    exact ⟨rfl, fun _ hx => absurd hx List.not_mem_nil, fun _ he => absurd he List.not_mem_nil⟩
  | t :: ts, es, h => by
    obtain ⟨e, he, h⟩ := bind_eq_ok.1 h
    obtain ⟨es, hes, h⟩ := bind_eq_ok.1 h
    cases h
    obtain ⟨heq, hfind, hmade⟩ := resolve_spec hname t e he
    obtain ⟨heqs, hfinds, hmades⟩ := resolveAll_spec hname ts es hes
    refine ⟨?_, List.forall_mem_append.2 ⟨hfind, hfinds⟩, List.forall_mem_cons.2 ⟨hmade, hmades⟩⟩
    rw [renameAll, heq, heqs]
end

/-- A tree is resolved to the expression with its names that the lookup finds, if the constructors
make it. -/
theorem resolve_eq_ok {f : ν → μ} {find : μ → Except Error ν}
    (hname : ∀ n x, find n = .ok x → f x = n) {t : Expr μ} {e : Expr ν} :
    t.resolve find = .ok e ↔ e.rename f = t ∧ Finds find f e.vars ∧ e.Made := by
  constructor
  · exact resolve_spec hname t e
  · rintro ⟨rfl, hfind, hmade⟩
    exact resolve_rename hmade hfind

mutual
/-- A tree is resolved if the lookup finds its names, every list has its place and every `#` its
list. -/
theorem exists_resolve {find : μ → Except Error ν} : ∀ (t : Expr μ),
    (∀ n ∈ t.vars, ∃ x, find n = .ok x) →
    (∀ node ∈ t.subtrees, node.PlacesLists ∧ node.HasMembers) →
      ∃ e, t.resolve find = .ok e ∧ e.isList = t.isList
  | literal v, _, _ => ⟨literal v, rfl, rfl⟩
  | var n, hfind, _ => by
    obtain ⟨x, hx⟩ := hfind n (List.mem_singleton_self n)
    exact ⟨var x, bind_eq_ok.2 ⟨x, hx, rfl⟩, rfl⟩
  | binary op left right, hfind, hplaces => by
    rw [subtrees, List.forall_mem_cons, List.forall_mem_append] at hplaces
    obtain ⟨⟨hplace, hmembers⟩, hleft, hright⟩ := hplaces
    obtain ⟨hfindl, hfindr⟩ := List.forall_mem_append.1 hfind
    obtain ⟨l, hl, hlist⟩ := exists_resolve left hfindl hleft
    obtain ⟨r, hr, hlist'⟩ := exists_resolve right hfindr hright
    have hnode : ofBinary op l r = .ok (binary op l r) := by
      rw [ofBinary_eq_ok, PlacesLists, HasMembers, hlist, hlist']
      exact ⟨rfl, hplace, hmembers⟩
    exact ⟨binary op l r, bind_eq_ok.2 ⟨l, hl, bind_eq_ok.2 ⟨r, hr, hnode⟩⟩, rfl⟩
  | unary op operand, hfind, hplaces => by
    rw [subtrees, List.forall_mem_cons] at hplaces
    obtain ⟨o, ho, hlist⟩ := exists_resolve operand hfind hplaces.2
    have hnode : ofUnary op o = .ok (unary op o) := by
      rw [ofUnary_eq_ok, PlacesLists, hlist]
      exact ⟨rfl, hplaces.1.1⟩
    exact ⟨unary op o, bind_eq_ok.2 ⟨o, ho, hnode⟩, rfl⟩
  | list items, hfind, hplaces => by
    rw [subtrees, List.forall_mem_cons] at hplaces
    obtain ⟨es, hes, hlists⟩ := exists_resolveAll items hfind hplaces.2
    have hnode : ofList es = .ok (list es) :=
      ofList_eq_ok.2 ⟨rfl, hlists hplaces.1.1⟩
    exact ⟨list es, bind_eq_ok.2 ⟨es, hes, hnode⟩, rfl⟩

/-- Trees are resolved if the lookup finds their names, every list in them has its place and every
`#` its list. -/
theorem exists_resolveAll {find : μ → Except Error ν} : ∀ (ts : List (Expr μ)),
    (∀ n ∈ varsAll ts, ∃ x, find n = .ok x) →
    (∀ node ∈ subtreesAll ts, node.PlacesLists ∧ node.HasMembers) →
      ∃ es, resolveAll find ts = .ok es ∧
        ((∀ t ∈ ts, t.isList = false) → ∀ e ∈ es, e.isList = false)
  | [], _, _ => ⟨[], rfl, fun _ _ he => absurd he List.not_mem_nil⟩
  | t :: ts, hfind, hplaces => by
    rw [subtreesAll, List.forall_mem_append] at hplaces
    obtain ⟨hfindt, hfinds⟩ := List.forall_mem_append.1 hfind
    obtain ⟨e, he, hlist⟩ := exists_resolve t hfindt hplaces.1
    obtain ⟨es, hes, hlists⟩ := exists_resolveAll ts hfinds hplaces.2
    refine ⟨e :: es, bind_eq_ok.2 ⟨e, he, bind_eq_ok.2 ⟨es, hes, rfl⟩⟩, fun hts => ?_⟩
    obtain ⟨ht, hts⟩ := List.forall_mem_cons.1 hts
    exact List.forall_mem_cons.2 ⟨hlist.trans ht, hlists hts⟩
end

/-- What a lookup by name in a scope finds has the name. -/
theorem name_of_parameterOf {scope : Scope} {n : String} {p : Parameter}
    (h : parameterOf scope n = .ok p) : p.name.text = n ∧ p ∈ scope.parameters := by
  rw [parameterOf] at h
  split at h
  · next q hq =>
    cases h
    rw [Scope.find?] at hq
    have htext := List.find?_some hq
    exact ⟨eq_of_beq htext, List.mem_of_find?_eq_some hq⟩
  · cases h

/-- The lookup by name finds the parameters of the scope, and no others. -/
theorem finds_parameterOf {scope : Scope} {ps : List Parameter} :
    Finds (parameterOf scope) (·.name.text) ps ↔ ∀ p ∈ ps, p ∈ scope.parameters := by
  refine forall_congr' fun p => imp_congr_right fun _ => ⟨fun h => (name_of_parameterOf h).2, ?_⟩
  intro hp
  rw [parameterOf, Scope.find?_of_mem hp]

/-- The error of an expression that is not as it must be. -/
def IsInvalidExpression (e : Error) : Prop :=
  ∃ fault, e = .invalidExpression fault

mutual
/-- Where a lookup only says that an expression is invalid, resolving says no more. -/
theorem lands_resolve {find : μ → Except Error ν}
    (hfind : ∀ n, Lands (fun _ => True) IsInvalidExpression (find n)) : ∀ (t : Expr μ),
    Lands (fun _ => True) IsInvalidExpression (t.resolve find)
  | literal _ => trivial
  | var n => (hfind n).bind fun _ _ => trivial
  | binary op left right => by
    refine (lands_resolve hfind left).bind fun l _ => (lands_resolve hfind right).bind fun r _ => ?_
    rw [ofBinary]
    split_ifs
    · exact ⟨_, rfl⟩
    · exact ⟨_, rfl⟩
    · exact ⟨_, rfl⟩
    · trivial
  | unary op operand => by
    refine (lands_resolve hfind operand).bind fun o _ => ?_
    rw [ofUnary]
    split_ifs
    · exact ⟨_, rfl⟩
    · trivial
  | list items => by
    refine (lands_resolveAll hfind items).bind fun es _ => ?_
    rw [ofList]
    split_ifs
    · exact ⟨_, rfl⟩
    · trivial

/-- Where a lookup only says that an expression is invalid, resolving some trees says no more. -/
theorem lands_resolveAll {find : μ → Except Error ν}
    (hfind : ∀ n, Lands (fun _ => True) IsInvalidExpression (find n)) : ∀ (ts : List (Expr μ)),
    Lands (fun _ => True) IsInvalidExpression (resolveAll find ts)
  | [] => trivial
  | t :: ts => (lands_resolve hfind t).bind fun _ _ =>
    (lands_resolveAll hfind ts).bind fun _ _ => trivial
end

/-- Reading a text gives an expression or says that the expression is invalid. -/
theorem lands_read (scope : Scope) (text : String) :
    Lands (fun _ => True) IsInvalidExpression (read scope text) := by
  rw [read]
  split
  · refine lands_resolve (fun n => ?_) _
    rw [parameterOf]
    split
    · trivial
    · exact ⟨_, rfl⟩
  · exact ⟨_, rfl⟩

/-- What is read from a text is made by the constructors. -/
theorem made_of_read {scope : Scope} {text : String} {e : Expr Parameter}
    (h : read scope text = .ok e) : e.Made := by
  rw [read] at h
  split at h
  · exact (resolve_spec (fun _ _ hp => (name_of_parameterOf hp).1) _ e h).2.2
  · cases h

end SearchSpace.Expr
