import SearchSpace.Expr.Basic

/-!
# Trees that the constructors make

`Made e` says that an expression is made node by node by constructors that refuse misplaced lists.
They make the trees in which, at every node, a list stands on the right of `#` only and `#` has one
there (`made_iff`).
-/

namespace SearchSpace.Expr

variable {ν : Type}

/-! ## Lists and their places -/

mutual
/-- An expression and those inside it. -/
def subtrees : Expr ν → List (Expr ν)
  | literal v => [literal v]
  | var x => [var x]
  | binary op left right => binary op left right :: (left.subtrees ++ right.subtrees)
  | unary op operand => unary op operand :: operand.subtrees
  | list items => list items :: subtreesAll items

/-- Some expressions and those inside them. -/
def subtreesAll : List (Expr ν) → List (Expr ν)
  | [] => []
  | e :: es => e.subtrees ++ subtreesAll es
end

/-- No child of a node is a list, except the right operand of `#`. -/
def PlacesLists : Expr ν → Prop
  | literal _ | var _ => True
  | binary op left right => left.isList = false ∧ (right.isList = true → op = .member)
  | unary _ operand => operand.isList = false
  | list items => ∀ item ∈ items, item.isList = false

/-- The right operand of `#` is a list. -/
def HasMembers : Expr ν → Prop
  | binary op _ right => op = .member → right.isList = true
  | _ => True

/-- Of two operands a node is made just if only `#` has a list, and has it on its right. -/
theorem ofBinary_eq_ok {op : BinaryOp} {left right e : Expr ν} :
    ofBinary op left right = .ok e ↔ e = binary op left right ∧
      (binary op left right).PlacesLists ∧ (binary op left right).HasMembers := by
  rw [@eq_comm _ e, ofBinary, PlacesLists, HasMembers]
  cases left.isList <;> cases right.isList <;> by_cases hop : op = .member <;> simp [hop]

/-- Of one operand a node is made just if this is no list. -/
theorem ofUnary_eq_ok {op : UnaryOp} {operand e : Expr ν} :
    ofUnary op operand = .ok e ↔ e = unary op operand ∧ (unary op operand).PlacesLists := by
  rw [@eq_comm _ e, ofUnary, PlacesLists]
  cases operand.isList <;> simp

/-- Of items a list is made just if none is a list. -/
theorem ofList_eq_ok {items : List (Expr ν)} {e : Expr ν} :
    ofList items = .ok e ↔ e = list items ∧ (list items).PlacesLists := by
  rw [@eq_comm _ e, ofList, PlacesLists]
  split
  · next h => simpa using fun _ => List.any_eq_true.1 h
  · next h => simpa using fun _ : list items = e => List.any_eq_false.1 (Bool.eq_false_iff.2 h)

/-! ## What the constructors make -/

/-- An expression that the constructors make, which refuse misplaced lists. -/
inductive Made : Expr ν → Prop where
  | literal (v : Value) : Made (literal v)
  | var (x : ν) : Made (var x)
  | binary {op : BinaryOp} {left right e : Expr ν} :
    Made left → Made right → ofBinary op left right = .ok e → Made e
  | unary {op : UnaryOp} {operand e : Expr ν} :
    Made operand → ofUnary op operand = .ok e → Made e
  | list {items : List (Expr ν)} {e : Expr ν} :
    (∀ item ∈ items, Made item) → ofList items = .ok e → Made e

/-- The trees inside a list are those inside its items. -/
theorem exists_of_mem_subtreesAll {x : Expr ν} {es : List (Expr ν)} (h : x ∈ subtreesAll es) :
    ∃ e ∈ es, x ∈ e.subtrees := by
  induction es with
  | nil => cases h
  | cons e es ih =>
    rw [subtreesAll] at h
    rcases List.mem_append.1 h with h | h
    · exact ⟨e, List.mem_cons_self, h⟩
    · obtain ⟨e', he', hx⟩ := ih h
      exact ⟨e', List.mem_cons_of_mem e he', hx⟩

/-- In a tree that the constructors make, every list has its place and every `#` its list. -/
theorem Made.places {e : Expr ν} (h : e.Made) :
    ∀ node ∈ e.subtrees, node.PlacesLists ∧ node.HasMembers := by
  induction h with
  | literal v | var x =>
    intro node hnode
    rw [List.mem_singleton.1 hnode]
    exact ⟨trivial, trivial⟩
  | binary _ _ hmade ihl ihr =>
    obtain ⟨rfl, hnode⟩ := ofBinary_eq_ok.1 hmade
    rw [subtrees, List.forall_mem_cons, List.forall_mem_append]
    exact ⟨hnode, ihl, ihr⟩
  | unary _ hmade ih =>
    obtain ⟨rfl, hnode⟩ := ofUnary_eq_ok.1 hmade
    rw [subtrees, List.forall_mem_cons]
    exact ⟨⟨hnode, trivial⟩, ih⟩
  | list _ hmade ih =>
    obtain ⟨rfl, hnode⟩ := ofList_eq_ok.1 hmade
    rw [subtrees, List.forall_mem_cons]
    refine ⟨⟨hnode, trivial⟩, fun node hnode => ?_⟩
    obtain ⟨item, hitem, hnode⟩ := exists_of_mem_subtreesAll hnode
    exact ih item hitem node hnode

mutual
/-- A tree in which every list has its place and every `#` its list is made by the constructors. -/
theorem made_of_places : ∀ (e : Expr ν),
    (∀ node ∈ e.subtrees, node.PlacesLists ∧ node.HasMembers) → e.Made
  | literal v, _ => .literal v
  | var x, _ => .var x
  | binary op left right, h => by
    rw [subtrees, List.forall_mem_cons, List.forall_mem_append] at h
    obtain ⟨hnode, hleft, hright⟩ := h
    exact .binary (made_of_places left hleft) (made_of_places right hright)
      (ofBinary_eq_ok.2 ⟨rfl, hnode⟩)
  | unary op operand, h => by
    rw [subtrees, List.forall_mem_cons] at h
    exact .unary (made_of_places operand h.2) (ofUnary_eq_ok.2 ⟨rfl, h.1.1⟩)
  | list items, h => by
    rw [subtrees, List.forall_mem_cons] at h
    exact .list (made_of_placesAll items h.2) (ofList_eq_ok.2 ⟨rfl, h.1.1⟩)

/-- Trees in which every list has its place and every `#` its list are made by the constructors. -/
theorem made_of_placesAll : ∀ (es : List (Expr ν)),
    (∀ node ∈ subtreesAll es, node.PlacesLists ∧ node.HasMembers) → ∀ e ∈ es, e.Made
  | [], _ => fun _ he => absurd he List.not_mem_nil
  | e :: es, h => by
    rw [subtreesAll, List.forall_mem_append] at h
    exact List.forall_mem_cons.2 ⟨made_of_places e h.1, made_of_placesAll es h.2⟩
end

/-- The constructors make the trees in which every list has its place and every `#` its list. -/
theorem made_iff {e : Expr ν} :
    e.Made ↔ ∀ node ∈ e.subtrees, node.PlacesLists ∧ node.HasMembers :=
  ⟨Made.places, made_of_places e⟩

end SearchSpace.Expr
