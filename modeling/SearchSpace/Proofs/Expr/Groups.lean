import SearchSpace.Proofs.Expr.Printing

/-!
# Groups

A group is an operand that is put into parentheses because it would be read differently without
them. `Expr.groups` counts those of an expression, and `Token.groups` the parentheses in some tokens
that can stand for one: not those of a number alone. Tokens denote an expression only if they have
its groups (`groups_le_of_denotes`).
-/

namespace SearchSpace

namespace Token

/-! ## Groups of tokens -/

/-- Whether a number without its sign is all that stands before a closing parenthesis. -/
def closesDigits : List Token → Bool
  | t :: t' :: _ => t.isNumber && t' = .rightParen
  | _ => false

/-- Whether a number is all that stands before a closing parenthesis. -/
def closesNumber : List Token → Bool
  | t :: ts => closesDigits (t :: ts) || (t.binaryOp? = some .subtract && closesDigits ts)
  | [] => false

/-- The number of opening parentheses, but for those of a number alone. -/
def groups : List Token → Nat
  | [] => 0
  | t :: ts => (if t = .leftParen ∧ closesNumber ts = false then 1 else 0) + groups ts

/-- What is no opening parenthesis opens no group. -/
theorem groups_cons {t : Token} (h : t ≠ .leftParen) (ts : List Token) :
    groups (t :: ts) = groups ts := by
  rw [groups, if_neg fun hgroup => h hgroup.1, Nat.zero_add]

/-- Whether a number is closed does not depend on what follows the closing parenthesis. -/
theorem closesNumber_append (ts rest : List Token) :
    closesNumber (ts ++ .rightParen :: rest) = closesNumber (ts ++ [.rightParen]) := by
  rcases ts with _ | ⟨t, _ | ⟨t', _ | ⟨t'', ts⟩⟩⟩
  · cases rest <;> rfl
  · cases rest <;> simp [closesNumber, closesDigits, isNumber]
  · rfl
  · rfl

/-- Tokens in which every parenthesis has its other one. -/
inductive Balanced : List Token → Prop where
  | nil : Balanced []
  | cons {t : Token} {ts : List Token} : t ≠ .leftParen → t ≠ .rightParen → Balanced ts →
    Balanced (t :: ts)
  | parens {ts ts' : List Token} : Balanced ts → Balanced ts' →
    Balanced (.leftParen :: (ts ++ .rightParen :: ts'))

namespace Balanced

variable {t : Token} {ts ts' : List Token}

/-- One token. -/
theorem singleton (hleft : t ≠ .leftParen) (hright : t ≠ .rightParen) : Balanced [t] :=
  .cons hleft hright .nil

/-- Balanced tokens after others. -/
theorem append (h : Balanced ts) (h' : Balanced ts') : Balanced (ts ++ ts') := by
  induction h with
  | nil => exact h'
  | cons hleft hright _ ih => exact .cons hleft hright ih
  | parens h _ _ ih =>
    rw [List.cons_append, List.append_assoc]
    exact .parens h ih

/-- A token that is no parenthesis between balanced ones. -/
theorem between (h : Balanced ts) (hleft : t ≠ .leftParen) (hright : t ≠ .rightParen)
    (h' : Balanced ts') : Balanced (ts ++ t :: ts') :=
  h.append (.cons hleft hright h')

/-- Balanced tokens do not close what they have not opened. -/
theorem head_ne_rightParen (h : Balanced ts) : ∀ t ∈ ts.head?, t ≠ .rightParen := by
  cases h with
  | nil => exact fun _ ht => by cases ht
  | cons _ hright _ =>
    intro t ht
    cases ht
    exact hright
  | parens _ _ =>
    intro t ht
    cases ht
    decide

/-- Balanced tokens do not close a parenthesis after digits. -/
theorem closesDigits_eq_false (h : Balanced ts) : closesDigits ts = false := by
  cases h with
  | nil => rfl
  | @cons t ts _ _ h =>
    cases ts with
    | nil => rfl
    | cons t' ts =>
      have ht' := h.head_ne_rightParen t' rfl
      rw [closesDigits, decide_eq_false ht', Bool.and_false]
  | @parens ts ts' _ _ => cases ts <;> rfl

/-- Balanced tokens do not close a parenthesis after a number. -/
theorem closesNumber_eq_false (h : Balanced ts) : closesNumber ts = false := by
  have hdigits := h.closesDigits_eq_false
  cases h with
  | nil => rfl
  | cons _ _ h => rw [closesNumber, hdigits, h.closesDigits_eq_false, Bool.and_false, Bool.or_false]
  | parens _ _ => rw [closesNumber, hdigits]; rfl

/-- Balanced tokens have their groups for themselves. -/
theorem groups_append (h : Balanced ts) (ts' : List Token) :
    groups (ts ++ ts') = groups ts + groups ts' := by
  induction h generalizing ts' with
  | nil => rw [List.nil_append, groups, Nat.zero_add]
  | cons hleft _ _ ih => rw [List.cons_append, groups_cons hleft, groups_cons hleft, ih]
  | @parens ts ts'' h _ ih ih' =>
    have hright : Token.rightParen ≠ .leftParen := by decide
    rw [List.cons_append, List.append_assoc, List.cons_append, groups, groups, closesNumber_append,
      closesNumber_append ts ts'', ih, ih, groups_cons hright, groups_cons hright, ih']
    omega

/-- A token between balanced ones is none of their groups. -/
theorem groups_between (h : Balanced ts) (ht : t ≠ .leftParen) (ts' : List Token) :
    groups (ts ++ t :: ts') = groups ts + groups ts' := by
  rw [h.groups_append, groups_cons ht]

/-- Parentheses are a group unless they are around a number alone. -/
theorem groups_parens (h : Balanced ts) :
    groups (.leftParen :: (ts ++ [.rightParen])) =
      (if closesNumber (ts ++ [.rightParen]) = false then 1 else 0) + groups ts := by
  rw [groups, h.groups_between (by decide), groups]
  simp

/-- What is longer than a number with its sign is no number. -/
theorem closesNumber_of_length (h : Balanced ts) (hlength : 3 ≤ ts.length) :
    closesNumber (ts ++ [.rightParen]) = false := by
  rcases ts with _ | ⟨t, _ | ⟨t', _ | ⟨t'', ts⟩⟩⟩
  case cons.cons.cons => exact h.closesNumber_eq_false
  all_goals simp at hlength

end Balanced

end Token

namespace Expr

variable {ν μ : Type}

/-! ## Groups of expressions -/

mutual
/-- The number of operands in an expression that must be put into parentheses. -/
def groups : Expr ν → Nat
  | literal _ | var _ => 0
  | binary op left right =>
    (if left.kind.precedence < op.precedence then 1 else 0) + left.groups +
      ((if right.kind.precedence < op.precedence + 1 then 1 else 0) + right.groups)
  | unary _ operand => (if operand.kind.precedence < 7 then 1 else 0) + operand.groups
  | list items => groupsAll items

/-- The number of operands in some expressions that must be put into parentheses. -/
def groupsAll : List (Expr ν) → Nat
  | [] => 0
  | e :: es => e.groups + groupsAll es
end

/-- The groups of an expression where operators must have at least a precedence. -/
def groupsAt (least : Nat) (e : Expr ν) : Nat :=
  (if e.kind.precedence < least then 1 else 0) + e.groups

/-- An expression that binds tightly enough is no group itself. -/
theorem groupsAt_of_le {least : Nat} {e : Expr ν} (h : least ≤ e.kind.precedence) :
    e.groupsAt least = e.groups := by
  rw [groupsAt, if_neg (Nat.not_lt.2 h), Nat.zero_add]

/-- Where operators must have a greater precedence, there are no fewer groups. -/
theorem groupsAt_mono {least least' : Nat} (h : least ≤ least') (e : Expr ν) :
    e.groupsAt least ≤ e.groupsAt least' := by
  rw [groupsAt, groupsAt]
  split_ifs <;> omega

/-- A left operand is put into parentheses where it does not bind tightly enough. -/
theorem leftNeedsParens_iff {op : BinaryOp} {left : Expr ν} :
    leftNeedsParens op left = true ↔ left.kind.precedence < op.precedence :=
  decide_eq_true_iff

/-- A right operand is put into parentheses where it does not bind more tightly. -/
theorem rightNeedsParens_iff {op : BinaryOp} {right : Expr ν} :
    rightNeedsParens op right = true ↔ right.kind.precedence < op.precedence + 1 :=
  decide_eq_true_iff.trans Nat.lt_succ_iff.symm

/-- The operand of an operator is put into parentheses where it does not bind tightly enough, if it
is no number. -/
theorem operandNeedsParens_iff {op : UnaryOp} {operand : Expr ν}
    (h : (decide (op ≠ .not) && operand.isNumber) = false) :
    operandNeedsParens op operand = true ↔ operand.kind.precedence < 7 := by
  rw [operandNeedsParens, h, Bool.false_or, decide_eq_true_eq]
  rfl

/-- The kind of an expression does not depend on the variables. -/
@[simp] theorem kind_rename (f : ν → μ) (e : Expr ν) : (e.rename f).kind = e.kind := by
  cases e <;> rfl

mutual
/-- The groups do not depend on the variables. -/
theorem groups_rename (f : ν → μ) : ∀ e : Expr ν, (e.rename f).groups = e.groups
  | literal _ | var _ => rfl
  | binary op left right => by
    rw [rename, groups, groups, kind_rename, kind_rename, groups_rename f left,
      groups_rename f right]
  | unary op operand => by rw [rename, groups, groups, kind_rename, groups_rename f operand]
  | list items => groupsAll_renameAll f items

/-- The groups of some expressions do not depend on the variables. -/
theorem groupsAll_renameAll (f : ν → μ) : ∀ es : List (Expr ν),
    groupsAll (renameAll f es) = groupsAll es
  | [] => rfl
  | e :: es => by rw [renameAll, groupsAll, groupsAll, groups_rename f e, groupsAll_renameAll f es]
end

/-- The same trees bind equally tightly. -/
theorem precedence_of_same [BEq ν] {e e' : Expr ν} (h : e.same e' = true) :
    e.kind.precedence = e'.kind.precedence := by
  cases e <;> cases e' <;> simp_all [same, kind]

mutual
/-- The same trees have the same number of groups. -/
theorem groups_of_same [BEq ν] : ∀ (e e' : Expr ν), e.same e' = true → e.groups = e'.groups
  | literal v, e', h => by
    cases e' with
    | literal w => rfl
    | var | binary | unary | list => simp [same] at h
  | var x, e', h => by
    cases e' with
    | var y => rfl
    | literal | binary | unary | list => simp [same] at h
  | binary op left right, e', h => by
    cases e' with
    | binary op' left' right' =>
      rw [same, Bool.and_eq_true, Bool.and_eq_true, decide_eq_true_eq] at h
      obtain ⟨⟨rfl, hleft⟩, hright⟩ := h
      rw [groups, groups, precedence_of_same hleft, precedence_of_same hright,
        groups_of_same left left' hleft, groups_of_same right right' hright]
    | literal | var | unary | list => simp [same] at h
  | unary op operand, e', h => by
    cases e' with
    | unary op' operand' =>
      rw [same, Bool.and_eq_true] at h
      rw [groups, groups, precedence_of_same h.2, groups_of_same operand operand' h.2]
    | literal | var | binary | list => simp [same] at h
  | list items, e', h => by
    cases e' with
    | list items' => exact groupsAll_of_sameAll items items' h
    | literal | var | binary | unary => simp [same] at h

/-- The same trees in lists have the same number of groups. -/
theorem groupsAll_of_sameAll [BEq ν] : ∀ (es es' : List (Expr ν)), sameAll es es' = true →
    groupsAll es = groupsAll es'
  | [], [], _ => rfl
  | [], _ :: _, h => by simp [sameAll] at h
  | _ :: _, [], h => by simp [sameAll] at h
  | e :: es, e' :: es', h => by
    rw [sameAll, Bool.and_eq_true] at h
    rw [groupsAll, groupsAll, groups_of_same e e' h.1, groupsAll_of_sameAll es es' h.2]
end

/-! ## Denoting takes groups -/

/-- The groups that it takes to denote a phrase. -/
def Phrase.groups : Phrase → Nat
  | level least e => e.groupsAt (min least 7)
  | operand e => e.groupsAt 7
  | items es => groupsAll es

/-- An operator is no parenthesis. -/
theorem ne_paren_of_binaryOp? {t : Token} {op : BinaryOp} (h : t.binaryOp? = some op) :
    t ≠ .leftParen ∧ t ≠ .rightParen := by
  constructor <;> rintro rfl <;> cases h

/-- What denotes something is balanced. -/
theorem Denotes.balanced {ts : List Token} {phrase : Phrase} (h : Denotes ts phrase) :
    Token.Balanced ts := by
  induction h with
  | ofOperand _ ih => exact ih
  | binary hop _ _ _ ihl ihr =>
    obtain ⟨hleft, hright⟩ := ne_paren_of_binaryOp? hop
    exact ihl.between hleft hright ihr
  | integer _ | decimal _ | string | word => exact .singleton (by simp) (by simp)
  | negativeInteger _ | negativeDecimal _ | emptyList =>
    exact .cons (by simp) (by simp) (.singleton (by simp) (by simp))
  | negative _ _ ih | positive _ ih | not _ ih | list _ ih => exact .cons (by simp) (by simp) ih
  | parens _ ih => exact .parens ih .nil
  | last _ ih => exact ih.between (by simp) (by simp) .nil
  | more _ _ ih ih' => exact ih.between (by simp) (by simp) ih'

/-- A literal that is read is no group. -/
theorem groupsAt_of_integerLiteral {negative : Bool} {n : Nat} {e : Expr String}
    (h : integerLiteral negative n = some e) : e.groupsAt 7 = 0 := by
  obtain ⟨m, -, rfl⟩ := Option.map_eq_some_iff.1 h
  rfl

/-- A literal that is read is no group. -/
theorem groupsAt_of_decimalLiteral {negative : Bool} {d : Decimal} {e : Expr String}
    (h : decimalLiteral negative d = some e) : e.groupsAt 7 = 0 := by
  obtain ⟨-, h⟩ := Option.ite_none_right_eq_some.1 h
  cases h
  rfl

/-- A word is no group. -/
theorem groupsAt_ofWord (s : String) : (ofWord s).groupsAt 7 = 0 := by
  rw [ofWord]
  split_ifs <;> rfl

/-- An operator with its two operands has three tokens. -/
theorem Denotes.three_le_length {ts : List Token} {least : Nat} {e : Expr String}
    (h : Denotes ts (.level least e)) (hbinary : e.kind.precedence < 7) : 3 ≤ ts.length := by
  have hgroup : e.groupsAt 7 ≠ 0 := by
    rw [groupsAt, if_pos hbinary]
    omega
  cases h with
  | binary _ _ hl hr =>
    have hposl := hl.length_pos
    have hposr := hr.length_pos
    rw [List.length_append, List.length_cons]
    omega
  | ofOperand h =>
    cases h with
    | integer h | negativeInteger h => exact absurd (groupsAt_of_integerLiteral h) hgroup
    | decimal h | negativeDecimal h => exact absurd (groupsAt_of_decimalLiteral h) hgroup
    | string => exact absurd rfl hgroup
    | word => exact absurd (groupsAt_ofWord _) hgroup
    | negative _ _ | positive _ | not _ => exact absurd hbinary (Nat.lt_irrefl 7)
    | parens h =>
      have hpos := h.length_pos
      rw [List.length_cons, List.length_append, List.length_singleton]
      omega
    | emptyList | list _ => exact absurd hbinary (by decide : ¬8 < 7)

/-- Tokens denote a phrase only if they have the groups that it takes. -/
theorem groups_le_of_denotes {ts : List Token} {phrase : Phrase} (h : Denotes ts phrase) :
    phrase.groups ≤ Token.groups ts := by
  induction h with
  | @ofOperand n ts e _ ih => exact (groupsAt_mono (Nat.min_le_right n 7) e).trans ih
  | @binary n t op ts ts' l r hop hn hl hr ihl ihr =>
    obtain ⟨hparen, -⟩ := ne_paren_of_binaryOp? hop
    have hprecedence := precedence_lt op
    rw [Phrase.groups, Nat.min_eq_left (by omega)] at ihl ihr
    have hle : min n 7 ≤ (binary op l r).kind.precedence :=
      Nat.le_trans (Nat.min_le_left n 7) hn
    rw [hl.balanced.groups_between hparen, Phrase.groups, groupsAt_of_le hle]
    exact Nat.add_le_add ihl ihr
  | integer h | negativeInteger h =>
    rw [Phrase.groups, groupsAt_of_integerLiteral h]
    exact Nat.zero_le _
  | decimal h | negativeDecimal h =>
    rw [Phrase.groups, groupsAt_of_decimalLiteral h]
    exact Nat.zero_le _
  | string | emptyList => exact Nat.zero_le _
  | word =>
    rw [Phrase.groups, groupsAt_ofWord]
    exact Nat.zero_le _
  | negative _ _ ih | positive _ ih | not _ ih =>
    rw [Token.groups_cons (by simp)]
    exact (groupsAt_of_le (Nat.le_refl 7)).trans_le ih
  | @parens ts e h ih =>
    rw [Phrase.groups, Nat.zero_min, groupsAt_of_le (Nat.zero_le _)] at ih
    rw [Phrase.groups, groupsAt, h.balanced.groups_parens]
    -- Only a number could do without the group, and it is none.
    by_cases hbinary : e.kind.precedence < 7
    · rw [if_pos hbinary, h.balanced.closesNumber_of_length (h.three_le_length hbinary), if_pos rfl]
      omega
    · rw [if_neg hbinary]
      omega
  | @list ts es _ ih =>
    rw [Token.groups_cons (by decide)]
    exact (groupsAt_of_le (by decide : 7 ≤ 8)).trans_le ih
  | last h ih =>
    rw [Phrase.groups, Nat.zero_min, groupsAt_of_le (Nat.zero_le _)] at ih
    rw [h.balanced.groups_between (by decide)]
    exact Nat.add_le_add_right ih 0
  | more h _ ih ih' =>
    rw [Phrase.groups, Nat.zero_min, groupsAt_of_le (Nat.zero_le _)] at ih
    rw [h.balanced.groups_between (by decide)]
    exact Nat.add_le_add ih ih'

end Expr

end SearchSpace
