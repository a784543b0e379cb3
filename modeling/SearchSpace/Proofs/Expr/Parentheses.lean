import SearchSpace.Proofs.Expr.Groups
import SearchSpace.Proofs.Expr.Resolution

/-!
# Parentheses are needed

The text of an expression has no more groups than the expression (`hasGroups_chars`), and so too few
without the parentheses around one of its operands (`Pair.hasGroups`). What is read from a text has
no more groups than the text (`groups_le_of_read`), so that without these parentheses it is not the
expression (`read_unparenthesized`).
-/

namespace SearchSpace

namespace Expr

variable {ν : Type}

/-! ## Texts and their groups -/

/-- A text that does not start with an equality sign has balanced tokens with at most so many
groups, in front of what follows an operand. -/
def HasGroups (cs : List Char) (n : Nat) : Prop :=
  (∃ c cs', cs = c :: cs' ∧ c ≠ '=') ∧
    ∃ ts, Token.Spells cs ts ∧ Token.Balanced ts ∧ Token.groups ts ≤ n

namespace HasGroups

variable {cs cs' : List Char} {n n' : Nat}

/-- A text in parentheses is one more group. -/
theorem parens (h : HasGroups cs n) : HasGroups ('(' :: cs ++ [')']) (1 + n) := by
  obtain ⟨-, ts, hspells, hbalanced, hgroups⟩ := h
  refine ⟨⟨_, _, rfl, by decide⟩, _, hspells.parens, .parens hbalanced .nil, ?_⟩
  rw [hbalanced.groups_parens]
  split_ifs <;> omega

/-- A text in parentheses, if it is put into them. -/
theorem parenthesize (h : HasGroups cs n) (parens : Bool) :
    HasGroups (Expr.parenthesize parens cs) ((if parens = true then 1 else 0) + n) := by
  cases parens with
  | true => exact h.parens
  | false =>
    rw [if_neg Bool.false_ne_true, Nat.zero_add]
    exact h

/-- An operator between two texts. -/
theorem binary (h : HasGroups cs n) (h' : HasGroups cs' n') (op : BinaryOp) :
    HasGroups (cs ++ ' ' :: op.symbol.toList ++ ' ' :: cs') (n + n') := by
  obtain ⟨⟨c, rest, rfl, hc⟩, ts, hspells, hbalanced, hgroups⟩ := h
  obtain ⟨-, ts', hspells', hbalanced', hgroups'⟩ := h'
  obtain ⟨hparen, hparen'⟩ := ne_paren_of_binaryOp? (op.binaryOp?_token false)
  refine ⟨⟨c, _, rfl, hc⟩, _, hspells.spacedBinary hspells' op,
    hbalanced.between hparen hparen' hbalanced', ?_⟩
  rw [hbalanced.groups_between hparen]
  omega

/-- A sign or a negation before a text. -/
theorem unary (h : HasGroups cs n) (op : UnaryOp) : HasGroups (op.symbol.toList ++ cs) n := by
  obtain ⟨⟨c, rest, rfl, hc⟩, ts, hspells, hbalanced, hgroups⟩ := h
  cases op with
  | positive =>
    refine ⟨⟨_, _, rfl, by decide⟩, _, hspells.plus, .cons (by decide) (by decide) hbalanced, ?_⟩
    rwa [Token.groups_cons (by decide)]
  | negative =>
    refine ⟨⟨_, _, rfl, by decide⟩, _, hspells.minus, .cons (by simp) (by simp) hbalanced, ?_⟩
    rwa [Token.groups_cons (by simp)]
  | not =>
    refine ⟨⟨_, _, rfl, by decide⟩, _, hspells.not hc, .cons (by decide) (by decide) hbalanced, ?_⟩
    rwa [Token.groups_cons (by decide)]

/-- A comma between two texts. -/
theorem comma (h : HasGroups cs n) (h' : HasGroups cs' n') :
    HasGroups (cs ++ ',' :: ' ' :: cs') (n + n') := by
  obtain ⟨⟨c, rest, rfl, hc⟩, ts, hspells, hbalanced, hgroups⟩ := h
  obtain ⟨-, ts', hspells', hbalanced', hgroups'⟩ := h'
  refine ⟨⟨c, _, rfl, hc⟩, _, hspells.comma hspells'.blank,
    hbalanced.between (by decide) (by decide) hbalanced', ?_⟩
  rw [hbalanced.groups_between (by decide)]
  omega

/-- A text in brackets. -/
theorem list (h : HasGroups cs n) : HasGroups ('[' :: cs ++ [']']) n := by
  obtain ⟨-, ts, hspells, hbalanced, hgroups⟩ := h
  refine ⟨⟨_, _, rfl, by decide⟩, _, hspells.rightBracket.leftBracket, ?_, ?_⟩
  · exact .cons (by decide) (by decide) (hbalanced.between (by decide) (by decide) .nil)
  · rw [Token.groups_cons (by decide), hbalanced.groups_between (by decide)]
    exact hgroups

end HasGroups

/-! ## Leaves -/

/-- The tokens of a leaf, and of a number alone if it is one. -/
structure IsLeaf (number : Bool) (ts : List Token) : Prop where
  balanced : Token.Balanced ts
  groups : Token.groups ts = 0
  closesNumber : number = true → Token.closesNumber (ts ++ [.rightParen]) = true

/-- A token that is neither a parenthesis nor a number is a leaf. -/
theorem isLeaf_singleton {t : Token} (hleft : t ≠ .leftParen) (hright : t ≠ .rightParen) :
    IsLeaf false [t] :=
  ⟨.singleton hleft hright, Token.groups_cons hleft [], fun h => by cases h⟩

/-- A token of digits is a leaf, also with a sign before it. -/
theorem isLeaf_number {t : Token} (h : t.isNumber = true) :
    IsLeaf true [t] ∧ IsLeaf true [.minus true, t] := by
  have hleft : t ≠ .leftParen := by rintro rfl; cases h
  have hright : t ≠ .rightParen := by rintro rfl; cases h
  have hdigits : Token.closesDigits [t, .rightParen] = true := by
    rw [Token.closesDigits, h]
    rfl
  refine ⟨⟨.singleton hleft hright, Token.groups_cons hleft [], fun _ => ?_⟩,
    ⟨.cons (by decide) (by decide) (.singleton hleft hright), ?_, fun _ => ?_⟩⟩
  · show (Token.closesDigits [t, .rightParen] || _) = true
    rw [hdigits, Bool.true_or]
  · rw [Token.groups_cons (by decide), Token.groups_cons hleft, Token.groups]
  · rw [List.cons_append, List.singleton_append, Token.closesNumber, hdigits]
    exact Bool.or_eq_true_iff.2 (.inr rfl)

/-- The text of a value that can be written is a leaf. -/
theorem exists_isLeaf {v : Value} (h : v.IsWritable) :
    ∃ ts, Token.Spells v.chars ts ∧ IsLeaf v.isNumeric ts := by
  cases v with
  | none =>
    exact ⟨_, Token.spells_word rfl (List.all_eq_true.1 rfl), isLeaf_singleton (by simp) (by simp)⟩
  | bool b =>
    cases b <;>
      exact ⟨_, Token.spells_word rfl (List.all_eq_true.1 rfl),
        isLeaf_singleton (by simp) (by simp)⟩
  | int n =>
    obtain ⟨hplain, hnegative⟩ := @isLeaf_number (.integer n.toInt.natAbs) rfl
    refine ⟨_, Token.spells_int n.toInt, ?_⟩
    rw [Token.ofInt]
    split
    · exact hnegative
    · exact hplain
  | float x =>
    obtain ⟨negative, n, hn, hparts, hchars, -⟩ := Layout.exists_signed_numeral h
    obtain ⟨hplain, hnegative⟩ := @isLeaf_number (Token.ofNumeral n)
      (by rw [Token.ofNumeral_of_isSome hparts]; rfl)
    show ∃ ts, Token.Spells (Layout.literal.chars x.toFloat) ts ∧ _
    rw [hchars]
    cases negative with
    | false => exact ⟨_, Token.spells_numeral hn.isText, hplain⟩
    | true => exact ⟨_, Token.spells_negative hn.isText, hnegative⟩
  | string s => exact ⟨_, Token.spells_string s, isLeaf_singleton (by simp) (by simp)⟩
  | object key => exact h.elim
  | inactive => exact h.elim

/-- The text of a literal has no groups. -/
theorem hasGroups_literal {v : Value} (h : v.IsWritable) : HasGroups v.chars 0 := by
  obtain ⟨c, cs, hcs, hequal, -⟩ := chars_value_eq_cons h
  obtain ⟨ts, hspells, hleaf⟩ := exists_isLeaf h
  exact ⟨⟨c, cs, hcs, hequal⟩, ts, hspells, hleaf.balanced, hleaf.groups.le⟩

/-- A number in parentheses is no group. -/
theorem hasGroups_number {v : Value} (h : v.IsWritable) (hnumber : v.isNumeric = true) :
    HasGroups ('(' :: v.chars ++ [')']) 0 := by
  obtain ⟨ts, hspells, hleaf⟩ := exists_isLeaf h
  refine ⟨⟨_, _, rfl, by decide⟩, _, hspells.parens, .parens hleaf.balanced .nil, ?_⟩
  rw [hleaf.balanced.groups_parens, hleaf.closesNumber hnumber, hleaf.groups]
  decide

/-- The name of a parameter has no groups. -/
theorem hasGroups_name (name : Identifier) : HasGroups name.text.toList 0 := by
  obtain ⟨c, cs, hlist, hc, hcs⟩ := toList_name name
  rw [hlist]
  have hleaf := @isLeaf_singleton (.word (String.ofList (c :: cs))) (by simp) (by simp)
  refine ⟨⟨c, cs, rfl, ?_⟩, _, Token.spells_word hc hcs, hleaf.balanced, hleaf.groups.le⟩
  rintro rfl
  cases hc

/-! ## Texts of expressions -/

/-- The text of an operand, in parentheses if it does not bind tightly enough. -/
theorem HasGroups.groupsAt {e : Expr ν} {cs : List Char} {parens : Bool} {least : Nat}
    (h : HasGroups cs e.groups) (hparens : parens = true ↔ e.kind.precedence < least) :
    HasGroups (Expr.parenthesize parens cs) (e.groupsAt least) := by
  have hcount := h.parenthesize parens
  rwa [if_congr hparens rfl rfl] at hcount

section Texts

variable {name : ν → List Char}

/-- The text of the operand of a sign or a negation: a number after a sign is in parentheses that
are no group. -/
theorem HasGroups.operand {operand : Expr ν} (h : HasGroups (operand.chars name) operand.groups)
    (hliterals : ∀ v ∈ operand.literals, v.IsWritable) (op : UnaryOp) :
    HasGroups (Expr.parenthesize (operandNeedsParens op operand) (operand.chars name))
      (operand.groupsAt 7) := by
  cases hsigned : decide (op ≠ .not) && operand.isNumber with
  | true =>
    have hnumber := (Bool.and_eq_true_iff.1 hsigned).2
    cases operand with
    | literal v =>
      rw [operandNeedsParens, hsigned, Bool.true_or]
      exact hasGroups_number (hliterals v (List.mem_singleton_self v)) hnumber
    | var x | binary op left right | unary op operand | list items => cases hnumber
  | false => exact h.groupsAt (operandNeedsParens_iff hsigned)

/-- The text of a list without items. -/
theorem hasGroups_emptyList : HasGroups ['[', ']'] 0 :=
  ⟨⟨_, _, rfl, by decide⟩, _, Token.spells_nil.rightBracket.leftBracket,
    .cons (by decide) (by decide) (.singleton (by decide) (by decide)), by decide⟩

mutual
/-- The text of an expression has no groups but those that the expression needs. -/
theorem hasGroups_chars (hname : ∀ x, HasGroups (name x) 0) : ∀ e : Expr ν,
    (∀ v ∈ e.literals, v.IsWritable) → HasGroups (e.chars name) e.groups
  | literal v, he => hasGroups_literal (he v (List.mem_singleton_self v))
  | var x, _ => hname x
  | binary op left right, he => by
    have hleft := hasGroups_chars hname left fun v hv => he v (List.mem_append_left _ hv)
    have hright := hasGroups_chars hname right fun v hv => he v (List.mem_append_right _ hv)
    exact (hleft.groupsAt leftNeedsParens_iff).binary (hright.groupsAt rightNeedsParens_iff) op
  | unary op operand, he => ((hasGroups_chars hname operand he).operand he op).unary op
  | list [], _ => hasGroups_emptyList
  | list (e :: es), he => (hasGroups_charsAll hname (e :: es) (List.cons_ne_nil e es) he).list

/-- The texts of some expressions have no groups but those that the expressions need. -/
theorem hasGroups_charsAll (hname : ∀ x, HasGroups (name x) 0) : ∀ es : List (Expr ν), es ≠ [] →
    (∀ v ∈ literalsAll es, v.IsWritable) → HasGroups (charsAll name es) (groupsAll es)
  | [], hne, _ => absurd rfl hne
  | [e], _, he => hasGroups_chars hname e fun v hv => he v (List.mem_append_left _ hv)
  | e :: e' :: es, _, he => by
    have h := hasGroups_chars hname e fun v hv => he v (List.mem_append_left _ hv)
    have h' := hasGroups_charsAll hname (e' :: es) (List.cons_ne_nil e' es) fun v hv =>
      he v (List.mem_append_right _ hv)
    exact h.comma h'
end

end Texts

/-! ## Places in expressions -/

/-- The place of a child in a node: the node but for that child. -/
inductive Frame (ν : Type) where
  | left (op : BinaryOp) (right : Expr ν)
  | right (op : BinaryOp) (left : Expr ν)
  | operand (op : UnaryOp)
  | item (before after : List (Expr ν))

namespace Frame

/-- The node with a child in the place. -/
def fill : Frame ν → Expr ν → Expr ν
  | left op r, e => binary op e r
  | right op l, e => binary op l e
  | operand op, e => unary op e
  | item before after, e => list (before ++ e :: after)

/-- Whether the child in the place is put into parentheses. -/
def needsParens : Frame ν → Expr ν → Bool
  | left op _, e => leftNeedsParens op e
  | right op _, e => rightNeedsParens op e
  | operand op, e => operandNeedsParens op e
  | item _ _, _ => false

/-- The text of the node before the child. -/
def before (name : ν → List Char) : Frame ν → List Char
  | left _ _ => []
  | right op l =>
    Expr.parenthesize (leftNeedsParens op l) (l.chars name) ++ ' ' :: op.symbol.toList ++ [' ']
  | operand op => op.symbol.toList
  | item es _ => '[' :: es.flatMap fun e => e.chars name ++ [',', ' ']

/-- The text of the node after the child. -/
def after (name : ν → List Char) : Frame ν → List Char
  | left op r =>
    ' ' :: op.symbol.toList ++ ' ' :: Expr.parenthesize (rightNeedsParens op r) (r.chars name)
  | right _ _ | operand _ => []
  | item _ es => (es.flatMap fun e => ',' :: ' ' :: e.chars name) ++ [']']

/-- The precedence that operators in the place must have. -/
def level : Frame ν → Nat
  | left op _ => op.precedence
  | right op _ => op.precedence + 1
  | operand _ => 7
  | item _ _ => 0

/-- The groups of the other children. -/
def groups : Frame ν → Nat
  | left op r => r.groupsAt (op.precedence + 1)
  | right op l => l.groupsAt op.precedence
  | operand _ => 0
  | item before after => groupsAll before + groupsAll after

/-- The literals of the other children. -/
def literals : Frame ν → List Value
  | left _ r => r.literals
  | right _ l => l.literals
  | operand _ => []
  | item before after => literalsAll before ++ literalsAll after

end Frame

/-- The texts of some expressions after another one. -/
theorem charsAll_cons (name : ν → List Char) (e : Expr ν) (es : List (Expr ν)) :
    charsAll name (e :: es) = e.chars name ++ es.flatMap fun e => ',' :: ' ' :: e.chars name := by
  induction es generalizing e with
  | nil => rw [charsAll, List.flatMap_nil, List.append_nil]
  | cons e' es ih => rw [charsAll, ih, List.flatMap_cons]; rfl

/-- The texts of some expressions before others. -/
theorem charsAll_append (name : ν → List Char) (es : List (Expr ν)) (e : Expr ν)
    (es' : List (Expr ν)) : charsAll name (es ++ e :: es') =
      (es.flatMap fun e => e.chars name ++ [',', ' ']) ++ charsAll name (e :: es') := by
  induction es with
  | nil => rfl
  | cons e' es ih =>
    have hcons : ∀ es : List (Expr ν), es ≠ [] →
        charsAll name (e' :: es) = e'.chars name ++ ',' :: ' ' :: charsAll name es := by
      intro es hne
      cases es with
      | nil => exact absurd rfl hne
      | cons e'' es => rfl
    rw [List.cons_append, hcons _ (by simp), ih, List.flatMap_cons, List.append_assoc,
      List.append_assoc]
    rfl

/-- The groups of some expressions and others. -/
theorem groupsAll_append (es es' : List (Expr ν)) :
    groupsAll (es ++ es') = groupsAll es + groupsAll es' := by
  induction es with
  | nil => rw [List.nil_append, groupsAll, Nat.zero_add]
  | cons e es ih => rw [List.cons_append, groupsAll, groupsAll, ih, Nat.add_assoc]

/-- The literals of some expressions and others. -/
theorem literalsAll_append (es es' : List (Expr ν)) :
    literalsAll (es ++ es') = literalsAll es ++ literalsAll es' := by
  induction es with
  | nil => rfl
  | cons e es ih => rw [List.cons_append, literalsAll, literalsAll, ih, List.append_assoc]

namespace HasGroups

variable {name : ν → List Char} {cs : List Char} {n : Nat}

/-- The texts of some items before a text. -/
theorem itemsBefore (h : HasGroups cs n) (hname : ∀ x, HasGroups (name x) 0) {es : List (Expr ν)}
    (hliterals : ∀ v ∈ literalsAll es, v.IsWritable) :
    HasGroups ((es.flatMap fun e => e.chars name ++ [',', ' ']) ++ cs) (groupsAll es + n) := by
  induction es with
  | nil =>
    rw [groupsAll, Nat.zero_add]
    exact h
  | cons e es ih =>
    obtain ⟨he, hes⟩ := List.forall_mem_append.1 hliterals
    have hcomma := (hasGroups_chars hname e he).comma (ih hes)
    rw [← Nat.add_assoc] at hcomma
    rwa [List.flatMap_cons, List.append_assoc, List.append_assoc]

/-- The texts of some items after a text. -/
theorem itemsAfter (h : HasGroups cs n) (hname : ∀ x, HasGroups (name x) 0) {es : List (Expr ν)}
    (hliterals : ∀ v ∈ literalsAll es, v.IsWritable) :
    HasGroups (cs ++ es.flatMap fun e => ',' :: ' ' :: e.chars name) (n + groupsAll es) := by
  induction es generalizing cs n with
  | nil =>
    rw [List.flatMap_nil, List.append_nil]
    exact h
  | cons e es ih =>
    obtain ⟨he, hes⟩ := List.forall_mem_append.1 hliterals
    have hrest := ih (h.comma (hasGroups_chars hname e he)) hes
    rw [Nat.add_assoc] at hrest
    rwa [List.append_assoc] at hrest

end HasGroups

namespace Frame

variable {name : ν → List Char} {frame : Frame ν} {e : Expr ν} {cs : List Char} {n : Nat}

/-- The text of a node has that of a child in its place. -/
theorem chars_fill (name : ν → List Char) (frame : Frame ν) (e : Expr ν) :
    (frame.fill e).chars name = frame.before name ++
      Expr.parenthesize (frame.needsParens e) (e.chars name) ++ frame.after name := by
  cases frame with
  | left op r => exact List.append_assoc _ _ _
  | right op l =>
    rw [before, after, List.append_nil, List.append_assoc _ [' ']]
    rfl
  | operand op => exact (List.append_nil _).symm
  | item es es' =>
    rw [fill, chars, charsAll_append, charsAll_cons, before, after]
    simp [needsParens, Expr.parenthesize]

/-- A child that is no number is put into parentheses where it does not bind tightly enough. -/
theorem needsParens_iff (frame : Frame ν) (h : e.isNumber = false) :
    frame.needsParens e = true ↔ e.kind.precedence < frame.level := by
  cases frame with
  | left op r => exact leftNeedsParens_iff
  | right op l => exact rightNeedsParens_iff
  | operand op => exact operandNeedsParens_iff (by rw [h, Bool.and_false])
  | item es es' => exact iff_of_false Bool.false_ne_true (Nat.not_lt_zero _)

/-- The groups of a node are those of a child in its place and of the other children. -/
theorem groups_fill (frame : Frame ν) (e : Expr ν) :
    (frame.fill e).groups = e.groupsAt frame.level + frame.groups := by
  cases frame with
  | left op r | operand op => rfl
  | right op l => exact Nat.add_comm _ _
  | item es es' =>
    rw [fill, Expr.groups, groupsAll_append, groupsAll, level, groupsAt_of_le (Nat.zero_le _),
      groups]
    omega

/-- The literals of a node are those of a child in its place and of the other children. -/
theorem forall_literals_fill {p : Value → Prop} : (∀ v ∈ (frame.fill e).literals, p v) ↔
    (∀ v ∈ e.literals, p v) ∧ ∀ v ∈ frame.literals, p v := by
  cases frame with
  | left op r => exact List.forall_mem_append
  | right op l => exact List.forall_mem_append.trans and_comm
  | operand op => exact (and_iff_left fun _ hv => absurd hv List.not_mem_nil).symm
  | item es es' =>
    rw [fill, Expr.literals, literalsAll_append, literalsAll, literals, List.forall_mem_append,
      List.forall_mem_append, List.forall_mem_append]
    exact and_left_comm

/-- The text of a node with any text in the place of a child has the groups of that and of the other
children. -/
theorem hasGroups (hname : ∀ x, HasGroups (name x) 0) (frame : Frame ν)
    (hliterals : ∀ v ∈ frame.literals, v.IsWritable) (h : HasGroups cs n) :
    HasGroups (frame.before name ++ cs ++ frame.after name) (n + frame.groups) := by
  cases frame with
  | left op r =>
    have hright := (hasGroups_chars hname r hliterals).groupsAt (@rightNeedsParens_iff _ op r)
    have hbinary := h.binary hright op
    rwa [List.append_assoc] at hbinary
  | right op l =>
    have hleft := (hasGroups_chars hname l hliterals).groupsAt (@leftNeedsParens_iff _ op l)
    have hbinary := hleft.binary h op
    rw [before, after, List.append_nil, List.append_assoc _ [' '], groups, Nat.add_comm]
    exact hbinary
  | operand op =>
    rw [after, List.append_nil]
    exact h.unary op
  | item es es' =>
    obtain ⟨hbefore, hafter⟩ := List.forall_mem_append.1 hliterals
    have hlist := ((h.itemsAfter hname hafter).itemsBefore hname hbefore).list
    rw [before, after, groups, Nat.add_left_comm]
    simpa using hlist

end Frame

/-! ## Pairs of parentheses -/

/-- A pair of parentheses around an operand in the text of an expression, with the text before it
and after it. -/
inductive Pair (name : ν → List Char) : Expr ν → List Char → Expr ν → List Char → Prop where
  /-- The pair around a child. -/
  | here {frame : Frame ν} {inner : Expr ν} : frame.needsParens inner = true →
    Pair name (frame.fill inner) (frame.before name) inner (frame.after name)
  /-- A pair within a child that is not put into parentheses. -/
  | bare {frame : Frame ν} {e inner : Expr ν} {before after : List Char} :
    frame.needsParens e = false → Pair name e before inner after →
      Pair name (frame.fill e) (frame.before name ++ before) inner (after ++ frame.after name)
  /-- A pair within a child that is put into parentheses. -/
  | enclosed {frame : Frame ν} {e inner : Expr ν} {before after : List Char} :
    frame.needsParens e = true → Pair name e before inner after →
      Pair name (frame.fill e) (frame.before name ++ '(' :: before) inner
        (after ++ ')' :: frame.after name)

namespace Pair

variable {name : ν → List Char} {e inner : Expr ν} {before after : List Char}

/-- The text of an expression has the pair. -/
theorem chars_eq (h : Pair name e before inner after) :
    e.chars name = before ++ '(' :: inner.chars name ++ ')' :: after := by
  induction h with
  | here hparens =>
    rw [Frame.chars_fill, hparens]
    simp [parenthesize]
  | bare hparens _ ih =>
    rw [Frame.chars_fill, hparens, ih]
    simp [parenthesize]
  | enclosed hparens _ ih =>
    rw [Frame.chars_fill, hparens, ih]
    simp [parenthesize]

/-- What has a pair is no number. -/
theorem isNumber_eq_false (h : Pair name e before inner after) : e.isNumber = false := by
  have hfill : ∀ (frame : Frame ν) (e : Expr ν), (frame.fill e).isNumber = false := by
    intro frame e
    cases frame <;> rfl
  cases h <;> exact hfill _ _

/-- Without a pair around what is no number, the text has fewer groups than the expression needs. -/
theorem hasGroups (h : Pair name e before inner after) (hname : ∀ x, HasGroups (name x) 0)
    (hliterals : ∀ v ∈ e.literals, v.IsWritable) (hnumber : inner.isNumber = false) :
    ∃ n < e.groups, HasGroups (before ++ inner.chars name ++ after) n := by
  induction h with
  | @here frame inner hparens =>
    obtain ⟨hinner, hothers⟩ := Frame.forall_literals_fill.1 hliterals
    refine ⟨_, ?_, frame.hasGroups hname hothers (hasGroups_chars hname inner hinner)⟩
    rw [frame.groups_fill, groupsAt, if_pos ((frame.needsParens_iff hnumber).1 hparens)]
    omega
  | @bare frame e inner before after hparens h ih =>
    obtain ⟨hchild, hothers⟩ := Frame.forall_literals_fill.1 hliterals
    obtain ⟨n, hn, htext⟩ := ih hchild hnumber
    have htext := frame.hasGroups hname hothers htext
    refine ⟨_, ?_, by simpa using htext⟩
    rw [frame.groups_fill, groupsAt]
    omega
  | @enclosed frame e inner before after hparens h ih =>
    obtain ⟨hchild, hothers⟩ := Frame.forall_literals_fill.1 hliterals
    obtain ⟨n, hn, htext⟩ := ih hchild hnumber
    have htext := frame.hasGroups hname hothers htext.parens
    refine ⟨_, ?_, by simpa using htext⟩
    rw [frame.groups_fill, groupsAt, if_pos ((frame.needsParens_iff h.isNumber_eq_false).1 hparens)]
    omega

end Pair

/-! ## Reading a text without a pair -/

/-- What is read from a text needs no more groups than the text has. -/
theorem groups_le_of_read {scope : Scope} {cs : List Char} {n : Nat} {e : Expr Parameter}
    (htext : HasGroups cs n) (h : read scope (String.ofList cs) = .ok e) : e.groups ≤ n := by
  obtain ⟨-, ts, hspells, -, hgroups⟩ := htext
  rw [read, ofText, String.toList_ofList, hspells.ofChars, Option.bind_some] at h
  split at h
  · next tree htree =>
    have hdenotes := groups_le_of_denotes (ofTokens_eq_some_iff.1 htree)
    obtain ⟨rfl, -⟩ := resolve_spec (fun _ _ hp => (name_of_parameterOf hp).1) tree e h
    rw [Phrase.groups, Nat.zero_min, groupsAt_of_le (Nat.zero_le _), groups_rename] at hdenotes
    exact hdenotes.trans hgroups
  · cases h

/-- Without a pair of parentheses around an operand, the text of an expression that can be used in a
scope is not read as that expression. The pairs around a number after a sign are left out: with a
blank in their place it is read. -/
theorem read_unparenthesized {scope : Scope} {e inner : Expr Parameter} {before after : List Char}
    (hpair : Pair (·.name.text.toList) e before inner after) (hnumber : inner.isNumber = false)
    (hobject : ∀ v ∈ e.literals, v.type ≠ .object) (hcheck : e.check scope = .ok ()) :
    e.text = String.ofList
        (before ++ '(' :: inner.chars (·.name.text.toList) ++ ')' :: after) ∧
      ∀ e', read scope (String.ofList (before ++ inner.chars (·.name.text.toList) ++ after)) =
        .ok e' → e'.same e = false := by
  refine ⟨congrArg String.ofList hpair.chars_eq, fun e' hread => ?_⟩
  obtain ⟨-, hliterals⟩ := usable_of_check e hcheck
  obtain ⟨n, hn, htext⟩ := hpair.hasGroups (fun p => hasGroups_name p.name)
    (fun v hv => hliterals v hv (hobject v hv)) hnumber
  have hle := groups_le_of_read htext hread
  refine Bool.eq_false_iff.2 fun hsame => ?_
  rw [groups_of_same e' e hsame] at hle
  exact Nat.not_le.2 hn hle

/-- The condition without the pair around its inner difference is read as another one, in which the
first difference is taken first. -/
theorem read_unparenthesized_condition : ∃ before inner after,
    Pair (·.name.text.toList) condition before inner after ∧ inner.isNumber = false ∧
      (∀ v ∈ condition.literals, v.type ≠ .object) ∧ condition.check ranges = .ok () ∧
      condition.text = "width - (depth - -3) < -(0.1) && -depth # [4, \"a\\\"b\"]" ∧
      ∃ e', read ranges "width - depth - -3 < -(0.1) && -depth # [4, \"a\\\"b\"]" = .ok e' ∧
        e'.same condition = false := by
  -- The pair is on the right of the difference, which is on the left of `<` and of `&&`.
  have hdifference := @Pair.here Parameter (·.name.text.toList)
    (.right .subtract (.var Assignment.width))
    (.binary .subtract (.var Assignment.depth) (.literal (.int (-3)))) rfl
  have hless := @Pair.bare _ _ (.left .less
    (.unary .negative (.literal (.float (.ofFloat (.ofBits 0x3FB999999999999A)))))) _ _ _ _ rfl
    hdifference
  have hpair := @Pair.bare _ _ (.left .and (.binary .member
    (.unary .negative (.var Assignment.depth))
    (.list [.literal (.int 4), .literal (.string "a\"b")]))) _ _ _ _ rfl hless
  have hobject : ∀ v ∈ condition.literals, v.type ≠ .object := by decide
  have hcheck : condition.check ranges = .ok () := rfl
  obtain ⟨htext, hread⟩ := @read_unparenthesized ranges condition _ _ _ hpair rfl hobject hcheck
  refine ⟨_, _, _, hpair, rfl, hobject, hcheck, htext.trans (by decide +kernel), ?_⟩
  have hreads : (read ranges
      "width - depth - -3 < -(0.1) && -depth # [4, \"a\\\"b\"]").toOption.any (fun _ => true) =
        true := by
    decide +kernel
  obtain ⟨e', he', -⟩ := exists_ok_of_any hreads
  refine ⟨e', he', hread e' (Eq.trans (congrArg (read ranges) ?_) he')⟩
  decide +kernel

end Expr

end SearchSpace
