import SearchSpace.Expr.Parser

/-!
# The grammar of expressions

`Denotes ts phrase` is the grammar: a run of tokens denotes an expression whose operators outside
parentheses have at least a given precedence and group to the left, an operand, or the items of a
list with the bracket after them. The functions that read tokens find all of it
(`Denotes.readable`): of an expression they read its first operand and go on with the operators
after it, so that what they know of a whole expression is with which operators they go on. They find
nothing else (`denotes_of_readExpr`), since they go on with the operators of a level until none
follows. So tokens denote at most one expression, the one that is read (`ofTokens_eq_some_iff`).
-/

namespace SearchSpace

/-- Whether a token is a number without its sign. -/
def Token.isNumber : Token → Bool
  | integer _ | decimal _ => true
  | _ => false

namespace Expr

/-! ## The grammar -/

/-- What a run of tokens can denote. -/
inductive Phrase where
  /-- An expression in which no operator outside parentheses has less than a precedence. -/
  | level (least : Nat) (e : Expr String)
  | operand (e : Expr String)
  /-- The items of a list, of which there are some. -/
  | items (es : List (Expr String))

/-- A run of tokens denotes a phrase. -/
inductive Denotes : List Token → Phrase → Prop where
  | ofOperand {least : Nat} {ts : List Token} {e : Expr String} :
    Denotes ts (.operand e) → Denotes ts (.level least e)
  | binary {least : Nat} {t : Token} {op : BinaryOp} {ts ts' : List Token} {l r : Expr String} :
    t.binaryOp? = some op → least ≤ op.precedence → Denotes ts (.level op.precedence l) →
      Denotes ts' (.level (op.precedence + 1) r) →
      Denotes (ts ++ t :: ts') (.level least (binary op l r))
  | integer {n : Nat} {e : Expr String} :
    integerLiteral false n = some e → Denotes [.integer n] (.operand e)
  | negativeInteger {n : Nat} {e : Expr String} :
    integerLiteral true n = some e → Denotes [.minus true, .integer n] (.operand e)
  | decimal {d : Decimal} {e : Expr String} :
    decimalLiteral false d = some e → Denotes [.decimal d] (.operand e)
  | negativeDecimal {d : Decimal} {e : Expr String} :
    decimalLiteral true d = some e → Denotes [.minus true, .decimal d] (.operand e)
  | string {s : String} : Denotes [.string s] (.operand (literal (.string s)))
  | word {s : String} : Denotes [.word s] (.operand (ofWord s))
  | negative {glued : Bool} {ts : List Token} {e : Expr String} :
    (glued = true → ∀ t ∈ ts.head?, t.isNumber = false) → Denotes ts (.operand e) →
      Denotes (.minus glued :: ts) (.operand (unary .negative e))
  | positive {ts : List Token} {e : Expr String} :
    Denotes ts (.operand e) → Denotes (.plus :: ts) (.operand (unary .positive e))
  | not {ts : List Token} {e : Expr String} :
    Denotes ts (.operand e) → Denotes (.not :: ts) (.operand (unary .not e))
  | parens {ts : List Token} {e : Expr String} :
    Denotes ts (.level 0 e) → Denotes (.leftParen :: (ts ++ [.rightParen])) (.operand e)
  | emptyList : Denotes [.leftBracket, .rightBracket] (.operand (list []))
  | list {ts : List Token} {es : List (Expr String)} :
    Denotes ts (.items es) → Denotes (.leftBracket :: ts) (.operand (list es))
  | last {ts : List Token} {e : Expr String} :
    Denotes ts (.level 0 e) → Denotes (ts ++ [.rightBracket]) (.items [e])
  | more {ts ts' : List Token} {e : Expr String} {es : List (Expr String)} :
    Denotes ts (.level 0 e) → Denotes ts' (.items es) →
      Denotes (ts ++ .comma :: ts') (.items (e :: es))

/-- What denotes something is not empty. -/
theorem Denotes.length_pos {ts : List Token} {phrase : Phrase} (h : Denotes ts phrase) :
    0 < ts.length := by
  induction h with
  | ofOperand _ ih => exact ih
  | _ => simp only [List.length_append, List.length_cons]; omega

/-- Neither the items of a list nor an expression starts with a closing bracket. -/
theorem Denotes.head_ne_rightBracket {ts : List Token} {phrase : Phrase} (h : Denotes ts phrase) :
    ∃ t ts', ts = t :: ts' ∧ t ≠ .rightBracket := by
  induction h with
  | ofOperand _ ih => exact ih
  | binary _ _ _ _ ih =>
    obtain ⟨t, ts', rfl, ht⟩ := ih
    exact ⟨t, _, rfl, ht⟩
  | last _ ih =>
    obtain ⟨t, ts', rfl, ht⟩ := ih
    exact ⟨t, _, rfl, ht⟩
  | more _ _ ih =>
    obtain ⟨t, ts', rfl, ht⟩ := ih
    exact ⟨t, _, rfl, ht⟩
  | _ => exact ⟨_, _, rfl, by simp⟩

/-! ## Reading -/

/-- What follows an expression does not go on with an operator of at least a precedence. -/
def Stops (least : Nat) (ts : List Token) : Prop :=
  ∀ t ∈ ts.head?, ∀ op, t.binaryOp? = some op → op.precedence < least

/-- What is no operator of the one precedence or more is none of a greater one either. -/
theorem Stops.mono {least least' : Nat} {ts : List Token} (h : Stops least ts)
    (hle : least ≤ least') : Stops least' ts :=
  fun t ht op hop => Nat.lt_of_lt_of_le (h t ht op hop) hle

/-- Nothing is no operator. -/
theorem stops_nil (least : Nat) : Stops least [] :=
  fun _ ht => by cases ht

/-- A token that is no operator ends an expression. -/
theorem stops_cons {least : Nat} {t : Token} {ts : List Token} (h : t.binaryOp? = none) :
    Stops least (t :: ts) := by
  intro t' ht op hop
  cases ht
  rw [h] at hop
  cases hop

/-- Where an expression ends, no operator is read. -/
theorem readOperators_of_stops {fuel least : Nat} {e : Expr String} {ts : List Token}
    (hfuel : 0 < fuel) (h : Stops least ts) : readOperators fuel least e ts = some (e, ts) := by
  obtain ⟨fuel, rfl⟩ := Nat.exists_eq_add_one_of_ne_zero (Nat.ne_of_gt hfuel)
  cases ts with
  | nil => rfl
  | cons t ts =>
    rw [readOperators]
    cases hop : t.binaryOp? with
    | none => rfl
    | some op => exact if_neg (Nat.not_le.2 (h t rfl op hop))

/-- The functions that read tokens find a phrase at the front of any tokens, with fuel for its
length. -/
def Phrase.Readable (ts : List Token) : Phrase → Prop
  | level n e => ∀ (fuel least : Nat) (rest : List Token), 4 * ts.length ≤ fuel + 2 → least ≤ n →
      Stops (n + 1) rest → ∃ fuel', fuel ≤ fuel' + ts.length ∧
        readExpr fuel least (ts ++ rest) = readOperators fuel' least e rest
  | operand e => ∀ (fuel : Nat) (rest : List Token), 4 * ts.length ≤ fuel + 3 →
      readOperand fuel (ts ++ rest) = some (e, rest)
  | items es => ∀ (fuel : Nat) (rest : List Token), 4 * ts.length ≤ fuel + 2 →
      readItems fuel (ts ++ rest) = some (es, rest)

/-- An operand is read with some fuel more than what comes after its first token needs. -/
theorem Phrase.Readable.operand {t : Token} {ts : List Token} {e : Expr String}
    (h : ∀ (fuel : Nat) (rest : List Token), 4 * ts.length ≤ fuel →
      readOperand (fuel + 1) (t :: ts ++ rest) = some (e, rest)) :
    Phrase.Readable (t :: ts) (.operand e) := by
  intro fuel rest hfuel
  rw [List.length_cons] at hfuel
  obtain ⟨fuel, rfl⟩ : ∃ k, fuel = k + 1 := ⟨fuel - 1, by omega⟩
  exact h fuel rest (by omega)

/-- A whole expression is read where it ends. -/
theorem Phrase.Readable.readExpr {ts : List Token} {n : Nat} {e : Expr String}
    (h : Phrase.Readable ts (.level n e)) (hpos : 0 < ts.length) {fuel least : Nat}
    {rest : List Token} (hfuel : 4 * ts.length ≤ fuel + 2) (hle : least ≤ n)
    (hrest : Stops least rest) : Expr.readExpr fuel least (ts ++ rest) = some (e, rest) := by
  obtain ⟨fuel', hfuel', heq⟩ := h fuel least rest hfuel hle (hrest.mono (by omega))
  rw [heq]
  exact readOperators_of_stops (by omega) hrest

/-- What the grammar derives is read. -/
theorem Denotes.readable {ts : List Token} {phrase : Phrase} (h : Denotes ts phrase) :
    phrase.Readable ts := by
  induction h with
  | @ofOperand n ts e h ih =>
    intro fuel least rest hfuel _ _
    have hpos := h.length_pos
    obtain ⟨fuel, rfl⟩ : ∃ k, fuel = k + 1 := ⟨fuel - 1, by omega⟩
    refine ⟨fuel, by omega, ?_⟩
    rw [readExpr, ih fuel rest (by omega)]
    rfl
  | @binary n t op ts ts' l r hop hn hl hr ihl ihr =>
    intro fuel least rest hfuel hleast hrest
    rw [List.length_append, List.length_cons] at hfuel
    have hposl := hl.length_pos
    have hposr := hr.length_pos
    have hstops : Stops (op.precedence + 1) (t :: ts' ++ rest) := by
      intro t' ht op' hop'
      cases ht
      cases hop.symm.trans hop'
      exact Nat.lt_succ_self _
    obtain ⟨fuel₁, hfuel₁, heq⟩ :=
      ihl fuel least (t :: ts' ++ rest) (by omega) (by omega) hstops
    obtain ⟨fuel₁, rfl⟩ : ∃ k, fuel₁ = k + 1 := ⟨fuel₁ - 1, by omega⟩
    have hright : readExpr fuel₁ (op.precedence + 1) (ts' ++ rest) = some (r, rest) :=
      ihr.readExpr hposr (by omega) (Nat.le_refl _) (hrest.mono (by omega))
    refine ⟨fuel₁, by rw [List.length_append, List.length_cons]; omega, ?_⟩
    rw [List.append_assoc, heq, List.cons_append, readOperators, hop]
    show (if least ≤ op.precedence then _ else _) = _
    rw [if_pos (Nat.le_trans hleast hn), hright]
    rfl
  | integer h =>
    refine .operand fun fuel rest _ => ?_
    show (integerLiteral false _).map _ = _
    rw [h]
    rfl
  | negativeInteger h =>
    refine .operand fun fuel rest _ => ?_
    show (integerLiteral true _).map _ = _
    rw [h]
    rfl
  | decimal h =>
    refine .operand fun fuel rest _ => ?_
    show (decimalLiteral false _).map _ = _
    rw [h]
    rfl
  | negativeDecimal h =>
    refine .operand fun fuel rest _ => ?_
    show (decimalLiteral true _).map _ = _
    rw [h]
    rfl
  | string | word | emptyList => exact .operand fun fuel rest _ => rfl
  | @negative glued ts e hglued h ih =>
    refine .operand fun fuel rest hfuel => ?_
    have hsign : readOperand (fuel + 1) (.minus glued :: ts ++ rest) =
        (readOperand fuel (ts ++ rest)).map fun read => (unary .negative read.1, read.2) := by
      cases glued with
      | false => rfl
      | true =>
        obtain ⟨t, ts', rfl, -⟩ := h.head_ne_rightBracket
        have hnumber := hglued rfl t rfl
        cases t <;> first | rfl | cases hnumber
    rw [hsign, ih fuel rest (by omega)]
    rfl
  | positive _ ih | not _ ih =>
    refine .operand fun fuel rest hfuel => ?_
    show (readOperand fuel (_ ++ rest)).map _ = _
    rw [ih fuel rest (by omega)]
    rfl
  | @parens ts e h ih =>
    refine .operand fun fuel rest hfuel => ?_
    rw [List.length_append, List.length_singleton] at hfuel
    have hinner : Expr.readExpr fuel 0 (ts ++ .rightParen :: rest) =
        some (e, .rightParen :: rest) :=
      ih.readExpr h.length_pos (by omega) (Nat.le_refl 0) (stops_cons rfl)
    rw [List.cons_append, List.append_assoc, readOperand, List.singleton_append, hinner]
  | @list ts es h ih =>
    refine .operand fun fuel rest hfuel => ?_
    obtain ⟨t, ts', rfl, ht⟩ := h.head_ne_rightBracket
    have hlist : readOperand (fuel + 1) (.leftBracket :: t :: ts' ++ rest) =
        (readItems fuel (t :: ts' ++ rest)).map fun read => (.list read.1, read.2) := by
      cases t <;> first | rfl | exact absurd rfl ht
    rw [hlist, ih fuel rest (by omega)]
    rfl
  | @last ts e h ih =>
    intro fuel rest hfuel
    rw [List.length_append, List.length_singleton] at hfuel
    obtain ⟨fuel, rfl⟩ : ∃ k, fuel = k + 1 := ⟨fuel - 1, by omega⟩
    have hitem : Expr.readExpr fuel 0 (ts ++ .rightBracket :: rest) =
        some (e, .rightBracket :: rest) :=
      ih.readExpr h.length_pos (by omega) (Nat.le_refl 0) (stops_cons rfl)
    rw [List.append_assoc, readItems, List.singleton_append, hitem]
  | @more ts ts' e es h h' ih ih' =>
    intro fuel rest hfuel
    rw [List.length_append, List.length_cons] at hfuel
    have hpos := h.length_pos
    have hpos' := h'.length_pos
    obtain ⟨fuel, rfl⟩ : ∃ k, fuel = k + 1 := ⟨fuel - 1, by omega⟩
    have hitem : Expr.readExpr fuel 0 (ts ++ .comma :: (ts' ++ rest)) =
        some (e, .comma :: (ts' ++ rest)) :=
      ih.readExpr hpos (by omega) (Nat.le_refl 0) (stops_cons rfl)
    rw [List.append_assoc, readItems, List.cons_append, hitem]
    show (readItems fuel (ts' ++ rest)).map _ = _
    rw [ih' fuel rest (by omega)]
    rfl

/-- Tokens that denote an expression are read as that expression. -/
theorem ofTokens_of_denotes {ts : List Token} {e : Expr String} (h : Denotes ts (.level 0 e)) :
    ofTokens ts = some e := by
  have hread : Expr.readExpr (4 * ts.length + 4) 0 (ts ++ []) = some (e, []) :=
    h.readable.readExpr h.length_pos (by omega) (Nat.le_refl 0) (stops_nil 0)
  rw [List.append_nil] at hread
  rw [ofTokens, hread]

/-! ## What is read -/

/-- An operator between two operands binds less tightly than any other node. -/
theorem precedence_lt (op : BinaryOp) : op.precedence < 7 := by
  cases op <;> decide

/-- An expression of some level is one of every lower level. -/
theorem Denotes.mono {ts : List Token} {least n : Nat} {e : Expr String}
    (h : Denotes ts (.level n e)) (hle : least ≤ n) : Denotes ts (.level least e) := by
  cases h with
  | ofOperand h => exact .ofOperand h
  | binary hop hn hl hr => exact .binary hop (Nat.le_trans hle hn) hl hr

/-- A literal that is read leaves the tokens after it. -/
theorem eq_of_map_literal {literal? : Option (Expr String)} {after rest : List Token}
    {e : Expr String} (h : literal?.map (·, after) = some (e, rest)) :
    literal? = some e ∧ after = rest := by
  obtain ⟨e', he, h⟩ := Option.map_eq_some_iff.1 h
  cases h
  exact ⟨he, rfl⟩

/-- A sign or a negation that is read denotes one with its operand, if what is read as operands with
this fuel denotes them. -/
theorem denotes_of_map_unary {fuel : Nat} {op : UnaryOp} {t : Token} {after rest : List Token}
    {e : Expr String} (hoperands : ∀ ts rest e, readOperand fuel ts = some (e, rest) →
      ∃ pre, ts = pre ++ rest ∧ Denotes pre (.operand e))
    (h : (readOperand fuel after).map (fun read => (unary op read.1, read.2)) = some (e, rest))
    (hunary : ∀ pre operand, after = pre ++ rest → Denotes pre (.operand operand) →
      Denotes (t :: pre) (.operand (unary op operand))) :
    ∃ pre, t :: after = pre ++ rest ∧ Denotes pre (.operand e) := by
  obtain ⟨⟨operand, rest'⟩, hread, h⟩ := Option.map_eq_some_iff.1 h
  cases h
  obtain ⟨pre, hpre, hdenotes⟩ := hoperands after rest' operand hread
  exact ⟨t :: pre, congrArg (t :: ·) hpre, hunary pre operand hpre hdenotes⟩

mutual
/-- What is read as an expression denotes it, and no operator of its level follows. -/
theorem denotes_of_readExpr : ∀ (fuel least : Nat) (ts rest : List Token) (e : Expr String),
    readExpr fuel least ts = some (e, rest) →
      ∃ pre, ts = pre ++ rest ∧ Denotes pre (.level least e) ∧ Stops least rest
  | 0, _, _, _, _, h => nomatch h
  | fuel + 1, least, ts, rest, e, h => by
    rw [readExpr] at h
    obtain ⟨⟨left, after⟩, hleft, hnext⟩ := Option.bind_eq_some_iff.1 h
    obtain ⟨pre, rfl, hdenotes⟩ := denotes_of_readOperand fuel ts after left hleft
    have hafter : Stops (least + 6 + 1) after := fun _ _ op _ =>
      Nat.lt_of_lt_of_le (precedence_lt op) (by omega)
    obtain ⟨mid, rfl, hwhole, hstops⟩ := denotes_of_readOperators fuel least after rest left e hnext
      pre (least + 6) (by omega) (.ofOperand hdenotes) hafter
    exact ⟨pre ++ mid, (List.append_assoc pre mid rest).symm, hwhole, hstops⟩

/-- What is read after a left operand denotes an expression together with it, if the operators that
follow have no greater precedence than the one in the left operand. -/
theorem denotes_of_readOperators : ∀ (fuel least : Nat) (ts rest : List Token)
    (left e : Expr String), readOperators fuel least left ts = some (e, rest) →
    ∀ (pre : List Token) (n : Nat), least ≤ n → Denotes pre (.level n left) → Stops (n + 1) ts →
      ∃ mid, ts = mid ++ rest ∧ Denotes (pre ++ mid) (.level least e) ∧ Stops least rest
  | 0, _, _, _, _, _, h => nomatch h
  | fuel + 1, least, ts, rest, left, e, h => by
    intro pre n hle hleft hstops
    have hdone : Stops least ts → left = e ∧ ts = rest →
        ∃ mid, ts = mid ++ rest ∧ Denotes (pre ++ mid) (.level least e) ∧ Stops least rest := by
      rintro hends ⟨rfl, rfl⟩
      exact ⟨[], rfl, by rw [List.append_nil]; exact hleft.mono hle, hends⟩
    cases ts with
    | nil =>
      cases h
      exact hdone (stops_nil least) ⟨rfl, rfl⟩
    | cons t ts =>
      rw [readOperators] at h
      cases hop : t.binaryOp? with
      | none =>
        rw [hop] at h
        cases h
        exact hdone (stops_cons hop) ⟨rfl, rfl⟩
      | some op =>
        rw [hop] at h
        by_cases hleast : least ≤ op.precedence
        · replace h := (if_pos hleast).symm.trans h
          obtain ⟨⟨right, after⟩, hright, hnext⟩ := Option.bind_eq_some_iff.1 h
          obtain ⟨preRight, rfl, hdenotes, hafter⟩ :=
            denotes_of_readExpr fuel (op.precedence + 1) ts after right hright
          have hn : op.precedence ≤ n := Nat.lt_succ_iff.1 (hstops t rfl op hop)
          have hbinary := Denotes.binary hop (Nat.le_refl _) (hleft.mono hn) hdenotes
          obtain ⟨mid, rfl, hwhole, hends⟩ := denotes_of_readOperators fuel least after rest _ e hnext
            _ op.precedence hleast hbinary hafter
          refine ⟨t :: preRight ++ mid, ?_, ?_, hends⟩
          · rw [List.cons_append, List.cons_append, List.append_assoc]
          · rwa [← List.append_assoc]
        · replace h := (if_neg hleast).symm.trans h
          cases h
          refine hdone (fun t' ht op' hop' => ?_) ⟨rfl, rfl⟩
          cases ht
          cases hop.symm.trans hop'
          exact Nat.not_le.1 hleast

/-- What is read as an operand denotes it. -/
theorem denotes_of_readOperand : ∀ (fuel : Nat) (ts rest : List Token) (e : Expr String),
    readOperand fuel ts = some (e, rest) → ∃ pre, ts = pre ++ rest ∧ Denotes pre (.operand e)
  | 0, _, _, _, h => nomatch h
  | fuel + 1, ts, rest, e, h => by
    unfold readOperand at h
    have hoperands := denotes_of_readOperand fuel
    split at h
    · next n after =>
      obtain ⟨hliteral, rfl⟩ := eq_of_map_literal h
      exact ⟨[.minus true, .integer n], rfl, .negativeInteger hliteral⟩
    · next d after =>
      obtain ⟨hliteral, rfl⟩ := eq_of_map_literal h
      exact ⟨[.minus true, .decimal d], rfl, .negativeDecimal hliteral⟩
    · next glued after hinteger hdecimal =>
      refine denotes_of_map_unary hoperands h fun pre operand hpre hdenotes => ?_
      refine .negative (fun hglued t ht => ?_) hdenotes
      obtain ⟨pre, rfl⟩ := List.head?_eq_some_iff.1 ht
      cases t with
      | integer n => exact (hinteger n _ hpre hglued).elim
      | decimal d => exact (hdecimal d _ hpre hglued).elim
      | _ => rfl
    · exact denotes_of_map_unary hoperands h fun pre operand _ hdenotes => .positive hdenotes
    · exact denotes_of_map_unary hoperands h fun pre operand _ hdenotes => .not hdenotes
    · next n after =>
      obtain ⟨hliteral, rfl⟩ := eq_of_map_literal h
      exact ⟨[.integer n], rfl, .integer hliteral⟩
    · next d after =>
      obtain ⟨hliteral, rfl⟩ := eq_of_map_literal h
      exact ⟨[.decimal d], rfl, .decimal hliteral⟩
    · next s after =>
      cases h
      exact ⟨[.string s], rfl, .string⟩
    · next s after =>
      cases h
      exact ⟨[.word s], rfl, .word⟩
    · next after =>
      cases h
      exact ⟨[.leftBracket, .rightBracket], rfl, .emptyList⟩
    · next after _ =>
      obtain ⟨⟨es, after'⟩, hitems, h⟩ := Option.map_eq_some_iff.1 h
      cases h
      obtain ⟨pre, rfl, hdenotes⟩ := denotes_of_readItems fuel after _ es hitems
      exact ⟨.leftBracket :: pre, rfl, .list hdenotes⟩
    · next after =>
      split at h
      · next e' after' hinner =>
        cases h
        obtain ⟨pre, rfl, hdenotes, -⟩ := denotes_of_readExpr fuel 0 after _ _ hinner
        refine ⟨.leftParen :: (pre ++ [.rightParen]), ?_, .parens hdenotes⟩
        rw [List.cons_append, List.append_assoc]
        rfl
      · cases h
    · cases h

/-- What is read as the items of a list denotes them. -/
theorem denotes_of_readItems : ∀ (fuel : Nat) (ts rest : List Token) (es : List (Expr String)),
    readItems fuel ts = some (es, rest) → ∃ pre, ts = pre ++ rest ∧ Denotes pre (.items es)
  | 0, _, _, _, h => nomatch h
  | fuel + 1, ts, rest, es, h => by
    rw [readItems] at h
    split at h
    · next e after hitem =>
      obtain ⟨⟨es', after'⟩, hitems, h⟩ := Option.map_eq_some_iff.1 h
      cases h
      obtain ⟨pre, rfl, hdenotes, -⟩ := denotes_of_readExpr fuel 0 ts _ e hitem
      obtain ⟨pre', rfl, hdenotes'⟩ := denotes_of_readItems fuel after _ es' hitems
      refine ⟨pre ++ .comma :: pre', ?_, .more hdenotes hdenotes'⟩
      rw [List.append_assoc]
      rfl
    · next e after hitem =>
      cases h
      obtain ⟨pre, rfl, hdenotes, -⟩ := denotes_of_readExpr fuel 0 ts _ e hitem
      refine ⟨pre ++ [.rightBracket], ?_, .last hdenotes⟩
      rw [List.append_assoc]
      rfl
    · cases h
end

/-- The expression that tokens denote is read, and no other. -/
theorem ofTokens_eq_some_iff {ts : List Token} {e : Expr String} :
    ofTokens ts = some e ↔ Denotes ts (.level 0 e) := by
  refine ⟨fun h => ?_, ofTokens_of_denotes⟩
  rw [ofTokens] at h
  split at h
  · next e' hread =>
    cases h
    obtain ⟨pre, rfl, hdenotes, -⟩ := denotes_of_readExpr _ 0 ts [] e hread
    rwa [List.append_nil]
  · cases h

end Expr

end SearchSpace
