import SearchSpace.Proofs.Expr.Resolution

/-!
# The grammar of texts

`Derives cs phrase` is the grammar of expressions as texts, without tokens and without an order in
which anything is tried. A text that it derives has tokens that denote the expression
(`Derives.writes`), and where tokens that a text has denote an expression, the text is derived
(`derives_of_denotes`): no token is longer or shorter than the grammar wants it. So a text is read
just if the grammar derives it, and then it has one tree (`ofText_eq_some_iff`).
-/

namespace SearchSpace.Expr

open Decimal.Numeral (IsDigits)
open Token (isBlank startsWithDigit Lexes)

/-! ## The grammar -/

/-- A number with a minus sign right before it, or without one. -/
def signed (negative : Bool) (cs : List Char) : List Char :=
  if negative then '-' :: cs else cs

/-- A text is that of a phrase. -/
inductive Derives : List Char → Phrase → Prop where
  | ofOperand {least : Nat} {cs : List Char} {e : Expr String} :
    Derives cs (.operand e) → Derives cs (.level least e)
  | binary {least : Nat} {op : BinaryOp} {cs cs' : List Char} {l r : Expr String} :
    least ≤ op.precedence → Derives cs (.level op.precedence l) →
      Derives cs' (.level (op.precedence + 1) r) →
      Derives (cs ++ op.symbol.toList ++ cs') (.level least (binary op l r))
  /-- A minus sign right before a digit is no operator but belongs to the number. -/
  | unary {op : UnaryOp} {cs : List Char} {e : Expr String} :
    (op = .negative → startsWithDigit cs = false) → Derives cs (.operand e) →
      Derives (op.symbol.toList ++ cs) (.operand (unary op e))
  | integer {negative : Bool} {cs : List Char} {n : Int64} :
    IsDigits cs → n.toInt = (if negative then -(Decimal.ofDigits cs : Int) else Decimal.ofDigits cs) →
      Derives (signed negative cs) (.operand (literal (.int n)))
  | decimal {negative : Bool} {cs : List Char} {n : Decimal.Numeral} :
    Decimal.Numeral.IsText cs n → n.fraction.isSome = true ∨ n.exponent.isSome = true →
      n.toDecimal.toFloat.isFinite = true →
      Derives (signed negative cs) (.operand (literal (.float
        (.ofFloat (if negative then -n.toDecimal.toFloat else n.toDecimal.toFloat)))))
  | string {text cs : List Char} : Quoted.IsBody text cs →
    Derives ('"' :: text) (.operand (literal (.string (String.ofList cs))))
  | none : Derives "none".toList (.operand (literal .none))
  | bool (b : Bool) :
    Derives (if b then "true" else "false").toList (.operand (literal (.bool b)))
  | name {s : String} : isIdentifier s = true → Derives s.toList (.operand (var s))
  | parens {cs : List Char} {e : Expr String} :
    Derives cs (.level 0 e) → Derives ('(' :: cs ++ [')']) (.operand e)
  | emptyList {cs : List Char} : (∀ c ∈ cs, isBlank c = true) →
    Derives ('[' :: (cs ++ [']'])) (.operand (list []))
  | list {cs : List Char} {es : List (Expr String)} :
    Derives cs (.items es) → Derives ('[' :: cs) (.operand (list es))
  | last {cs : List Char} {e : Expr String} :
    Derives cs (.level 0 e) → Derives (cs ++ [']']) (.items [e])
  | more {cs cs' : List Char} {e : Expr String} {es : List (Expr String)} :
    Derives cs (.level 0 e) → Derives cs' (.items es) → Derives (cs ++ ',' :: cs') (.items (e :: es))
  | spaced {before cs after : List Char} {phrase : Phrase} :
    (∀ c ∈ before ++ after, isBlank c = true) → Derives cs phrase →
      Derives (before ++ cs ++ after) phrase

/-! ## Texts that are derived are read -/

/-- The literal of an integer is that of the number with 64 bits, where there is one. -/
theorem integerLiteral_eq_some {negative : Bool} {n : Nat} {e : Expr String} :
    integerLiteral negative n = some e ↔
      ∃ m : Int64, m.toInt = (if negative then -(n : Int) else n) ∧ literal (.int m) = e := by
  simp only [integerLiteral, Option.map_eq_some_iff, Integer.fit?_eq_some_iff]

/-- The literal of a decimal is that of the nearest number, where this is finite. -/
theorem decimalLiteral_eq_some {negative : Bool} {d : Decimal} {e : Expr String} :
    decimalLiteral negative d = some e ↔ d.toFloat.isFinite = true ∧
      literal (.float (.ofFloat (if negative then -d.toFloat else d.toFloat))) = e := by
  rw [decimalLiteral]
  split
  · next h => simp [h]
  · next h => simp [h]

/-- No phrase starts with an equality sign. -/
theorem Derives.eq_cons {cs : List Char} {phrase : Phrase} (h : Derives cs phrase) :
    ∃ c cs', cs = c :: cs' ∧ c ≠ '=' := by
  have hdigit : ∀ {negative : Bool} {c : Char} {cs : List Char}, c.isDigit = true →
      ∃ c' cs', signed negative (c :: cs) = c' :: cs' ∧ c' ≠ '=' := by
    intro negative c cs hc
    cases negative with
    | true => exact ⟨'-', _, rfl, by decide⟩
    | false =>
      refine ⟨c, cs, rfl, ?_⟩
      rintro rfl
      cases hc
  induction h with
  | ofOperand _ ih => exact ih
  | binary _ _ _ ih _ | last _ ih | more _ _ ih _ =>
    obtain ⟨c, cs', rfl, hc⟩ := ih
    exact ⟨c, _, rfl, hc⟩
  | @unary op _ _ _ _ _ => cases op <;> exact ⟨_, _, rfl, by decide⟩
  | integer hdigits _ =>
    obtain ⟨c, cs', rfl, hc⟩ := hdigits.eq_cons
    exact hdigit hc
  | decimal htext _ _ =>
    obtain ⟨c, cs', rfl, hc⟩ := htext.eq_cons
    exact hdigit hc
  | name hname =>
    obtain ⟨c, cs', hlist, hc, -⟩ := toList_name ⟨_, hname⟩
    refine ⟨c, cs', hlist, ?_⟩
    rintro rfl
    cases hc
  | bool b => cases b <;> exact ⟨_, _, rfl, by decide⟩
  | @spaced before _ _ _ hblank _ ih =>
    cases before with
    | nil =>
      obtain ⟨c, cs', rfl, hc⟩ := ih
      exact ⟨c, _, rfl, hc⟩
    | cons c before =>
      refine ⟨c, _, rfl, ?_⟩
      rintro rfl
      cases hblank '=' List.mem_cons_self
  | _ => exact ⟨_, _, rfl, by decide⟩

/-- A text that the grammar derives has tokens that denote the same. -/
theorem Derives.writes {cs : List Char} {phrase : Phrase} (h : Derives cs phrase) :
    Writes cs phrase := by
  induction h with
  | ofOperand _ ih => exact ih.ofOperand _
  | binary hleast _ hright ihl ihr =>
    obtain ⟨c, cs', rfl, hc⟩ := hright.eq_cons
    exact ihl.operator hleast ihr hc
  | unary hdigit hoperand ih =>
    obtain ⟨c, cs', rfl, hc⟩ := hoperand.eq_cons
    exact .unary _ ih hc hdigit
  | @integer negative cs n hdigits hn =>
    have hliteral := integerLiteral_eq_some.2 ⟨n, hn, rfl⟩
    cases negative with
    | true => exact ⟨_, Token.spells_negative_digits hdigits, .negativeInteger hliteral⟩
    | false => exact ⟨_, Token.spells_digits hdigits, .integer hliteral⟩
  | @decimal negative cs n htext hparts hfinite =>
    have hliteral : decimalLiteral negative n.toDecimal = some _ :=
      decimalLiteral_eq_some.2 ⟨hfinite, rfl⟩
    have htoken := Token.ofNumeral_of_isSome hparts
    cases negative with
    | true =>
      have hspells := Token.spells_negative htext
      rw [htoken] at hspells
      exact ⟨_, hspells, .negativeDecimal hliteral⟩
    | false =>
      have hspells := Token.spells_numeral htext
      rw [htoken] at hspells
      exact ⟨_, hspells, .decimal hliteral⟩
  | string hbody => exact ⟨_, Token.spells_quoted hbody, .string⟩
  | none => exact @writes_literal .none trivial
  | bool b =>
    cases b with
    | true => exact @writes_literal (.bool true) trivial
    | false => exact @writes_literal (.bool false) trivial
  | name hname => exact writes_name ⟨_, hname⟩
  | parens _ ih => exact ih.parens
  | emptyList hblank => exact writes_blankList hblank
  | list _ ih => exact ih.list
  | last _ ih => exact ih.last
  | more _ _ ih ih' => exact ih.more ih'
  | spaced hblank _ ih => exact ih.spaced hblank

/-! ## Texts that are read are derived -/

/-- Blanks before a text do not matter. -/
theorem Derives.afterBlanks {before cs : List Char} {phrase : Phrase} (h : Derives cs phrase)
    (hblank : ∀ c ∈ before, isBlank c = true) : Derives (before ++ cs) phrase := by
  have hspaced := @Derives.spaced before cs [] phrase (by rwa [List.append_nil]) h
  rwa [List.append_nil] at hspaced

/-- Blanks after a text do not matter. -/
theorem Derives.beforeBlanks {cs after : List Char} {phrase : Phrase} (h : Derives cs phrase)
    (hblank : ∀ c ∈ after, isBlank c = true) : Derives (cs ++ after) phrase :=
  @Derives.spaced [] cs after phrase hblank h

/-- Where a text starts with a digit, its first token does. -/
theorem cons_inv_of_digit {cs : List Char} {t : Token} {ts : List Token} (h : Lexes cs (t :: ts))
    (hdigit : startsWithDigit cs = true) :
    ∃ pre rest, cs = pre ++ rest ∧ Token.IsText rest pre t ∧ startsWithDigit pre = true ∧
      Lexes rest ts := by
  obtain ⟨before, pre, rest, rfl, hbefore, htext, hrest⟩ := h.cons_inv
  cases before with
  | nil =>
    refine ⟨pre, rest, rfl, htext, ?_, hrest⟩
    cases pre with
    | nil => exact absurd rfl htext.ne_nil
    | cons c pre => exact hdigit
  | cons c before =>
    have hc : c.isDigit = true := hdigit
    have hblank := Token.isBlank_of_isWordChar (Token.isWordChar_of_isDigit hc)
    rw [hbefore c List.mem_cons_self] at hblank
    cases hblank

/-- A token that starts with a digit is a number. -/
theorem isNumber_of_isText {rest cs : List Char} {t : Token} (h : Token.IsText rest cs t)
    (hdigit : startsWithDigit cs = true) : t.isNumber = true := by
  cases h with
  | integer _ | decimal _ _ => rfl
  | @word c cs hc _ =>
    rw [startsWithDigit] at hdigit
    have hc' := (Token.isWordChar_of_isWordStart hc).2
    cases hdigit.symm.trans hc'
  | @operator op _ _ => cases op <;> cases hdigit
  | _ => cases hdigit

/-- A word is derived as what it stands for. -/
theorem derives_word {c : Char} {cs : List Char} (hc : isWordStart c = true)
    (hcs : ∀ c ∈ cs, isWordChar c = true) :
    Derives (c :: cs) (.operand (ofWord (String.ofList (c :: cs)))) := by
  have hlist : (String.ofList (c :: cs)).toList = c :: cs := String.toList_ofList
  generalize String.ofList (c :: cs) = s at hlist
  rw [← hlist, ofWord]
  split_ifs with hnone htrue hfalse
  · rw [eq_of_beq hnone]
    exact .none
  · rw [eq_of_beq htrue]
    exact .bool true
  · rw [eq_of_beq hfalse]
    exact .bool false
  · refine .name ?_
    have hall : cs.all isWordChar = true := List.all_eq_true.2 hcs
    simp [isIdentifier, isKeyword, hlist, hc, hall, hnone, htrue, hfalse]

/-- In each text that starts with some tokens, what they stand in has a property. -/
def Yields (ts : List Token) (P : List Char → Prop) : Prop :=
  ∀ (cs : List Char) (ts' : List Token), Lexes cs (ts ++ ts') →
    ∃ pre rest, cs = pre ++ rest ∧ P pre ∧ Lexes rest ts'

/-- A token yields a phrase that is derived from each of its texts. -/
theorem yields_token {t : Token} {phrase : Phrase}
    (h : ∀ rest cs, Token.IsText rest cs t → Derives cs phrase) : Yields [t] (Derives · phrase) := by
  intro cs ts' hlexes
  obtain ⟨before, text, rest, rfl, hbefore, htext, hrest⟩ := hlexes.cons_inv
  refine ⟨before ++ text, rest, (List.append_assoc _ _ _).symm, ?_, hrest⟩
  exact (h rest text htext).afterBlanks hbefore

/-- A token and what comes after it yield a phrase that is derived from the texts of both. -/
theorem Yields.cons {t : Token} {ts : List Token} {P : List Char → Prop} {phrase : Phrase}
    (h : Yields ts P) (hderive : ∀ cs pre rest ts', Token.IsText (pre ++ rest) cs t →
      Lexes (pre ++ rest) (ts ++ ts') → P pre → Derives (cs ++ pre) phrase) :
    Yields (t :: ts) (Derives · phrase) := by
  intro cs ts' hlexes
  obtain ⟨before, text, after, rfl, hbefore, htext, hafter⟩ := hlexes.cons_inv
  obtain ⟨pre, rest, rfl, hpre, hrest⟩ := h after ts' hafter
  refine ⟨before ++ (text ++ pre), rest, by simp, ?_, hrest⟩
  exact (hderive text pre rest ts' htext hafter hpre).afterBlanks hbefore

/-- A phrase and the token after it have the texts of both. -/
theorem Yields.concat {t : Token} {ts : List Token} {phrase : Phrase} {P : List Char → Prop}
    (h : Yields ts (Derives · phrase)) (hderive : ∀ cs rest pre, Token.IsText rest cs t →
      Derives pre phrase → P (pre ++ cs)) : Yields (ts ++ [t]) P := by
  intro cs ts' hlexes
  rw [List.append_assoc] at hlexes
  obtain ⟨pre, after, rfl, hphrase, hafter⟩ := h cs _ hlexes
  obtain ⟨before, text, rest, rfl, hbefore, htext, hrest⟩ := hafter.cons_inv
  refine ⟨pre ++ before ++ text, rest, by simp, ?_, hrest⟩
  exact hderive text rest (pre ++ before) htext (hphrase.beforeBlanks hbefore)

/-- Two phrases and the token between them have the texts of all three. -/
theorem Yields.join {t : Token} {ts ts' : List Token} {phrase phrase' : Phrase}
    {P : List Char → Prop} (h : Yields ts (Derives · phrase)) (h' : Yields ts' (Derives · phrase'))
    (hderive : ∀ cs rest pre pre', Token.IsText rest cs t → Derives pre phrase →
      Derives pre' phrase' → P (pre ++ cs ++ pre')) : Yields (ts ++ t :: ts') P := by
  intro cs ts'' hlexes
  rw [List.append_assoc] at hlexes
  obtain ⟨pre, after, rfl, hphrase, hafter⟩ := h cs _ hlexes
  obtain ⟨before, text, after, rfl, hbefore, htext, hafter⟩ := hafter.cons_inv
  obtain ⟨pre', rest, rfl, hphrase', hrest⟩ := h' after ts'' hafter
  refine ⟨pre ++ before ++ text ++ pre', rest, by simp, ?_, hrest⟩
  exact hderive text _ _ _ htext (hphrase.beforeBlanks hbefore) hphrase'

/-- A minus sign right before a digit and the number yield an operand that is derived from the texts
of both. -/
theorem yields_negative {t : Token} {e : Expr String}
    (h : ∀ rest cs, Token.IsText rest cs t → Derives ('-' :: cs) (.operand e)) :
    Yields [.minus true, t] (Derives · (.operand e)) := by
  intro cs ts' hlexes
  obtain ⟨before, text, after, rfl, hbefore, hminus, hafter⟩ := hlexes.cons_inv
  generalize hglued : Token.minus true = minus at hminus
  cases hminus with
  | minus =>
    obtain ⟨pre, rest, rfl, htext, -, hrest⟩ :=
      cons_inv_of_digit hafter (Token.minus.inj hglued).symm
    exact ⟨before ++ '-' :: pre, rest, by simp, (h rest pre htext).afterBlanks hbefore, hrest⟩
  | _ => cases hglued

/-- A minus sign before an operand whose first token is no number, or not right before it, is not
right before a digit. -/
theorem startsWithDigit_eq_false {glued : Bool} {ts ts' : List Token} {cs pre rest : List Char}
    (hne : 0 < ts.length) (hglued : glued = true → ∀ t ∈ ts.head?, t.isNumber = false)
    (htext : Token.IsText (pre ++ rest) cs (.minus glued))
    (hlexes : Lexes (pre ++ rest) (ts ++ ts')) : startsWithDigit pre = false := by
  rw [Bool.eq_false_iff]
  intro hdigit
  have hfront : startsWithDigit (pre ++ rest) = true := by
    cases pre with
    | nil => cases hdigit
    | cons c pre => exact hdigit
  cases ts with
  | nil => exact absurd hne (Nat.lt_irrefl 0)
  | cons t ts =>
    obtain ⟨text, after, -, htoken, hdigit, -⟩ := cons_inv_of_digit hlexes hfront
    have hnumber := isNumber_of_isText htoken hdigit
    cases htext with
    | minus => cases hnumber.symm.trans (hglued hfront t rfl)

/-- An expression between parentheses yields an operand. -/
theorem Yields.parens {ts : List Token} {e : Expr String} (h : Yields ts (Derives · (.level 0 e))) :
    Yields (.leftParen :: (ts ++ [.rightParen])) (Derives · (.operand e)) := by
  have hclosed : Yields (ts ++ [.rightParen])
      fun cs => ∃ pre, cs = pre ++ [')'] ∧ Derives pre (.level 0 e) := by
    refine h.concat fun cs rest pre htext hinner => ?_
    cases htext with
    | rightParen => exact ⟨pre, rfl, hinner⟩
  refine hclosed.cons fun cs pre rest ts' htext _ hpre => ?_
  obtain ⟨inner, rfl, hinner⟩ := hpre
  cases htext with
  | leftParen => exact .parens hinner

/-- Two brackets yield the empty list. What is between them is blank but no phrase, so it is the
closing bracket that yields it. -/
theorem yields_emptyList : Yields [.leftBracket, .rightBracket] (Derives · (.operand (list []))) := by
  have hclosed : Yields [.rightBracket]
      fun cs => ∃ before, cs = before ++ [']'] ∧ ∀ c ∈ before, isBlank c = true := by
    intro cs ts' hlexes
    obtain ⟨before, text, rest, rfl, hbefore, htext, hrest⟩ := hlexes.cons_inv
    cases htext with
    | rightBracket => exact ⟨before ++ [']'], rest, by simp, ⟨before, rfl, hbefore⟩, hrest⟩
  refine hclosed.cons fun cs pre rest ts' htext _ hpre => ?_
  obtain ⟨before, rfl, hbefore⟩ := hpre
  cases htext with
  | leftBracket => exact .emptyList hbefore

/-- Tokens yield the phrase that they denote. -/
theorem Denotes.yields {ts : List Token} {phrase : Phrase} (h : Denotes ts phrase) :
    Yields ts (Derives · phrase) := by
  induction h with
  | ofOperand _ ih =>
    intro cs ts' hlexes
    obtain ⟨pre, rest, hcs, hderives, hrest⟩ := ih cs ts' hlexes
    exact ⟨pre, rest, hcs, .ofOperand hderives, hrest⟩
  | binary hop hleast _ _ ihl ihr =>
    refine ihl.join ihr fun cs rest pre pre' htext hl hr => ?_
    rw [htext.eq_symbol hop]
    exact .binary hleast hl hr
  | integer hliteral =>
    obtain ⟨m, hm, rfl⟩ := integerLiteral_eq_some.1 hliteral
    refine yields_token fun rest cs htext => ?_
    cases htext with
    | integer hdigits => exact @Derives.integer false cs m hdigits hm
  | negativeInteger hliteral =>
    obtain ⟨m, hm, rfl⟩ := integerLiteral_eq_some.1 hliteral
    refine yields_negative fun rest cs htext => ?_
    cases htext with
    | integer hdigits => exact @Derives.integer true cs m hdigits hm
  | decimal hliteral =>
    obtain ⟨hfinite, rfl⟩ := decimalLiteral_eq_some.1 hliteral
    refine yields_token fun rest cs htext => ?_
    cases htext with
    | decimal htext hparts => exact @Derives.decimal false cs _ htext hparts hfinite
  | negativeDecimal hliteral =>
    obtain ⟨hfinite, rfl⟩ := decimalLiteral_eq_some.1 hliteral
    refine yields_negative fun rest cs htext => ?_
    cases htext with
    | decimal htext hparts => exact @Derives.decimal true cs _ htext hparts hfinite
  | string =>
    refine yields_token fun rest cs htext => ?_
    generalize htoken : Token.string _ = t at htext
    cases htext with
    | string hbody =>
      cases htoken
      exact .string hbody
    | _ => cases htoken
  | word =>
    refine yields_token fun rest cs htext => ?_
    generalize htoken : Token.word _ = t at htext
    cases htext with
    | word hc hcs =>
      cases htoken
      exact derives_word hc hcs
    | _ => cases htoken
  | @negative glued ts e hglued hdenotes ih =>
    refine ih.cons fun cs pre rest ts' htext hlexes hoperand => ?_
    have hdigit := startsWithDigit_eq_false hdenotes.length_pos hglued htext hlexes
    cases htext with
    | minus => exact @Derives.unary .negative _ _ (fun _ => hdigit) hoperand
  | positive _ ih =>
    refine ih.cons fun cs pre rest ts' htext _ hoperand => ?_
    cases htext with
    | plus => exact @Derives.unary .positive _ _ (fun hop => nomatch hop) hoperand
  | not _ ih =>
    refine ih.cons fun cs pre rest ts' htext _ hoperand => ?_
    cases htext with
    | not => exact @Derives.unary .not _ _ (fun hop => nomatch hop) hoperand
  | parens _ ih => exact ih.parens
  | emptyList => exact yields_emptyList
  | list _ ih =>
    refine ih.cons fun cs pre rest ts' htext _ hitems => ?_
    cases htext with
    | leftBracket => exact .list hitems
  | last _ ih =>
    refine ih.concat fun cs rest pre htext hitem => ?_
    cases htext with
    | rightBracket => exact .last hitem
  | more _ _ ih ih' =>
    refine ih.join ih' fun cs rest pre pre' htext hitem hitems => ?_
    cases htext with
    | comma =>
      rw [List.append_assoc]
      exact .more hitem hitems

/-- A text is read as an expression over names just if the grammar derives it. -/
theorem ofText_eq_some_iff {text : String} {t : Expr String} :
    ofText text = some t ↔ Derives text.toList (.level 0 t) := by
  constructor
  · intro h
    obtain ⟨ts, hts, h⟩ := Option.bind_eq_some_iff.1 h
    have hlexes := Token.ofChars_eq_some_iff.1 hts
    rw [← List.append_nil ts] at hlexes
    obtain ⟨pre, rest, htext, hderives, hrest⟩ :=
      (ofTokens_eq_some_iff.1 h).yields _ [] hlexes
    rw [htext]
    exact hderives.beforeBlanks hrest.isBlank_of_nil
  · intro h
    have hread := ofText_of_writes h.writes
    rwa [String.ofList_toList] at hread

/-! ## Reading in a scope -/

/-- A text is read in a scope just if the grammar derives it with names of parameters of the scope,
every list is the whole expression or the right operand of `#`, none is in another one, and every
`#` has one. What is read is then the one tree that is derived, with the parameters for their names;
otherwise the expression is invalid. -/
theorem read_iff_derives (scope : Scope) (text : String) :
    (∀ e, read scope text = .ok e ↔ Derives text.toList (.level 0 (e.rename (·.name.text))) ∧
        (∀ p ∈ e.vars, p ∈ scope.parameters) ∧
        ∀ node ∈ e.subtrees, node.PlacesLists ∧ node.HasMembers) ∧
      (∀ t, Derives text.toList (.level 0 t) →
        (∀ name ∈ t.vars, ∃ p ∈ scope.parameters, p.name.text = name) →
        (∀ node ∈ t.subtrees, node.PlacesLists ∧ node.HasMembers) →
        ∃ e, read scope text = .ok e) ∧
      (∀ t t', Derives text.toList (.level 0 t) → Derives text.toList (.level 0 t') → t = t') ∧
      ((∃ e, read scope text = .ok e) ∨
        ∃ fault, read scope text = .error (.invalidExpression fault)) := by
  have hread : ∀ t, ofText text = some t → read scope text = t.resolve (parameterOf scope) := by
    intro t ht
    rw [read, ht]
  refine ⟨fun e => ?_, fun t ht hnames hplaces => ?_, fun t t' ht ht' => ?_, ?_⟩
  · rw [← ofText_eq_some_iff, ← finds_parameterOf, ← made_iff]
    have hresolve := fun t => @resolve_eq_ok _ _ (·.name.text) (parameterOf scope)
      (fun _ _ hp => (name_of_parameterOf hp).1) t e
    constructor
    · intro h
      cases ht : ofText text with
      | none =>
        rw [read, ht] at h
        cases h
      | some t =>
        obtain ⟨rfl, hvars, hmade⟩ := (hresolve t).1 ((hread t ht).symm.trans h)
        exact ⟨rfl, hvars, hmade⟩
    · rintro ⟨ht, hvars, hmade⟩
      exact (hread _ ht).trans ((hresolve _).2 ⟨rfl, hvars, hmade⟩)
  · have hfind : ∀ name ∈ t.vars, ∃ p, parameterOf scope name = .ok p := by
      intro name hname
      obtain ⟨p, hp, rfl⟩ := hnames name hname
      exact ⟨p, finds_parameterOf.2 (List.forall_mem_singleton.2 hp) p (List.mem_singleton_self p)⟩
    obtain ⟨e, he, -⟩ := exists_resolve t hfind hplaces
    exact ⟨e, (hread t (ofText_eq_some_iff.2 ht)).trans he⟩
  · exact Option.some.inj
      ((ofText_eq_some_iff.2 ht).symm.trans (ofText_eq_some_iff.2 ht'))
  · have hlands := lands_read scope text
    cases h : read scope text with
    | ok e => exact .inl ⟨e, rfl⟩
    | error err =>
      rw [h] at hlands
      obtain ⟨fault, rfl⟩ := hlands
      exact .inr ⟨fault, rfl⟩

/-- It is not enough that the lists have their places: the grammar lets `#` have a number on its
right, which is no list out of place, but such a text is not read. -/
theorem read_needs_members :
    Derives "width # 1".toList (.level 0 (.binary .member (.var "width") (.literal (.int 1)))) ∧
      (∀ name ∈ (binary .member (.var "width") (.literal (.int 1)) : Expr String).vars,
        ∃ p ∈ ranges.parameters, p.name.text = name) ∧
      (∀ node ∈ (binary .member (.var "width") (.literal (.int 1)) : Expr String).subtrees,
        node.PlacesLists) ∧
      read ranges "width # 1" = .error (.invalidExpression .listExpected) := by
  have hname : Derives "width".toList (.operand (.var "width")) := .name (by decide)
  have hnumber : Derives ['1'] (.operand (.literal (.int 1))) :=
    @Derives.integer false ['1'] 1 ⟨by simp, by simp⟩ (by decide)
  have hblank : ∀ c ∈ [' '], isBlank c = true := List.forall_mem_singleton.2 rfl
  have hleft := hname.beforeBlanks hblank
  have hright := hnumber.afterBlanks hblank
  have hderives : Derives "width # 1".toList
      (.level 0 (.binary .member (.var "width") (.literal (.int 1)))) :=
    @Derives.binary 0 .member _ _ _ _ (Nat.zero_le _) (.ofOperand hleft) (.ofOperand hright)
  refine ⟨hderives, ?_, ?_, ?_⟩
  · intro name hname
    obtain rfl : name = "width" := by simpa [vars] using hname
    exact ⟨Assignment.width, List.mem_cons_self, rfl⟩
  · intro node hnode
    have hcases : node = .binary .member (.var "width") (.literal (.int 1)) ∨
        node = .var "width" ∨ node = .literal (.int 1) := by simpa [subtrees] using hnode
    rcases hcases with rfl | rfl | rfl <;> simp [PlacesLists, isList]
  · rw [read, ofText_eq_some_iff.2 hderives]
    rfl

end SearchSpace.Expr
