import SearchSpace.Expr.Lexer
import SearchSpace.Proofs.Decimal.Numeral

/-!
# Texts and their tokens

`Token.IsText` says which texts a token has, and each token that is found has such a text
(`isText_of_next?`). `Lexes cs ts` says that a text has some tokens, one after the other with blanks
between; these are the tokens that are found (`ofChars_eq_some_iff`).
-/

namespace SearchSpace

namespace Token

/-! ## The text of a token -/

/-- The texts of a token in front of a rest, on which only the token of a minus sign depends. -/
inductive IsText (rest : List Char) : List Char → Token → Prop where
  | integer {cs : List Char} :
    Decimal.Numeral.IsDigits cs → IsText rest cs (integer (Decimal.ofDigits cs))
  | decimal {cs : List Char} {n : Decimal.Numeral} : Decimal.Numeral.IsText cs n →
    n.fraction.isSome = true ∨ n.exponent.isSome = true → IsText rest cs (decimal n.toDecimal)
  | string {text cs : List Char} :
    Quoted.IsBody text cs → IsText rest ('"' :: text) (string (String.ofList cs))
  | word {c : Char} {cs : List Char} : isWordStart c = true → (∀ c ∈ cs, isWordChar c = true) →
    IsText rest (c :: cs) (word (String.ofList (c :: cs)))
  | operator {op : BinaryOp} : op ≠ .add → op ≠ .subtract →
    IsText rest op.symbol.toList (operator op)
  | plus : IsText rest ['+'] plus
  | minus : IsText rest ['-'] (minus (startsWithDigit rest))
  | not : IsText rest ['!'] not
  | leftParen : IsText rest ['('] leftParen
  | rightParen : IsText rest [')'] rightParen
  | leftBracket : IsText rest ['['] leftBracket
  | rightBracket : IsText rest [']'] rightBracket
  | comma : IsText rest [','] comma

/-- A numeral with a fraction or an exponent has a decimal as its token. -/
theorem ofNumeral_of_isSome {n : Decimal.Numeral}
    (h : n.fraction.isSome = true ∨ n.exponent.isSome = true) :
    ofNumeral n = decimal n.toDecimal := by
  refine if_neg fun hnone => ?_
  rw [Option.isNone_iff_eq_none, Option.isNone_iff_eq_none] at hnone
  rw [hnone.1, hnone.2] at h
  rcases h with h | h <;> cases h

/-- A text of a numeral is one of its token. -/
theorem isText_ofNumeral {cs : List Char} {n : Decimal.Numeral} (h : Decimal.Numeral.IsText cs n)
    (rest : List Char) : IsText rest cs (ofNumeral n) := by
  by_cases hparts : n.fraction.isSome = true ∨ n.exponent.isSome = true
  · rw [ofNumeral_of_isSome hparts]
    exact .decimal h hparts
  · obtain ⟨hdigits, hfraction, hexponent⟩ := h
    cases hfraction with
    | digits _ => exact absurd (.inl rfl) hparts
    | none =>
      cases hexponent with
      | none =>
        rw [List.append_nil, List.append_nil]
        exact .integer hdigits
      | _ => exact absurd (.inr rfl) hparts

/-- The symbol of an operator is the only text of a token that stands for it. -/
theorem IsText.eq_symbol {rest cs : List Char} {t : Token} {op : BinaryOp} (h : IsText rest cs t)
    (hop : t.binaryOp? = some op) : cs = op.symbol.toList := by
  cases h <;> cases hop <;> rfl

/-- A token has a text that is not empty. -/
theorem IsText.ne_nil {rest cs : List Char} {t : Token} (h : IsText rest cs t) : cs ≠ [] := by
  cases h with
  | integer hdigits => exact hdigits.ne_nil
  | decimal htext _ =>
    obtain ⟨c, cs', rfl, -⟩ := htext.eq_cons
    exact List.cons_ne_nil c cs'
  | @operator op _ _ => cases op <;> exact List.cons_ne_nil _ _
  | _ => exact List.cons_ne_nil _ _

/-! ## Finding tokens -/

/-- At a digit or the first character of a word, a number or a word is read. -/
theorem next?_of_isWordChar {c : Char} (h : isWordChar c = true) (cs : List Char) :
    next? (c :: cs) =
      if c.isDigit then some (ofNumeral (Decimal.Numeral.read (c :: cs)).1,
        (Decimal.Numeral.read (c :: cs)).2)
      else if isWordStart c then
        some (word (String.ofList (c :: cs.takeWhile isWordChar)), cs.dropWhile isWordChar)
      else none := by
  have hspecial : ∀ c', isWordChar c' = false → c ≠ c' := by
    intro c' hc' heq
    rw [heq, hc'] at h
    cases h
  unfold next?
  split
  case h_22 heq =>
    cases heq
    rfl
  case h_23 heq => cases heq
  all_goals
    next heq => exact absurd (List.cons.inj heq).1 (hspecial _ (by decide))

/-- A character of a word is no blank. -/
theorem isBlank_of_isWordChar {c : Char} (h : isWordChar c = true) : isBlank c = false := by
  rw [Bool.eq_false_iff]
  intro hblank
  have hcases : c = ' ' ∨ c = '\t' ∨ c = '\r' ∨ c = '\n' := by
    simpa [isBlank, or_assoc] using hblank
  rcases hcases with rfl | rfl | rfl | rfl <;> cases h

/-- A digit is a character of a word. -/
theorem isWordChar_of_isDigit {c : Char} (h : c.isDigit = true) : isWordChar c = true := by
  simp [isWordChar, Char.isAlphanum, h]

/-- A letter is no digit. -/
theorem isDigit_of_isAlpha {c : Char} (h : c.isAlpha = true) : c.isDigit = false := by
  have hletter : 65 ≤ c.val.toNat := by
    rcases Bool.or_eq_true_iff.1 h with hupper | hlower
    · have hrange : 65 ≤ c.val ∧ c.val ≤ 90 := of_decide_eq_true hupper
      exact UInt32.le_iff_toNat_le.1 hrange.1
    · have hleast : 97 ≤ c.val := of_decide_eq_true (Bool.and_eq_true_iff.1 hlower).1
      exact Nat.le_trans (by decide) (UInt32.le_iff_toNat_le.1 hleast)
  rw [Bool.eq_false_iff]
  intro hdigit
  have hrange : 48 ≤ c.val.toNat ∧ c.val.toNat ≤ 57 := Char.isDigit_iff_toNat.1 hdigit
  omega

/-- What starts a word is a character of it, and no digit. -/
theorem isWordChar_of_isWordStart {c : Char} (h : isWordStart c = true) :
    isWordChar c = true ∧ c.isDigit = false := by
  rw [isWordStart, Bool.or_eq_true] at h
  constructor
  · rcases h with h | h <;> simp [isWordChar, Char.isAlphanum, h]
  · rcases h with h | h
    · exact isDigit_of_isAlpha h
    · rw [eq_of_beq h]
      decide

/-- A number or a word is found with a text of it. -/
theorem isText_of_isWordChar {c : Char} {cs rest : List Char} {t : Token}
    (hc : isWordChar c = true) (h : next? (c :: cs) = some (t, rest)) :
    ∃ pre, c :: cs = pre ++ rest ∧ IsText rest pre t := by
  rw [next?_of_isWordChar hc] at h
  split at h
  · next hdigit =>
    obtain ⟨pre, hpre, htext⟩ := Decimal.Numeral.isText_read hdigit cs
    cases h
    exact ⟨pre, hpre, isText_ofNumeral htext _⟩
  · split at h
    · next hstart =>
      cases h
      refine ⟨c :: cs.takeWhile isWordChar, ?_, .word hstart ?_⟩
      · rw [List.cons_append, List.takeWhile_append_dropWhile]
      · exact List.all_eq_true.1 List.all_takeWhile
    · cases h

/-- An operator is found with its symbol. -/
theorem exists_symbol {op : BinaryOp} {cs rest : List Char} (hadd : op ≠ .add)
    (hsubtract : op ≠ .subtract) (h : cs = op.symbol.toList ++ rest) :
    ∃ pre, cs = pre ++ rest ∧ IsText rest pre (.operator op) :=
  ⟨_, h, .operator hadd hsubtract⟩

/-- A token is found with a text of it. -/
theorem isText_of_next? {cs rest : List Char} {t : Token} (h : next? cs = some (t, rest)) :
    ∃ pre, cs = pre ++ rest ∧ IsText rest pre t := by
  by_cases hword : ∃ c cs', cs = c :: cs' ∧ isWordChar c = true
  · obtain ⟨c, cs, rfl, hc⟩ := hword
    exact isText_of_isWordChar hc h
  unfold next? at h
  split at h
  case h_13 => cases h; exact ⟨['+'], rfl, .plus⟩
  case h_14 => cases h; exact ⟨['-'], rfl, .minus⟩
  case h_15 => cases h; exact ⟨['!'], rfl, .not⟩
  case h_16 => cases h; exact ⟨['('], rfl, .leftParen⟩
  case h_17 => cases h; exact ⟨[')'], rfl, .rightParen⟩
  case h_18 => cases h; exact ⟨['['], rfl, .leftBracket⟩
  case h_19 => cases h; exact ⟨[']'], rfl, .rightBracket⟩
  case h_20 => cases h; exact ⟨[','], rfl, .comma⟩
  case h_21 =>
    obtain ⟨⟨cs, rest'⟩, hdecode, h⟩ := Option.map_eq_some_iff.1 h
    cases h
    obtain ⟨pre, rfl, hbody⟩ := Quoted.isBody_of_decode hdecode
    exact ⟨'"' :: pre, rfl, .string hbody⟩
  case h_22 =>
    split at h
    · next hdigit => exact absurd ⟨_, _, rfl, isWordChar_of_isDigit hdigit⟩ hword
    · split at h
      · next hstart => exact absurd ⟨_, _, rfl, (isWordChar_of_isWordStart hstart).1⟩ hword
      · cases h
  case h_23 => cases h
  -- the operators that are no signs
  all_goals
    cases h
    exact exists_symbol (by decide) (by decide) rfl

/-! ## The tokens of a text -/

/-- A text has some tokens. -/
inductive Lexes : List Char → List Token → Prop where
  | nil : Lexes [] []
  | blank {c : Char} {cs : List Char} {ts : List Token} :
    isBlank c = true → Lexes cs ts → Lexes (c :: cs) ts
  | token {c : Char} {cs rest : List Char} {t : Token} {ts : List Token} :
    isBlank c = false → next? (c :: (cs ++ rest)) = some (t, rest) → Lexes rest ts →
      Lexes (c :: (cs ++ rest)) (t :: ts)

/-- The tokens of a text are read. -/
theorem Lexes.readAll {cs : List Char} {ts : List Token} (h : Lexes cs ts) {fuel : Nat}
    (hfuel : cs.length ≤ fuel) : Token.readAll fuel cs = some ts := by
  induction h generalizing fuel with
  | nil => cases fuel <;> rfl
  | blank hblank _ ih =>
    rw [List.length_cons] at hfuel
    obtain ⟨fuel, rfl⟩ : ∃ k, fuel = k + 1 := ⟨fuel - 1, by omega⟩
    rw [Token.readAll, if_pos hblank]
    exact ih (by omega)
  | token hblank hnext _ ih =>
    rw [List.length_cons, List.length_append] at hfuel
    obtain ⟨fuel, rfl⟩ : ∃ k, fuel = k + 1 := ⟨fuel - 1, by omega⟩
    rw [Token.readAll, if_neg (by rw [hblank]; decide), hnext]
    show (Token.readAll fuel _).bind _ = _
    rw [ih (by omega)]
    rfl

/-- The tokens that are read are those of the text. -/
theorem lexes_of_readAll {fuel : Nat} {cs : List Char} {ts : List Token}
    (h : Token.readAll fuel cs = some ts) : Lexes cs ts := by
  induction fuel generalizing cs ts with
  | zero =>
    cases cs with
    | nil => cases h; exact .nil
    | cons c cs => cases h
  | succ fuel ih =>
    cases cs with
    | nil => cases h; exact .nil
    | cons c cs =>
      rw [Token.readAll] at h
      split at h
      · next hblank => exact .blank hblank (ih h)
      · next hblank =>
        obtain ⟨⟨t, rest⟩, hnext, h⟩ := Option.bind_eq_some_iff.1 h
        obtain ⟨ts, hts, h⟩ := Option.bind_eq_some_iff.1 h
        cases h
        obtain ⟨pre, hpre, htext⟩ := isText_of_next? hnext
        cases pre with
        | nil => exact absurd rfl htext.ne_nil
        | cons c' pre =>
          rw [hpre] at hnext
          cases hpre
          exact .token (Bool.eq_false_iff.2 hblank) hnext (ih hts)

/-- The tokens of a whole text are found. -/
theorem ofChars_eq_some_iff {cs : List Char} {ts : List Token} :
    ofChars cs = some ts ↔ Lexes cs ts :=
  ⟨lexes_of_readAll, fun h => h.readAll (Nat.le_refl _)⟩

/-- The first token of a text stands after some blanks, and the others come after it. -/
theorem Lexes.cons_inv {cs : List Char} {t : Token} {ts : List Token} (h : Lexes cs (t :: ts)) :
    ∃ before pre rest, cs = before ++ (pre ++ rest) ∧ (∀ c ∈ before, isBlank c = true) ∧
      IsText rest pre t ∧ Lexes rest ts := by
  generalize hts : t :: ts = all at h
  induction h with
  | nil => cases hts
  | @blank c cs ts' hblank _ ih =>
    obtain ⟨before, pre, rest, rfl, hbefore, htext, hrest⟩ := ih hts
    exact ⟨c :: before, pre, rest, rfl, List.forall_mem_cons.2 ⟨hblank, hbefore⟩, htext, hrest⟩
  | token _ hnext hrest _ =>
    cases hts
    obtain ⟨pre, hpre, htext⟩ := isText_of_next? hnext
    exact ⟨[], pre, _, hpre, fun _ hc => absurd hc List.not_mem_nil, htext, hrest⟩

/-- A text without tokens is blank. -/
theorem Lexes.isBlank_of_nil {cs : List Char} (h : Lexes cs []) : ∀ c ∈ cs, isBlank c = true := by
  generalize hts : [] = all at h
  induction h with
  | nil => exact fun _ hc => absurd hc List.not_mem_nil
  | blank hblank _ ih => exact List.forall_mem_cons.2 ⟨hblank, ih hts⟩
  | token _ _ _ _ => cases hts

/-- Blanks before a text have no tokens. -/
theorem Lexes.blanks {before cs : List Char} {ts : List Token}
    (hbefore : ∀ c ∈ before, isBlank c = true) (h : Lexes cs ts) : Lexes (before ++ cs) ts := by
  induction before with
  | nil => exact h
  | cons c before ih =>
    obtain ⟨hc, hbefore⟩ := List.forall_mem_cons.1 hbefore
    exact .blank hc (ih hbefore)

end Token

end SearchSpace
