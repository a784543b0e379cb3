import SearchSpace.Proofs.Expr.Lexing

/-!
# Texts in front of others

What can follow an operand never goes on with a word or a number. `Spells cs ts` says that a text has
some tokens in front of any such text, and the lemmas on it follow the ways in which texts are put
together.
-/

namespace SearchSpace

namespace Token

/-! ## What follows an operand -/

/-- The characters that can follow an operand: those that go on neither with a word nor with a
number. -/
def isDelimiter (c : Char) : Bool :=
  !isWordChar c && c != '.'

/-- No more of a word or a number follows. -/
def Delimited (rest : List Char) : Prop :=
  ∀ c ∈ rest.head?, isDelimiter c = true

/-- A text has some tokens in front of what follows an operand. -/
def Spells (cs : List Char) (ts : List Token) : Prop :=
  ∀ (rest : List Char) (ts' : List Token), Delimited rest → Lexes rest ts' →
    Lexes (cs ++ rest) (ts ++ ts')

/-- What follows an operand is no part of a word. -/
theorem Delimited.not_isWordChar {rest : List Char} (h : Delimited rest) :
    ∀ c ∈ rest.head?, isWordChar c = false := by
  intro c hc
  have hdelimiter := h c hc
  rw [isDelimiter, Bool.and_eq_true, Bool.not_eq_true'] at hdelimiter
  exact hdelimiter.1

/-- What follows an operand is no part of a number. -/
theorem Delimited.ends {rest : List Char} (h : Delimited rest) : Decimal.Numeral.Ends rest := by
  intro c hc
  have hdelimiter := h c hc
  have hword := h.not_isWordChar c hc
  refine ⟨Bool.eq_false_iff.2 fun hdigit => ?_, ?_, ?_, ?_⟩
  · rw [isWordChar_of_isDigit hdigit] at hword
    cases hword
  · rintro rfl
    cases hdelimiter
  · rintro rfl
    cases hword
  · rintro rfl
    cases hword

/-- A blank can follow an operand. -/
theorem isDelimiter_of_isBlank {c : Char} (h : isBlank c = true) : isDelimiter c = true := by
  have hcases : c = ' ' ∨ c = '\t' ∨ c = '\r' ∨ c = '\n' := by
    simpa [isBlank, or_assoc] using h
  rcases hcases with rfl | rfl | rfl | rfl <;> decide

/-- What starts with a delimiter can follow an operand. -/
theorem delimited_cons {c : Char} (h : isDelimiter c = true) (rest : List Char) :
    Delimited (c :: rest) := by
  intro c' hc'
  cases hc'
  exact h

/-- A text of one token. -/
theorem spells_token {c : Char} {cs : List Char} {t : Token} (hblank : isBlank c = false)
    (h : ∀ rest, Delimited rest → next? (c :: (cs ++ rest)) = some (t, rest)) :
    Spells (c :: cs) [t] :=
  fun rest _ hrest hlexes => .token hblank (h rest hrest) hlexes

/-- A symbol in front of a text. -/
theorem Spells.cons {c : Char} {cs : List Char} {t : Token} {ts : List Token} (h : Spells cs ts)
    (hblank : isBlank c = false) (hnext : ∀ rest, Delimited rest →
      next? (c :: (cs ++ rest)) = some (t, cs ++ rest)) : Spells (c :: cs) (t :: ts) :=
  fun rest ts' hrest hlexes =>
    @Lexes.token c [] (cs ++ rest) _ _ hblank (hnext rest hrest) (h rest ts' hrest hlexes)

/-! ## Words, strings and numbers -/

/-- A word is one token. -/
theorem spells_word {c : Char} {cs : List Char} (hc : isWordStart c = true)
    (hcs : ∀ c ∈ cs, isWordChar c = true) : Spells (c :: cs) [word (String.ofList (c :: cs))] := by
  obtain ⟨hword, hdigit⟩ := isWordChar_of_isWordStart hc
  refine spells_token (isBlank_of_isWordChar hword) fun rest hrest => ?_
  obtain ⟨hrun, hafter⟩ := span_append hcs hrest.not_isWordChar
  rw [next?_of_isWordChar hword, if_neg (by rw [hdigit]; decide), if_pos hc, hrun, hafter]

/-- A text between quotes is one token. -/
theorem spells_quoted {text cs : List Char} (h : Quoted.IsBody text cs) :
    Spells ('"' :: text) [string (String.ofList cs)] := by
  refine spells_token (by decide) fun rest _ => ?_
  show (Quoted.decode (text ++ rest)).map _ = _
  rw [h.decode_append]
  rfl

/-- A quoted text is one token. -/
theorem spells_string (s : String) : Spells (Quoted.encode s.toList) [string s] := by
  have hspells := spells_quoted (Quoted.isBody_body s.toList)
  rwa [String.ofList_toList] at hspells

/-- A numeral is one token. -/
theorem spells_numeral {cs : List Char} {n : Decimal.Numeral} (h : Decimal.Numeral.IsText cs n) :
    Spells cs [ofNumeral n] := by
  obtain ⟨c, cs, rfl, hc⟩ := h.eq_cons
  have hword := isWordChar_of_isDigit hc
  refine spells_token (isBlank_of_isWordChar hword) fun rest hrest => ?_
  have hread := h.read_append hrest.ends
  rw [List.cons_append] at hread
  rw [next?_of_isWordChar hword, if_pos hc, hread]

/-- Digits are one token. -/
theorem spells_digits {cs : List Char} (h : Decimal.Numeral.IsDigits cs) :
    Spells cs [integer (Decimal.ofDigits cs)] := by
  have hspells := spells_numeral (.mk h .none .none)
  rwa [List.append_nil, List.append_nil] at hspells

/-- A minus sign before another text. -/
theorem Spells.minus {c : Char} {cs : List Char} {ts : List Token} (h : Spells (c :: cs) ts) :
    Spells ('-' :: c :: cs) (.minus c.isDigit :: ts) :=
  h.cons (by decide) fun _ _ => rfl

/-- A minus sign before a numeral belongs to it. -/
theorem spells_negative {cs : List Char} {n : Decimal.Numeral} (h : Decimal.Numeral.IsText cs n) :
    Spells ('-' :: cs) [minus true, ofNumeral n] := by
  obtain ⟨c, cs, rfl, hc⟩ := h.eq_cons
  rw [← hc]
  exact (spells_numeral h).minus

/-- A minus sign before digits belongs to them. -/
theorem spells_negative_digits {cs : List Char} (h : Decimal.Numeral.IsDigits cs) :
    Spells ('-' :: cs) [minus true, integer (Decimal.ofDigits cs)] := by
  have hspells := spells_negative (.mk h .none .none)
  rwa [List.append_nil, List.append_nil] at hspells

/-- The tokens of an integer. -/
def ofInt (z : Int) : List Token :=
  if z < 0 then [minus true, integer z.natAbs] else [integer z.natAbs]

/-- An integer with its sign. -/
theorem spells_int (z : Int) : Spells (Layout.intChars z) (ofInt z) := by
  have hdigits := Decimal.Numeral.isDigits_natChars z.natAbs
  have hnegative := spells_negative_digits hdigits
  have hplain := spells_digits hdigits
  rw [Decimal.ofDigits_natChars] at hnegative hplain
  rw [Layout.intChars, ofInt]
  split
  · exact hnegative
  · exact hplain

/-! ## Putting texts together -/

/-- An empty text has no tokens. -/
theorem spells_nil : Spells [] [] :=
  fun _ _ _ hlexes => hlexes

/-- A text that starts with what can follow an operand, after one. -/
theorem Spells.append {cs cs' : List Char} {ts ts' : List Token} (h : Spells cs ts)
    (h' : Spells cs' ts') (hdelimited : ∀ rest, Delimited (cs' ++ rest)) :
    Spells (cs ++ cs') (ts ++ ts') := by
  intro rest ts'' hrest hlexes
  rw [List.append_assoc, List.append_assoc]
  exact h _ _ (hdelimited rest) (h' rest ts'' hrest hlexes)

/-- Blanks around a text have no tokens. -/
theorem Spells.spaced {before cs after : List Char} {ts : List Token} (h : Spells cs ts)
    (hblank : ∀ c ∈ before ++ after, isBlank c = true) : Spells (before ++ cs ++ after) ts := by
  intro rest ts' hrest hlexes
  obtain ⟨hbefore, hafter⟩ := List.forall_mem_append.1 hblank
  have hdelimited : Delimited (after ++ rest) := by
    cases after with
    | nil => exact hrest
    | cons c after => exact delimited_cons (isDelimiter_of_isBlank (hafter c List.mem_cons_self)) _
  rw [List.append_assoc, List.append_assoc]
  exact .blanks hbefore (h _ _ hdelimited (.blanks hafter hlexes))

/-- A blank before a text has no token. -/
theorem Spells.blank {cs : List Char} {ts : List Token} (h : Spells cs ts) :
    Spells (' ' :: cs) ts := by
  have hspaced := @Spells.spaced [' '] cs [] ts h (List.forall_mem_singleton.2 rfl)
  rwa [List.append_nil] at hspaced

/-- An operand in parentheses. -/
theorem Spells.parens {cs : List Char} {ts : List Token} (h : Spells cs ts) :
    Spells ('(' :: cs ++ [')']) (leftParen :: (ts ++ [rightParen])) := by
  have hright : Spells [')'] [rightParen] := spells_nil.cons (by decide) fun _ _ => rfl
  exact (h.append hright fun rest => delimited_cons (by decide) _).cons (by decide) fun _ _ => rfl

/-- An opening bracket before what comes after it. -/
theorem Spells.leftBracket {cs : List Char} {ts : List Token} (h : Spells cs ts) :
    Spells ('[' :: cs) (.leftBracket :: ts) :=
  h.cons (by decide) fun _ _ => rfl

/-- A closing bracket after the last item, if there is one. -/
theorem Spells.rightBracket {cs : List Char} {ts : List Token} (h : Spells cs ts) :
    Spells (cs ++ [']']) (ts ++ [.rightBracket]) := by
  have hright : Spells [']'] [.rightBracket] := spells_nil.cons (by decide) fun _ _ => rfl
  exact h.append hright fun _ => delimited_cons (by decide) _

/-- An item before others. -/
theorem Spells.comma {cs cs' : List Char} {ts ts' : List Token} (h : Spells cs ts)
    (h' : Spells cs' ts') : Spells (cs ++ ',' :: cs') (ts ++ .comma :: ts') :=
  h.append (h'.cons (by decide) fun _ _ => rfl) fun _ => delimited_cons (by decide) _

/-- A plus sign. -/
theorem Spells.plus {cs : List Char} {ts : List Token} (h : Spells cs ts) :
    Spells ('+' :: cs) (.plus :: ts) :=
  h.cons (by decide) fun _ _ => rfl

/-- A negation that is no part of an operator. -/
theorem Spells.not {c : Char} {cs : List Char} {ts : List Token} (h : Spells (c :: cs) ts)
    (hc : c ≠ '=') : Spells ('!' :: c :: cs) (.not :: ts) :=
  h.cons (by decide) fun rest _ => by simp [next?, hc]

end Token

/-- The token of an operator, of which a minus sign tells whether a digit follows. -/
def BinaryOp.token (digit : Bool) : BinaryOp → Token
  | add => .plus
  | subtract => .minus digit
  | op => .operator op

/-- The token of an operator stands for it. -/
@[simp] theorem BinaryOp.binaryOp?_token (digit : Bool) (op : BinaryOp) :
    (op.token digit).binaryOp? = some op := by
  cases op <;> rfl

namespace Token

/-- The symbol of an operator in front of anything but an equality sign is read whole. -/
theorem next?_symbol (op : BinaryOp) : ∃ c cs, op.symbol.toList = c :: cs ∧ isBlank c = false ∧
    isDelimiter c = true ∧ ∀ c' rest, c' ≠ '=' →
      next? (c :: (cs ++ c' :: rest)) = some (op.token c'.isDigit, c' :: rest) := by
  cases op with
  | less =>
    exact ⟨'<', [], rfl, by decide, by decide, fun _ _ hc' => by
      simp [next?, hc', BinaryOp.token]⟩
  | greater =>
    exact ⟨'>', [], rfl, by decide, by decide, fun _ _ hc' => by
      simp [next?, hc', BinaryOp.token]⟩
  | _ => exact ⟨_, _, rfl, by decide, by decide, fun _ _ _ => rfl⟩

/-- An operator between two operands. -/
theorem Spells.binary {c : Char} {cs cs' : List Char} {ts ts' : List Token} (h : Spells cs ts)
    (h' : Spells (c :: cs') ts') (hc : c ≠ '=') (op : BinaryOp) :
    Spells (cs ++ op.symbol.toList ++ c :: cs') (ts ++ op.token c.isDigit :: ts') := by
  obtain ⟨c', symbol, heq, hblank, hdelimiter, hnext⟩ := next?_symbol op
  have hsymbol : Spells (op.symbol.toList ++ c :: cs') (op.token c.isDigit :: ts') := by
    rw [heq]
    intro rest ts'' hrest hlexes
    rw [List.append_assoc]
    exact .token hblank (hnext c (cs' ++ rest) hc) (h' rest ts'' hrest hlexes)
  rw [List.append_assoc]
  refine h.append hsymbol fun rest => ?_
  rw [heq]
  exact delimited_cons hdelimiter _

/-- An operator with blanks around it between two operands. -/
theorem Spells.spacedBinary {cs cs' : List Char} {ts ts' : List Token} (h : Spells cs ts)
    (h' : Spells cs' ts') (op : BinaryOp) :
    Spells (cs ++ ' ' :: op.symbol.toList ++ ' ' :: cs') (ts ++ op.token false :: ts') := by
  have hleft := @Spells.spaced [] cs [' '] ts h (List.forall_mem_singleton.2 rfl)
  have hbinary := hleft.binary h'.blank (by decide) op
  rwa [List.nil_append, List.append_assoc cs] at hbinary

/-- The tokens of a text are those that it has in front of nothing. -/
theorem Spells.ofChars {cs : List Char} {ts : List Token} (h : Spells cs ts) :
    ofChars cs = some ts := by
  have hlexes : Lexes (cs ++ []) (ts ++ []) := h [] [] (fun _ hc => by cases hc) .nil
  rw [List.append_nil, List.append_nil] at hlexes
  exact ofChars_eq_some_iff.2 hlexes

end Token

end SearchSpace
