import SearchSpace.Proofs.Expr.Grammar
import SearchSpace.Proofs.Expr.Spelling

/-!
# Texts and what they denote

`Writes cs phrase` puts the two layers of reading together: a text has tokens that denote a phrase.
Its lemmas are the grammar on the level of texts, with the blanks and parentheses that are written.
-/

namespace SearchSpace.Expr

open Token (Spells)

/-- A text has tokens that denote a phrase, in front of what follows an operand. -/
def Writes (cs : List Char) (phrase : Phrase) : Prop :=
  ∃ ts, Spells cs ts ∧ Denotes ts phrase

/-- A text that denotes an expression is read as that expression. -/
theorem ofText_of_writes {cs : List Char} {e : Expr String} (h : Writes cs (.level 0 e)) :
    ofText (String.ofList cs) = some e := by
  obtain ⟨ts, hspells, hdenotes⟩ := h
  rw [ofText, String.toList_ofList, hspells.ofChars]
  exact ofTokens_of_denotes hdenotes

/-- An operand is an expression of any level. -/
theorem Writes.ofOperand {cs : List Char} {e : Expr String} (h : Writes cs (.operand e))
    (least : Nat) : Writes cs (.level least e) := by
  obtain ⟨ts, hspells, hdenotes⟩ := h
  exact ⟨ts, hspells, .ofOperand hdenotes⟩

/-- Blanks around a text do not matter. -/
theorem Writes.spaced {before cs after : List Char} {phrase : Phrase} (h : Writes cs phrase)
    (hblank : ∀ c ∈ before ++ after, Token.isBlank c = true) :
    Writes (before ++ cs ++ after) phrase := by
  obtain ⟨ts, hspells, hdenotes⟩ := h
  exact ⟨ts, hspells.spaced hblank, hdenotes⟩

/-- A blank before a text does not matter. -/
theorem Writes.blank {cs : List Char} {phrase : Phrase} (h : Writes cs phrase) :
    Writes (' ' :: cs) phrase := by
  obtain ⟨ts, hspells, hdenotes⟩ := h
  exact ⟨ts, hspells.blank, hdenotes⟩

/-- An operator between two operands, of which the right one does not run into it: its text does not
start with an equality sign. -/
theorem Writes.operator {c : Char} {cs cs' : List Char} {l r : Expr String} {op : BinaryOp}
    {least : Nat} (hleast : least ≤ op.precedence) (h : Writes cs (.level op.precedence l))
    (h' : Writes (c :: cs') (.level (op.precedence + 1) r)) (hequal : c ≠ '=') :
    Writes (cs ++ op.symbol.toList ++ c :: cs') (.level least (.binary op l r)) := by
  obtain ⟨ts, hspells, hdenotes⟩ := h
  obtain ⟨ts', hspells', hdenotes'⟩ := h'
  exact ⟨_, hspells.binary hspells' hequal op,
    .binary (op.binaryOp?_token c.isDigit) hleast hdenotes hdenotes'⟩

/-- An operator with blanks around it between two operands. -/
theorem Writes.binary {cs cs' : List Char} {l r : Expr String} {op : BinaryOp} {least : Nat}
    (hleast : least ≤ op.precedence) (h : Writes cs (.level op.precedence l))
    (h' : Writes cs' (.level (op.precedence + 1) r)) :
    Writes (cs ++ ' ' :: op.symbol.toList ++ ' ' :: cs') (.level least (.binary op l r)) := by
  obtain ⟨ts, hspells, hdenotes⟩ := h
  obtain ⟨ts', hspells', hdenotes'⟩ := h'
  exact ⟨_, hspells.spacedBinary hspells' op,
    .binary (op.binaryOp?_token false) hleast hdenotes hdenotes'⟩

/-- An expression in parentheses is an operand. -/
theorem Writes.parens {cs : List Char} {e : Expr String} (h : Writes cs (.level 0 e)) :
    Writes ('(' :: cs ++ [')']) (.operand e) := by
  obtain ⟨ts, hspells, hdenotes⟩ := h
  exact ⟨_, hspells.parens, .parens hdenotes⟩

/-- A sign or a negation before an operand, which must not run into it: the text of the operand does
not start with a digit after a minus sign, nor with an equality sign. -/
theorem Writes.unary {c : Char} {cs : List Char} {e : Expr String} (op : UnaryOp)
    (h : Writes (c :: cs) (.operand e)) (hequal : c ≠ '=')
    (hdigit : op = .negative → c.isDigit = false) :
    Writes (op.symbol.toList ++ c :: cs) (.operand (.unary op e)) := by
  obtain ⟨ts, hspells, hdenotes⟩ := h
  cases op with
  | positive => exact ⟨_, hspells.plus, .positive hdenotes⟩
  | negative =>
    have hglued : c.isDigit = true → ∀ t ∈ ts.head?, t.isNumber = false :=
      fun hc => absurd (hdigit rfl) (Bool.not_eq_false _ ▸ hc)
    exact ⟨_, hspells.minus, .negative hglued hdenotes⟩
  | not => exact ⟨_, hspells.not hequal, .not hdenotes⟩

/-- A list without items. -/
theorem writes_blankList {cs : List Char} (h : ∀ c ∈ cs, Token.isBlank c = true) :
    Writes ('[' :: (cs ++ [']'])) (.operand (list [])) := by
  have hright : Token.Spells [']'] [.rightBracket] := Token.spells_nil.rightBracket
  have hspaced := @Token.Spells.spaced cs [']'] [] _ hright (by rwa [List.append_nil])
  rw [List.append_nil] at hspaced
  exact ⟨_, hspaced.leftBracket, .emptyList⟩

/-- A list without items and blanks. -/
theorem writes_emptyList : Writes ['[', ']'] (.operand (list [])) :=
  writes_blankList fun _ hc => absurd hc List.not_mem_nil

/-- A list of some items. -/
theorem Writes.list {cs : List Char} {es : List (Expr String)} (h : Writes cs (.items es)) :
    Writes ('[' :: cs) (.operand (.list es)) := by
  obtain ⟨ts, hspells, hdenotes⟩ := h
  exact ⟨_, hspells.leftBracket, .list hdenotes⟩

/-- The last item of a list. -/
theorem Writes.last {cs : List Char} {e : Expr String} (h : Writes cs (.level 0 e)) :
    Writes (cs ++ [']']) (.items [e]) := by
  obtain ⟨ts, hspells, hdenotes⟩ := h
  exact ⟨_, hspells.rightBracket, .last hdenotes⟩

/-- An item of a list before others. -/
theorem Writes.more {cs cs' : List Char} {e : Expr String} {es : List (Expr String)}
    (h : Writes cs (.level 0 e)) (h' : Writes cs' (.items es)) :
    Writes (cs ++ ',' :: cs') (.items (e :: es)) := by
  obtain ⟨ts, hspells, hdenotes⟩ := h
  obtain ⟨ts', hspells', hdenotes'⟩ := h'
  exact ⟨_, hspells.comma hspells', .more hdenotes hdenotes'⟩

end SearchSpace.Expr
