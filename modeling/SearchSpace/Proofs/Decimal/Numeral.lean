import SearchSpace.Decimal.Layout

/-!
# Numerals as text

`Numeral.IsText cs n` says which texts a numeral has. `Numeral.read` reads each of them where no more
of a numeral follows (`IsText.read_append`), and nothing else (`isText_read`); `Numeral.chars` is one
of them (`WellFormed.isText`). Every layout writes the magnitude of a number as a numeral
(`Layout.exists_numeral`): the one that denotes the same decimal, or for a whole number the one with
all its digits.
-/

namespace SearchSpace

/-! ## Digits -/

/-- What comes after a run of characters, all of which pass a test, is no part of it if its first
character does not pass. -/
theorem span_append {p : Char → Bool} {cs rest : List Char} (hcs : ∀ c ∈ cs, p c = true)
    (hrest : ∀ c ∈ rest.head?, p c = false) :
    (cs ++ rest).takeWhile p = cs ∧ (cs ++ rest).dropWhile p = rest := by
  rw [List.takeWhile_append_of_pos hcs, List.dropWhile_append_of_pos hcs]
  cases rest with
  | nil => exact ⟨List.append_nil cs, rfl⟩
  | cons c rest =>
    have hc := hrest c rfl
    have hneg : ¬p c = true := by
      rw [hc]
      decide
    rw [List.takeWhile_cons_of_neg hneg, List.dropWhile_cons_of_neg hneg]
    exact ⟨List.append_nil cs, rfl⟩

namespace Layout

/-- The digits of a number are digits. -/
theorem isDigit_of_mem_natChars {n : Nat} {c : Char} (h : c ∈ natChars n) : c.isDigit = true :=
  Nat.isDigit_of_mem_toDigits (by decide) (by decide) h

/-- A number has a first digit. -/
theorem natChars_eq_cons (n : Nat) : ∃ c cs, natChars n = c :: cs ∧ c.isDigit = true := by
  cases h : natChars n with
  | nil => exact absurd h Nat.toDigits_ne_nil
  | cons c cs =>
    exact ⟨c, cs, rfl, isDigit_of_mem_natChars (h ▸ List.mem_cons_self)⟩

end Layout

namespace Decimal

/-- The number that a run of digits denotes, in the words of the library. -/
theorem ofDigits_eq (cs : List Char) : ofDigits cs = Nat.ofDigitChars 10 cs 0 :=
  Nat.ofDigitChars_eq_foldl.symm

/-- The digits of a number denote it. -/
@[simp] theorem ofDigits_natChars (n : Nat) : ofDigits (Layout.natChars n) = n := by
  rw [ofDigits_eq]
  exact Nat.ofDigitChars_ten_toDigits

/-- Zeros before a run of digits do not count. -/
@[simp] theorem ofDigits_zeros_append (n : Nat) (cs : List Char) :
    ofDigits (List.replicate n '0' ++ cs) = ofDigits cs := by
  simp only [ofDigits_eq, Nat.ofDigitChars_append, Nat.ofDigitChars_replicate_zero, Nat.mul_zero]

/-- Zeros after a run of digits multiply by ten. -/
@[simp] theorem ofDigits_append_zeros (n : Nat) (cs : List Char) :
    ofDigits (cs ++ List.replicate n '0') = Nat.pow 10 n * ofDigits cs := by
  simp only [ofDigits_eq, Nat.ofDigitChars_append, Nat.ofDigitChars_replicate_zero]
  rfl

/-! ## Reading -/

namespace Numeral

/-- The text of a numeral. -/
def chars (n : Numeral) : List Char :=
  n.integral ++ (n.fraction.elim [] ('.' :: ·) ++ n.exponent.elim [] ('e' :: Layout.intChars ·))

/-- The parts of a numeral have digits where digits belong, and it starts with one. -/
structure WellFormed (n : Numeral) : Prop where
  integral : ∀ c ∈ n.integral, c.isDigit = true
  integral_ne_nil : n.integral ≠ []
  fraction : ∀ cs, n.fraction = some cs → ∀ c ∈ cs, c.isDigit = true

/-- Digits, of which there are some. -/
structure IsDigits (cs : List Char) : Prop where
  ne_nil : cs ≠ []
  digits : ∀ c ∈ cs, c.isDigit = true

/-- The text of a fraction, where there is one: a point and digits, of which there may be none. -/
inductive FractionText : List Char → Option (List Char) → Prop where
  | none : FractionText [] none
  | digits {cs : List Char} : (∀ c ∈ cs, c.isDigit = true) → FractionText ('.' :: cs) (some cs)

/-- The text of an exponent, where there is one: its mark, a sign or none, and digits. -/
inductive ExponentText : List Char → Option Int → Prop where
  | none : ExponentText [] none
  | plain {mark : Char} {cs : List Char} : mark = 'e' ∨ mark = 'E' → IsDigits cs →
    ExponentText (mark :: cs) (some (ofDigits cs))
  | positive {mark : Char} {cs : List Char} : mark = 'e' ∨ mark = 'E' → IsDigits cs →
    ExponentText (mark :: '+' :: cs) (some (ofDigits cs))
  | negative {mark : Char} {cs : List Char} : mark = 'e' ∨ mark = 'E' → IsDigits cs →
    ExponentText (mark :: '-' :: cs) (some (-(ofDigits cs : Int)))

/-- A text of a numeral: digits, then a fraction or none, then an exponent or none. -/
inductive IsText : List Char → Numeral → Prop where
  | mk {integral cs cs' : List Char} {fraction : Option (List Char)} {exponent : Option Int} :
    IsDigits integral → FractionText cs fraction → ExponentText cs' exponent →
    IsText (integral ++ (cs ++ cs')) ⟨integral, fraction, exponent⟩

/-- Digits have a first one. -/
theorem IsDigits.eq_cons {cs : List Char} (h : IsDigits cs) :
    ∃ c cs', cs = c :: cs' ∧ c.isDigit = true := by
  cases cs with
  | nil => exact absurd rfl h.ne_nil
  | cons c cs => exact ⟨c, cs, rfl, h.digits c List.mem_cons_self⟩

/-- The digits of a natural number. -/
theorem isDigits_natChars (n : Nat) : IsDigits (Layout.natChars n) :=
  ⟨Nat.toDigits_ne_nil, fun _ hc => Layout.isDigit_of_mem_natChars hc⟩

/-- What is written for a numeral is a text of it. -/
theorem WellFormed.isText {n : Numeral} (h : n.WellFormed) : IsText n.chars n := by
  obtain ⟨integral, fraction, exponent⟩ := n
  refine .mk ⟨h.integral_ne_nil, h.integral⟩ ?_ ?_
  · cases fraction with
    | none => exact .none
    | some cs => exact .digits (h.fraction cs rfl)
  · cases exponent with
    | none => exact .none
    | some z =>
      show ExponentText ('e' :: Layout.intChars z) (some z)
      rw [Layout.intChars]
      split
      · next hz =>
        have htext := ExponentText.negative (.inl rfl) (isDigits_natChars z.natAbs)
        rwa [ofDigits_natChars, Int.ofNat_natAbs_of_nonpos (Int.le_of_lt hz), Int.neg_neg] at htext
      · next hz =>
        have htext := ExponentText.plain (.inl rfl) (isDigits_natChars z.natAbs)
        rwa [ofDigits_natChars, Int.natAbs_of_nonneg (Int.not_lt.1 hz)] at htext

/-- A text of a numeral starts with a digit. -/
theorem IsText.eq_cons {cs : List Char} {n : Numeral} (h : IsText cs n) :
    ∃ c cs', cs = c :: cs' ∧ c.isDigit = true := by
  obtain ⟨hdigits, -, -⟩ := h
  obtain ⟨c, cs', rfl, hc⟩ := hdigits.eq_cons
  exact ⟨c, _, rfl, hc⟩

/-- No more of a numeral follows. -/
def Ends (rest : List Char) : Prop :=
  ∀ c ∈ rest.head?, c.isDigit = false ∧ c ≠ '.' ∧ c ≠ 'e' ∧ c ≠ 'E'

/-- Digits are read where no digit follows. -/
theorem IsDigits.span {cs rest : List Char} (h : IsDigits cs) (hrest : Ends rest) :
    (cs ++ rest).takeWhile Char.isDigit = cs ∧ (cs ++ rest).dropWhile Char.isDigit = rest :=
  span_append h.digits fun c hc => (hrest c hc).1

/-- An exponent is read where it ends. -/
theorem ExponentText.exponent?_append {cs rest : List Char} {exponent : Option Int}
    (h : ExponentText cs exponent) (hrest : Ends rest) :
    exponent? (cs ++ rest) = (exponent, rest) := by
  cases h with
  | none =>
    cases rest with
    | nil => rfl
    | cons c rest =>
      obtain ⟨-, -, he, hE⟩ := hrest c rfl
      exact if_neg fun hmark => hmark.elim he hE
  | plain hmark hcs =>
    obtain ⟨hrun, hafter⟩ := hcs.span hrest
    obtain ⟨c, cs, rfl, hc⟩ := hcs.eq_cons
    have hminus : c ≠ '-' := by
      rintro rfl
      cases hc
    have hplus : c ≠ '+' := by
      rintro rfl
      cases hc
    rw [List.cons_append] at hrun hafter
    simp [exponent?, hmark, hminus, hplus, hrun, hafter]
  | positive hmark hcs | negative hmark hcs =>
    obtain ⟨hrun, hafter⟩ := hcs.span hrest
    simp [exponent?, hmark, hrun, hafter, hcs.ne_nil]

/-- An exponent starts neither with a digit nor with a point. -/
theorem ExponentText.head {cs rest : List Char} {exponent : Option Int}
    (h : ExponentText cs exponent) (hrest : Ends rest) :
    ∀ c ∈ (cs ++ rest).head?, c.isDigit = false ∧ c ≠ '.' := by
  cases h with
  | none => exact fun c hc => ⟨(hrest c hc).1, (hrest c hc).2.1⟩
  | plain hmark _ | positive hmark _ | negative hmark _ =>
    intro c hc
    cases hc
    rcases hmark with rfl | rfl <;> decide

/-- A fraction is read where neither a digit nor a point follows. -/
theorem FractionText.fraction?_append {cs rest : List Char} {fraction : Option (List Char)}
    (h : FractionText cs fraction) (hrest : ∀ c ∈ rest.head?, c.isDigit = false ∧ c ≠ '.') :
    fraction? (cs ++ rest) = (fraction, rest) := by
  cases h with
  | none =>
    cases rest with
    | nil => rfl
    | cons c rest => simp [fraction?, (hrest c rfl).2]
  | digits hcs =>
    obtain ⟨hrun, hafter⟩ := span_append hcs fun c hc => (hrest c hc).1
    simp [fraction?, hrun, hafter]

/-- A text of a numeral is read where no more of one follows. -/
theorem IsText.read_append {cs rest : List Char} {n : Numeral} (h : IsText cs n)
    (hrest : Ends rest) : read (cs ++ rest) = (n, rest) := by
  obtain ⟨hdigits, hfraction, hexponent⟩ := h
  next integral point mark fraction exponent =>
  have hhead := hexponent.head hrest
  have hpoint : ∀ c ∈ (point ++ (mark ++ rest)).head?, c.isDigit = false := by
    cases hfraction with
    | none => exact fun c hc => (hhead c hc).1
    | digits _ =>
      intro c hc
      cases hc
      decide
  obtain ⟨hrun, hafter⟩ := span_append hdigits.digits hpoint
  simp only [List.append_assoc, read, hrun, hafter, hfraction.fraction?_append hhead,
    hexponent.exponent?_append hrest]

/-- The digits at the front of a text, where there are some. -/
theorem isDigits_takeWhile {cs : List Char} (h : cs.takeWhile Char.isDigit ≠ []) :
    IsDigits (cs.takeWhile Char.isDigit) :=
  ⟨h, fun _ hc => List.all_eq_true.1 (List.all_takeWhile) _ hc⟩

/-- After the mark of an exponent, its sign or none is read, and then its digits. -/
theorem exponent?_of_mark {mark : Char} (hmark : mark = 'e' ∨ mark = 'E') (cs : List Char) :
    ∃ (sign digits : List Char) (z : List Char → Int), cs = sign ++ digits ∧
      exponent? (mark :: cs) = (if digits.takeWhile Char.isDigit = [] then (none, mark :: cs)
        else (some (z (digits.takeWhile Char.isDigit)), digits.dropWhile Char.isDigit)) ∧
      ∀ run, IsDigits run → ExponentText (mark :: (sign ++ run)) (some (z run)) := by
  by_cases hminus : ∃ digits, cs = '-' :: digits
  · obtain ⟨digits, rfl⟩ := hminus
    exact ⟨['-'], digits, fun run => -(ofDigits run : Int), rfl, by simp [exponent?, hmark],
      fun run hrun => .negative hmark hrun⟩
  by_cases hplus : ∃ digits, cs = '+' :: digits
  · obtain ⟨digits, rfl⟩ := hplus
    exact ⟨['+'], digits, fun run => (ofDigits run : Int), rfl, by simp [exponent?, hmark],
      fun run hrun => .positive hmark hrun⟩
  refine ⟨[], cs, fun run => (ofDigits run : Int), rfl, ?_, fun run hrun => .plain hmark hrun⟩
  cases cs with
  | nil => simp [exponent?, hmark]
  | cons c cs =>
    have hc : c ≠ '-' ∧ c ≠ '+' := by simpa using And.intro hminus hplus
    simp [exponent?, hmark, hc]

/-- What is read as an exponent is a text of it. -/
theorem exponentText_exponent? (cs : List Char) :
    ∃ pre, cs = pre ++ (exponent? cs).2 ∧ ExponentText pre (exponent? cs).1 := by
  cases cs with
  | nil => exact ⟨[], rfl, .none⟩
  | cons mark cs =>
    by_cases hmark : mark = 'e' ∨ mark = 'E'
    · obtain ⟨sign, digits, z, hcs, heq, htext⟩ := exponent?_of_mark hmark cs
      rw [heq]
      by_cases hrun : digits.takeWhile Char.isDigit = []
      · rw [if_pos hrun]
        exact ⟨[], rfl, .none⟩
      · rw [if_neg hrun]
        refine ⟨_, ?_, htext _ (isDigits_takeWhile hrun)⟩
        rw [List.cons_append, List.append_assoc, List.takeWhile_append_dropWhile, hcs]
    · exact ⟨[], by simp [exponent?, hmark], by simpa [exponent?, hmark] using ExponentText.none⟩

/-- What is read as a fraction is a text of it. -/
theorem fractionText_fraction? (cs : List Char) :
    ∃ pre, cs = pre ++ (fraction? cs).2 ∧ FractionText pre (fraction? cs).1 := by
  unfold fraction?
  split
  · next cs =>
    refine ⟨'.' :: cs.takeWhile Char.isDigit, ?_,
      .digits fun _ hc => List.all_eq_true.1 List.all_takeWhile _ hc⟩
    rw [List.cons_append, List.takeWhile_append_dropWhile]
  · exact ⟨[], rfl, .none⟩

/-- What is read as a numeral at a digit is a text of it. -/
theorem isText_read {c : Char} (hc : c.isDigit = true) (cs : List Char) :
    ∃ pre, c :: cs = pre ++ (read (c :: cs)).2 ∧ IsText pre (read (c :: cs)).1 := by
  obtain ⟨point, hpoint, hfraction⟩ :=
    fractionText_fraction? ((c :: cs).dropWhile Char.isDigit)
  obtain ⟨mark, hmark, hexponent⟩ :=
    exponentText_exponent? (fraction? ((c :: cs).dropWhile Char.isDigit)).2
  have hrun : (c :: cs).takeWhile Char.isDigit ≠ [] := by simp [hc]
  refine ⟨_, ?_, .mk (isDigits_takeWhile hrun) hfraction hexponent⟩
  show c :: cs = _ ++ (exponent? (fraction? ((c :: cs).dropWhile Char.isDigit)).2).2
  rw [List.append_assoc, List.append_assoc, ← hmark, ← hpoint, List.takeWhile_append_dropWhile]

end Numeral

/-! ## Writing -/

/-- The same decimal with `k` digits more. -/
def scale (k : Nat) (d : Decimal) : Decimal :=
  ⟨Nat.pow 10 k * d.coefficient, d.exponent - k⟩

/-- No digit more. -/
@[simp] theorem scale_zero (d : Decimal) : d.scale 0 = d := by
  show Decimal.mk (1 * d.coefficient) (d.exponent - 0) = d
  rw [Nat.one_mul, Int.sub_zero]

end Decimal

namespace Layout

/-- Digits with a point before them denote the decimal. -/
theorem exists_numeral_of_power_neg (d : Decimal) (h : d.exponent + d.digits.length - 1 < 0) :
    ∃ n : Decimal.Numeral, n.WellFormed ∧ n.fraction.isSome = true ∧ n.toDecimal = d ∧
      literal.plainChars d.digits (d.exponent + d.digits.length - 1) = n.chars := by
  generalize hz : (-(d.exponent + d.digits.length - 1) - 1).toNat = zeros
  refine ⟨⟨['0'], some (List.replicate zeros '0' ++ d.digits), none⟩, ⟨?_, by simp, ?_⟩, rfl, ?_, ?_⟩
  · intro c hc
    rw [List.mem_singleton.1 hc]
    decide
  · intro cs hcs c hc
    cases hcs
    rcases List.mem_append.1 hc with hc | hc
    · rw [List.eq_of_mem_replicate hc]
      decide
    · exact isDigit_of_mem_natChars hc
  · show Decimal.mk (Decimal.ofDigits (List.replicate (zeros + 1) '0' ++ d.digits))
      (0 - ((List.replicate zeros '0' ++ d.digits).length : Int)) = d
    rw [Decimal.ofDigits_zeros_append, List.length_append, List.length_replicate]
    show Decimal.mk (Decimal.ofDigits (natChars d.coefficient)) _ = d
    rw [Decimal.ofDigits_natChars]
    congr 1
    omega
  · rw [plainChars, if_pos h, hz]
    simp [Decimal.Numeral.chars]

/-- Digits with a point among them denote the decimal. -/
theorem exists_numeral_of_exponent_neg (d : Decimal) (hneg : d.exponent < 0)
    (h : 0 ≤ d.exponent + d.digits.length - 1) :
    ∃ n : Decimal.Numeral, n.WellFormed ∧ n.fraction.isSome = true ∧ n.toDecimal = d ∧
      literal.plainChars d.digits (d.exponent + d.digits.length - 1) = n.chars := by
  generalize hw : (d.exponent + d.digits.length - 1).toNat + 1 = whole
  have hdigits : ∀ c ∈ d.digits, c.isDigit = true := fun c hc => isDigit_of_mem_natChars hc
  have hlength : (d.digits.drop whole).length = d.digits.length - whole := List.length_drop
  refine ⟨⟨d.digits.take whole, some (d.digits.drop whole), none⟩, ⟨?_, ?_, ?_⟩, rfl, ?_, ?_⟩
  · exact fun c hc => hdigits c (List.mem_of_mem_take hc)
  · intro hnil
    have hzero := congrArg List.length hnil
    rw [List.length_take] at hzero
    simp only [List.length_nil] at hzero
    omega
  · intro cs hcs c hc
    cases hcs
    exact hdigits c (List.mem_of_mem_drop hc)
  · show Decimal.mk (Decimal.ofDigits (d.digits.take whole ++ d.digits.drop whole))
      (0 - ((d.digits.drop whole).length : Int)) = d
    rw [List.take_append_drop, hlength]
    show Decimal.mk (Decimal.ofDigits (natChars d.coefficient)) _ = d
    rw [Decimal.ofDigits_natChars]
    congr 1
    omega
  · have hnonempty : (d.digits.drop whole).isEmpty = false := by
      rw [List.isEmpty_eq_false_iff, ← List.length_pos_iff, hlength]
      omega
    have hzeros : whole - d.digits.length = 0 := by omega
    rw [plainChars, if_neg (Int.not_lt.2 h), hw]
    simp [hnonempty, hzeros, Decimal.Numeral.chars]

/-- A whole number is written with all its digits and a zero after the point. -/
theorem exists_numeral_of_exponent_nonneg (d : Decimal) (h : 0 ≤ d.exponent)
    (hpower : d.exponent + d.digits.length - 1 < 16) :
    ∃ n : Decimal.Numeral, n.WellFormed ∧ n.fraction.isSome = true ∧
      (∃ k ≤ 16, n.toDecimal = d.scale k) ∧
      literal.plainChars d.digits (d.exponent + d.digits.length - 1) = n.chars := by
  have hpos : 0 < d.digits.length := Nat.length_toDigits_pos
  generalize hw : (d.exponent + d.digits.length - 1).toNat + 1 = whole
  refine ⟨⟨d.digits ++ List.replicate (whole - d.digits.length) '0', some ['0'], none⟩,
    ⟨?_, ?_, ?_⟩, rfl, ⟨whole - d.digits.length + 1, by omega, ?_⟩, ?_⟩
  · intro c hc
    rcases List.mem_append.1 hc with hc | hc
    · exact isDigit_of_mem_natChars hc
    · rw [List.eq_of_mem_replicate hc]
      decide
  · intro hnil
    have hzero := congrArg List.length hnil
    rw [List.length_append] at hzero
    simp only [List.length_nil] at hzero
    omega
  · intro cs hcs c hc
    cases hcs
    rw [List.mem_singleton.1 hc]
    decide
  · show Decimal.mk (Decimal.ofDigits
      (d.digits ++ List.replicate (whole - d.digits.length) '0' ++ ['0'])) (0 - (1 : Int)) = _
    rw [List.append_assoc, ← List.replicate_succ', Decimal.ofDigits_append_zeros]
    show Decimal.mk (_ * Decimal.ofDigits (natChars d.coefficient)) _ = _
    rw [Decimal.ofDigits_natChars, Decimal.scale]
    congr 1
    omega
  · have hnone : d.digits.drop whole = [] := List.drop_eq_nil_of_le (by omega)
    have hall : d.digits.take whole = d.digits := List.take_of_length_le (by omega)
    rw [plainChars, if_neg (by omega), hw]
    simp [hnone, hall, Decimal.Numeral.chars, literal]

/-- Digits with a point after the first and an exponent denote the decimal. -/
theorem exists_numeral_of_scientific (d : Decimal) :
    ∃ n : Decimal.Numeral, n.WellFormed ∧ n.exponent.isSome = true ∧ n.toDecimal = d ∧
      literal.scientificChars d.digits (d.exponent + d.digits.length - 1) = n.chars := by
  obtain ⟨c, cs, hcs, hc⟩ := natChars_eq_cons d.coefficient
  have hdigits : ∀ c' ∈ c :: cs, c'.isDigit = true :=
    fun c' hc' => isDigit_of_mem_natChars (hcs ▸ hc')
  have hcs' : d.digits = c :: cs := hcs
  have hdenotes := Decimal.ofDigits_natChars d.coefficient
  rw [hcs] at hdenotes
  refine ⟨⟨[c], if cs = [] then none else some cs, some (d.exponent + d.digits.length - 1)⟩,
    ⟨?_, by simp, ?_⟩, rfl, ?_, ?_⟩
  · intro c' hc'
    rw [List.mem_singleton.1 hc']
    exact hc
  · intro cs' hcs' c' hc'
    split at hcs'
    · cases hcs'
    · cases hcs'
      exact hdigits c' (.tail c hc')
  · have hfraction : (if cs = [] then none else some cs).getD [] = cs := by
      split
      · next hnil => rw [hnil]; rfl
      · rfl
    rw [hcs', Decimal.Numeral.toDecimal, hfraction]
    show Decimal.mk (Decimal.ofDigits (c :: cs)) _ = d
    rw [hdenotes]
    congr 1
    simp only [Option.getD_some, List.length_cons]
    omega
  · rw [hcs', scientificChars]
    cases cs with
    | nil => simp [Decimal.Numeral.chars, literal]
    | cons c' cs => simp [Decimal.Numeral.chars, literal]

/-- The text of a magnitude is a numeral with a fraction or an exponent, which denotes the decimal,
though with more digits where it is a whole number. -/
theorem exists_numeral (d : Decimal) :
    ∃ n : Decimal.Numeral, n.WellFormed ∧
      (n.fraction.isSome = true ∨ n.exponent.isSome = true) ∧
      (∃ k ≤ 16, n.toDecimal = d.scale k) ∧ literal.decimalChars d = n.chars := by
  rw [decimalChars]
  split
  · next hplain =>
    have hpower : d.exponent + d.digits.length - 1 < 16 := by
      simpa [isPlain, literal] using (Bool.and_eq_true_iff.1 hplain).2
    by_cases hneg : d.exponent + d.digits.length - 1 < 0
    · obtain ⟨n, hn, hpoint, hdecimal, hchars⟩ := exists_numeral_of_power_neg d hneg
      exact ⟨n, hn, .inl hpoint, ⟨0, by omega, hdecimal.trans d.scale_zero.symm⟩, hchars⟩
    by_cases hexponent : d.exponent < 0
    · obtain ⟨n, hn, hpoint, hdecimal, hchars⟩ :=
        exists_numeral_of_exponent_neg d hexponent (Int.not_lt.1 hneg)
      exact ⟨n, hn, .inl hpoint, ⟨0, by omega, hdecimal.trans d.scale_zero.symm⟩, hchars⟩
    · obtain ⟨n, hn, hpoint, hdecimal, hchars⟩ :=
        exists_numeral_of_exponent_nonneg d (Int.not_lt.1 hexponent) hpower
      exact ⟨n, hn, .inl hpoint, hdecimal, hchars⟩
  · obtain ⟨n, hn, hexponent, hdecimal, hchars⟩ := exists_numeral_of_scientific d
    exact ⟨n, hn, .inr hexponent, ⟨0, by omega, hdecimal.trans d.scale_zero.symm⟩, hchars⟩

end Layout

end SearchSpace
