/-!
# Quoted text

Text is quoted between double quotes. A quote, a backslash, a line feed, a tab and a carriage return
inside are written as a backslash and a letter; every other character stands for itself. Reading
accepts these five escapes only. Main statements: `decode` reads the texts up to a closing quote and
nothing else (`IsBody.decode_append`, `isBody_of_decode`), and so what `encode` writes, and leaves the
rest of the input alone (`decode_encode`).
-/

namespace SearchSpace.Quoted

/-- The letter that stands after a backslash for a character, where the character is escaped. -/
def escape? : Char → Option Char
  | '"' => some '"'
  | '\\' => some '\\'
  | '\n' => some 'n'
  | '\t' => some 't'
  | '\r' => some 'r'
  | _ => none

/-- The character that an escape letter stands for. -/
def unescape? : Char → Option Char
  | '"' => some '"'
  | '\\' => some '\\'
  | 'n' => some '\n'
  | 't' => some '\t'
  | 'r' => some '\r'
  | _ => none

/-- A letter read after a backslash undoes the escape that wrote it. -/
theorem unescape?_of_escape? {c d : Char} (h : escape? c = some d) : unescape? d = some c := by
  unfold escape? at h
  split at h <;> cases h <;> rfl

/-- The inside of a quoted text and its closing quote. -/
def body : List Char → List Char
  | [] => ['"']
  | c :: cs => match escape? c with
    | some letter => '\\' :: letter :: body cs
    | none => c :: body cs

/-- A text between quotes. -/
def encode (cs : List Char) : List Char :=
  '"' :: body cs

/-- Reads after an opening quote, up to the closing one. -/
def decode : List Char → Option (List Char × List Char)
  | [] => none
  | '"' :: rest => some ([], rest)
  | ['\\'] => none
  | '\\' :: letter :: rest => do
    let c ← unescape? letter
    let (cs, rest) ← decode rest
    pure (c :: cs, rest)
  | c :: rest => do
    let (cs, rest) ← decode rest
    pure (c :: cs, rest)

/-- A character that is not escaped is neither the quote nor the backslash. -/
theorem ne_of_escape?_eq_none {c : Char} (h : escape? c = none) : c ≠ '"' ∧ c ≠ '\\' := by
  constructor <;> rintro rfl <;> cases h

/-- A text after an opening quote, up to the closing one, and what it stands for. -/
inductive IsBody : List Char → List Char → Prop where
  | quote : IsBody ['"'] []
  | plain {c : Char} {text cs : List Char} :
    c ≠ '"' → c ≠ '\\' → IsBody text cs → IsBody (c :: text) (c :: cs)
  | escape {letter c : Char} {text cs : List Char} :
    unescape? letter = some c → IsBody text cs → IsBody ('\\' :: letter :: text) (c :: cs)

/-- A text after an opening quote is read up to the closing one. -/
theorem IsBody.decode_append {text cs : List Char} (h : IsBody text cs) (rest : List Char) :
    decode (text ++ rest) = some (cs, rest) := by
  induction h with
  | quote => rfl
  | plain hquote hbackslash _ ih => simp [decode, hbackslash, ih]
  | escape hletter _ ih => simp [decode, hletter, ih]

/-- What is read after an opening quote is a text up to a closing one. -/
theorem isBody_of_decode {text cs rest : List Char} (h : decode text = some (cs, rest)) :
    ∃ pre, text = pre ++ rest ∧ IsBody pre cs := by
  induction text using decode.induct generalizing cs with
  | case1 => cases h
  | case2 text =>
    cases h
    exact ⟨['"'], rfl, .quote⟩
  | case3 => cases h
  | case4 letter text ih =>
    rw [decode] at h
    obtain ⟨c, hletter, h⟩ := Option.bind_eq_some_iff.1 h
    obtain ⟨⟨cs, rest'⟩, hdecode, h⟩ := Option.bind_eq_some_iff.1 h
    cases h
    obtain ⟨pre, rfl, hbody⟩ := ih hdecode
    exact ⟨'\\' :: letter :: pre, rfl, .escape hletter hbody⟩
  | case5 c text hquote hlast hletter ih =>
    have hbackslash : c ≠ '\\' := by
      rintro rfl
      cases text with
      | nil => exact hlast rfl rfl
      | cons letter text => exact hletter letter text rfl rfl
    have hread : decode (c :: text) = (decode text).bind fun read => some (c :: read.1, read.2) := by
      simp only [decode]
      rfl
    rw [hread] at h
    obtain ⟨⟨cs, rest'⟩, hdecode, h⟩ := Option.bind_eq_some_iff.1 h
    cases h
    obtain ⟨pre, rfl, hbody⟩ := ih hdecode
    exact ⟨c :: pre, rfl, .plain hquote hbackslash hbody⟩

/-- What is written for a text between quotes stands for it. -/
theorem isBody_body (cs : List Char) : IsBody (body cs) cs := by
  induction cs with
  | nil => exact .quote
  | cons c cs ih =>
    rw [body]
    cases h : escape? c with
    | some letter => exact .escape (unescape?_of_escape? h) ih
    | none =>
      obtain ⟨hquote, hbackslash⟩ := ne_of_escape?_eq_none h
      exact .plain hquote hbackslash ih

/-- Reading a quoted text gives the text, and stops right after it. -/
@[simp] theorem decode_encode (cs rest : List Char) :
    decode (body cs ++ rest) = some (cs, rest) :=
  (isBody_body cs).decode_append rest

end SearchSpace.Quoted
