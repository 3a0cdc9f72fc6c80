import RegionHeap.Text.Numeral

/-!
# JSON tokens

A JSON text is cut into tokens; blanks between them are skipped. Of a number only
natural numbers written as such keep their value, of a string only one without a lone
surrogate keeps its content, since nothing else is ever read out of them. Everything
is still checked for its form.

Main definitions: `Token`, `Token.scan?` (the first token of a text) and `tokens?`.
-/

namespace RegionHeap.Json

/-- A token of a JSON text. -/
inductive Token
  | openObject
  | closeObject
  | openArray
  | closeArray
  | colon
  | comma
  | null
  | true
  | false
  /-- A number, with its value if it is written as a natural number. -/
  | number (value : Option Nat)
  /-- A string, with its content if that is a sequence of characters. -/
  | string (content : Option String)
  deriving DecidableEq, Repr

/-- Whether a character may stand between tokens. -/
def isBlank (c : Char) : Bool := c == ' ' || c == '\n' || c == '\t' || c == '\r'

-- ---------------------------------------------------------------------------
-- Numbers
-- ---------------------------------------------------------------------------

/-- Drops at least one digit. -/
def skipDigits? (cs : List Char) : Option (List Char) :=
  if (cs.takeWhile Char.isDigit).isEmpty then none else some (cs.dropWhile Char.isDigit)

/-- Drops a fraction, if there is one. -/
def skipFraction? : List Char → Option (List Char)
  | '.' :: cs => skipDigits? cs
  | cs => some cs

/-- Drops a sign, if there is one. -/
def skipSign : List Char → List Char
  | '+' :: cs => cs
  | '-' :: cs => cs
  | cs => cs

/-- Drops an exponent, if there is one. -/
def skipExponent? : List Char → Option (List Char)
  | 'e' :: cs => skipDigits? (skipSign cs)
  | 'E' :: cs => skipDigits? (skipSign cs)
  | cs => some cs

/-- Reads a number that does not begin with a sign. Leading zeros are not allowed. -/
def scanUnsigned? (cs : List Char) : Option (Token × List Char) := do
  let whole := cs.takeWhile Char.isDigit
  let rest := cs.dropWhile Char.isDigit
  if whole.isEmpty || (whole.head? == some '0' && 1 < whole.length) then none
  else
    let after ← skipExponent? (← skipFraction? rest)
    let value := if after == rest then some (Nat.ofDigitChars 10 whole 0) else none
    return (.number value, after)

-- ---------------------------------------------------------------------------
-- Strings
-- ---------------------------------------------------------------------------

/-- A part of a string: a character, or the code unit of an escape. -/
inductive Part
  | char (c : Char)
  | unit (n : Nat)
  deriving DecidableEq, Repr

/-- The value of a hexadecimal digit. -/
def hexValue? (c : Char) : Option Nat :=
  if c.isDigit then some (c.toNat - '0'.toNat)
  else if 'a' ≤ c && c ≤ 'f' then some (c.toNat - 'a'.toNat + 10)
  else if 'A' ≤ c && c ≤ 'F' then some (c.toNat - 'A'.toNat + 10)
  else none

/-- The character that a letter after a backslash stands for. -/
def escaped? : Char → Option Char
  | '"' => some '"'
  | '\\' => some '\\'
  | '/' => some '/'
  | 'b' => some '\x08'
  | 'f' => some '\x0c'
  | 'n' => some '\n'
  | 'r' => some '\r'
  | 't' => some '\t'
  | _ => none

/-- Reads a string after its opening quote, up to its closing quote. -/
def scanParts? : List Char → Option (List Part × List Char)
  | [] => none
  | '"' :: cs => some ([], cs)
  | '\\' :: 'u' :: a :: b :: c :: d :: cs => do
    let unit := (← hexValue? a) * 4096 + (← hexValue? b) * 256 + (← hexValue? c) * 16 +
      (← hexValue? d)
    let (parts, rest) ← scanParts? cs
    return (.unit unit :: parts, rest)
  | '\\' :: e :: cs => do
    let c ← escaped? e
    let (parts, rest) ← scanParts? cs
    return (.char c :: parts, rest)
  | c :: cs => do
    if c.toNat < 32 then none
    else
      let (parts, rest) ← scanParts? cs
      return (.char c :: parts, rest)

/-- The characters that parts of a string stand for. A code unit is a character, or a
high surrogate followed by a low one. -/
def characters? : List Part → Option (List Char)
  | [] => some []
  | .char c :: parts => (characters? parts).map (c :: ·)
  | .unit n :: parts =>
    if n < 0xD800 || 0xE000 ≤ n then (characters? parts).map (Char.ofNat n :: ·)
    else if 0xDC00 ≤ n then none
    else
      match parts with
      | .unit low :: parts =>
        if 0xDC00 ≤ low && low < 0xE000 then
          let code := 0x10000 + (n - 0xD800) * 0x400 + (low - 0xDC00)
          (characters? parts).map (Char.ofNat code :: ·)
        else none
      | _ => none

/-- Reads a string after its opening quote. -/
def scanString? (cs : List Char) : Option (Token × List Char) := do
  let (parts, rest) ← scanParts? cs
  return (.string ((characters? parts).map String.ofList), rest)

-- ---------------------------------------------------------------------------
-- Tokens
-- ---------------------------------------------------------------------------

/-- Reads the token that a text begins with. -/
def Token.scan? : List Char → Option (Token × List Char)
  | '\x7b' :: cs => some (.openObject, cs)
  | '\x7d' :: cs => some (.closeObject, cs)
  | '[' :: cs => some (.openArray, cs)
  | ']' :: cs => some (.closeArray, cs)
  | ':' :: cs => some (.colon, cs)
  | ',' :: cs => some (.comma, cs)
  | 'n' :: 'u' :: 'l' :: 'l' :: cs => some (.null, cs)
  | 't' :: 'r' :: 'u' :: 'e' :: cs => some (.true, cs)
  | 'f' :: 'a' :: 'l' :: 's' :: 'e' :: cs => some (.false, cs)
  | '"' :: cs => scanString? cs
  | '-' :: cs => (scanUnsigned? cs).map fun (_, rest) => (.number none, rest)
  | cs => scanUnsigned? cs

-- ---------------------------------------------------------------------------
-- Reading ends
-- ---------------------------------------------------------------------------

theorem length_dropWhile_le {α : Type} (p : α → Bool) (xs : List α) :
    (xs.dropWhile p).length ≤ xs.length :=
  (List.dropWhile_sublist p).length_le

theorem length_skipDigits?_le {cs rest : List Char} (h : skipDigits? cs = some rest) :
    rest.length ≤ cs.length := by
  unfold skipDigits? at h
  split at h
  · simp at h
  · cases h
    exact length_dropWhile_le _ _

theorem length_skipFraction?_le {cs rest : List Char} (h : skipFraction? cs = some rest) :
    rest.length ≤ cs.length := by
  unfold skipFraction? at h
  split at h
  · have := length_skipDigits?_le h
    simp only [List.length_cons]
    omega
  · cases h
    exact Nat.le_refl _

theorem length_skipSign_le (cs : List Char) : (skipSign cs).length ≤ cs.length := by
  unfold skipSign
  split <;> simp

theorem length_skipExponent?_le {cs rest : List Char} (h : skipExponent? cs = some rest) :
    rest.length ≤ cs.length := by
  unfold skipExponent? at h
  split at h
  · next cs =>
    have h1 := length_skipDigits?_le h
    have h2 := length_skipSign_le cs
    simp only [List.length_cons]
    omega
  · next cs =>
    have h1 := length_skipDigits?_le h
    have h2 := length_skipSign_le cs
    simp only [List.length_cons]
    omega
  · cases h
    exact Nat.le_refl _

theorem length_scanUnsigned?_lt {cs rest : List Char} {t : Token}
    (h : scanUnsigned? cs = some (t, rest)) : rest.length < cs.length := by
  unfold scanUnsigned? at h
  simp only [Option.bind_eq_bind] at h
  split at h
  · simp at h
  · next hWhole =>
    simp only [Option.bind_eq_some_iff] at h
    obtain ⟨afterFraction, hFraction, after, hExponent, hReturn⟩ := h
    cases hReturn
    have h1 := length_skipFraction?_le hFraction
    have h2 := length_skipExponent?_le hExponent
    have h3 : (cs.takeWhile Char.isDigit).length + (cs.dropWhile Char.isDigit).length =
        cs.length := by
      rw [← List.length_append, List.takeWhile_append_dropWhile]
    have h4 : (cs.takeWhile Char.isDigit).length ≠ 0 := by
      intro h0
      rw [List.length_eq_zero_iff] at h0
      simp [h0] at hWhole
    omega

theorem length_scanParts?_lt {cs rest : List Char} {parts : List Part}
    (h : scanParts? cs = some (parts, rest)) : rest.length < cs.length := by
  fun_induction scanParts? cs generalizing parts rest with
  | case1 => simp at h
  | case2 cs =>
    cases h
    simp
  | case3 a b c d cs ih =>
    simp only [Option.bind_eq_bind, Option.bind_eq_some_iff] at h
    obtain ⟨_, _, _, _, _, _, _, _, ⟨parts', rest'⟩, hParts, hReturn⟩ := h
    cases hReturn
    have := ih hParts
    simp only [List.length_cons]
    omega
  | case4 e cs _ ih =>
    simp only [Option.bind_eq_bind, Option.bind_eq_some_iff] at h
    obtain ⟨_, _, ⟨parts', rest'⟩, hParts, hReturn⟩ := h
    cases hReturn
    have := ih hParts
    simp only [List.length_cons]
    omega
  | case5 => simp at h
  | case6 c cs _ _ _ _ ih =>
    simp only [Option.bind_eq_bind, Option.bind_eq_some_iff] at h
    obtain ⟨⟨parts', rest'⟩, hParts, hReturn⟩ := h
    cases hReturn
    have := ih hParts
    simp only [List.length_cons]
    omega

/-- Every token has at least one character. -/
theorem Token.length_scan?_lt {cs rest : List Char} {t : Token}
    (h : Token.scan? cs = some (t, rest)) : rest.length < cs.length := by
  unfold Token.scan? at h
  split at h
  all_goals try (cases h; simp only [List.length_cons]; omega)
  · simp only [scanString?, Option.bind_eq_bind, Option.bind_eq_some_iff] at h
    obtain ⟨⟨parts, rest'⟩, hParts, hReturn⟩ := h
    cases hReturn
    have := length_scanParts?_lt hParts
    simp only [List.length_cons]
    omega
  · simp only [Option.map_eq_some_iff] at h
    obtain ⟨⟨t', rest'⟩, hNumber, hReturn⟩ := h
    cases hReturn
    have := length_scanUnsigned?_lt hNumber
    simp only [List.length_cons]
    omega
  · exact length_scanUnsigned?_lt h

/-- Cuts a text into tokens. -/
def tokens? (cs : List Char) : Option (List Token) :=
  match cs with
  | [] => some []
  | c :: rest =>
    if isBlank c then tokens? rest
    else
      match _h : Token.scan? (c :: rest) with
      | none => none
      | some (t, rest) => (tokens? rest).map (t :: ·)
termination_by cs.length
decreasing_by
  · simp
  · exact Token.length_scan?_lt _h

end RegionHeap.Json
