import Mathlib.Data.List.Forall2
import RegionHeap.Json.Codec

/-!
# Texts that spell a value

A writer puts a text together from numerals, names and records. A reader cuts the text into tokens
and keeps the containers that are open on a stack. That the reader finds what the writer wrote is
no statement about whole texts: a field is read in the middle of a record, with a stack below it
and the other fields to come. So what is said of a part of a text is that it spells a value
wherever it stands.

* `Reading.read?`: reading a text on from the middle.
* `Ends`: what may follow a numeral.
* `Spells`: a text completes a value in every place for a value.
* `spells_natural`, `spells_name`, `spells_record`: the parts that texts are made of.
* `Spells.parse?`: such a text by itself.
-/

namespace RegionHeap

-- ---------------------------------------------------------------------------
-- Numerals
-- ---------------------------------------------------------------------------

/-- Only zero is written with a zero in front. -/
theorem head?_digits_ne {n : Nat} (hn : n ≠ 0) : (digits n).head? ≠ some '0' := by
  induction n using Nat.strongRecOn with
  | ind n ih =>
    have hSplit : digits n = if n < 10 then [n.digitChar]
        else digits (n / 10) ++ [(n % 10).digitChar] :=
      Nat.toDigits_eq_if (by decide)
    rw [hSplit]
    split
    · next hSmall =>
      have hNoZero : ∀ d < 10, d ≠ 0 → Nat.digitChar d ≠ '0' := by decide
      rw [List.head?_cons]
      exact fun h => hNoZero n hSmall hn (Option.some.inj h)
    · rw [List.head?_append_of_ne_nil _ (digits_ne_nil _)]
      exact ih (n / 10) (by omega) (by omega)

namespace Json

/-- A text that no numeral goes on into. -/
def Ends (rest : List Char) : Prop :=
  ∀ c ∈ rest.head?, c.isDigit = false ∧ c ≠ '.' ∧ c ≠ 'e' ∧ c ≠ 'E'

theorem ends_nil : Ends [] := fun _ h => absurd h (by simp)

theorem ends_comma (rest : List Char) : Ends (',' :: rest) := by
  intro c hc
  obtain rfl := Option.some.inj hc
  decide

theorem ends_closeObject (rest : List Char) : Ends ('\x7d' :: rest) := by
  intro c hc
  obtain rfl := Option.some.inj hc
  decide

section Scan

variable {rest : List Char}

/-- What ends a numeral is neither a fraction nor an exponent. -/
theorem Ends.skip (h : Ends rest) :
    skipFraction? rest = some rest ∧ skipExponent? rest = some rest := by
  cases rest with
  | nil => exact ⟨rfl, rfl⟩
  | cons c rest =>
    obtain ⟨-, hPoint, hLower, hUpper⟩ := h c rfl
    refine ⟨?_, ?_⟩
    · rw [skipFraction?]
      intro cs hCons
      exact hPoint (List.cons.inj hCons).1
    · rw [skipExponent?]
      · intro cs hCons
        exact hLower (List.cons.inj hCons).1
      · intro cs hCons
        exact hUpper (List.cons.inj hCons).1

/-- **A numeral** is read up to its end, with its value. -/
theorem scanUnsigned?_digits (n : Nat) (h : Ends rest) :
    scanUnsigned? (digits n ++ rest) = some (.number (some n), rest) := by
  obtain ⟨hFraction, hExponent⟩ := h.skip
  have hWhole : (digits n ++ rest).takeWhile Char.isDigit = digits n :=
    takeWhile_digits_append n fun c hc => (h c hc).1
  have hRest : (digits n ++ rest).dropWhile Char.isDigit = rest := by
    have hBoth := List.takeWhile_append_dropWhile (p := Char.isDigit) (l := digits n ++ rest)
    rw [hWhole] at hBoth
    exact List.append_cancel_left hBoth
  have hProper : ((digits n).isEmpty ||
      ((digits n).head? == some '0' && decide (1 < (digits n).length))) = false := by
    rcases Nat.eq_zero_or_pos n with rfl | hPos
    · rfl
    · simp [digits_ne_nil, head?_digits_ne (Nat.ne_of_gt hPos)]
  simp only [scanUnsigned?, hWhole, hRest, hProper, hFraction, hExponent, Option.bind_eq_bind,
    Option.bind_some, Bool.false_eq_true, if_false, beq_self_eq_true, if_true,
    ofDigitChars_digits]
  rfl

/-- A token that begins with a digit is a number. -/
theorem Token.scan?_digit {c : Char} {cs : List Char} (h : c.isDigit) :
    Token.scan? (c :: cs) = scanUnsigned? (c :: cs) := by
  have hNe (d : Char) (hd : ¬d.isDigit) : c ≠ d := by
    rintro rfl
    exact hd h
  rw [Token.scan?] <;> intro _ hCons <;> exact hNe _ (by decide) (List.cons.inj hCons).1

-- ---------------------------------------------------------------------------
-- Names
-- ---------------------------------------------------------------------------

/-- A name of characters that stand for themselves in quotes. -/
def IsPlain (name : String) : Prop := ∀ c ∈ name.toList, c ≠ '"' ∧ c ≠ '\\' ∧ 32 ≤ c.toNat

instance (name : String) : Decidable (IsPlain name) :=
  List.decidableBAll (fun c => c ≠ '"' ∧ c ≠ '\\' ∧ 32 ≤ c.toNat) name.toList

/-- Characters that stand for themselves are read up to the closing quote. -/
theorem scanParts?_plain {cs : List Char}
    (h : ∀ c ∈ cs, c ≠ '"' ∧ c ≠ '\\' ∧ 32 ≤ c.toNat) (rest : List Char) :
    scanParts? (cs ++ '"' :: rest) = some (cs.map .char, rest) := by
  induction cs with
  | nil => rw [List.nil_append, scanParts?, List.map_nil]
  | cons c cs ih =>
    obtain ⟨hQuote, hBackslash, hControl⟩ := h c List.mem_cons_self
    have hRest := ih fun d hd => h d (List.mem_cons_of_mem _ hd)
    rw [List.cons_append, scanParts?, if_neg (Nat.not_lt.mpr hControl), hRest]
    · rfl
    · exact hQuote
    · exact fun _ _ _ _ _ hc _ => hBackslash hc
    · exact fun _ _ hc _ => hBackslash hc

theorem characters?_map_char (cs : List Char) : characters? (cs.map .char) = some cs := by
  induction cs with
  | nil => rfl
  | cons c cs ih => rw [List.map_cons, characters?, ih, Option.map_some]

/-- **A name** is read up to its closing quote. -/
theorem Token.scan?_name {name : String} (h : IsPlain name) :
    Token.scan? (nameText name ++ rest) = some (.string (some name), rest) := by
  have hText : nameText name ++ rest = '"' :: (name.toList ++ '"' :: rest) := by
    rw [nameText, List.cons_append, List.cons_append, List.append_assoc]
    rfl
  rw [hText, Token.scan?, scanString?, scanParts?_plain h]
  simp only [Option.bind_eq_bind, Option.bind_some, characters?_map_char, Option.map_some,
    String.ofList_toList]
  rfl

end Scan

-- ---------------------------------------------------------------------------
-- Reading on
-- ---------------------------------------------------------------------------

namespace Reading

/-- Reads a text token by token. -/
def read? (reading : Reading) (text : List Char) : Option Reading :=
  (tokens? text).bind fun tokens => tokens.foldlM step reading

variable {reading : Reading} {text rest : List Char} {token : Token}

theorem read?_nil : reading.read? [] = some reading := by
  rw [read?, tokens?]
  rfl

/-- **One token** is one step. -/
theorem read?_of_scan? {c : Char} (hBlank : isBlank c = false) (hText : text.head? = some c)
    (hScan : Token.scan? text = some (token, rest)) :
    reading.read? text = (reading.step token).bind fun next => next.read? rest := by
  obtain ⟨cs, rfl⟩ : ∃ cs, text = c :: cs := List.head?_eq_some_iff.mp hText
  have hTokens : tokens? (c :: cs) = (tokens? rest).map (token :: ·) := by
    rw [tokens?, if_neg (by simp [hBlank])]
    split
    · next hNone => exact absurd (hScan.symm.trans hNone) (by simp)
    · next hSome =>
      obtain ⟨rfl, rfl⟩ := Prod.mk.inj (Option.some.inj (hScan.symm.trans hSome))
      rfl
  rw [read?, hTokens]
  cases hRest : tokens? rest with
  | none => cases reading.step token <;> simp [read?, hRest]
  | some tokens => simp [read?, hRest, List.foldlM_cons]

-- The marks of a record are one token each.

theorem read?_comma :
    reading.read? (',' :: rest) = (reading.step .comma).bind fun next => next.read? rest :=
  read?_of_scan? (c := ',') rfl rfl rfl

theorem read?_colon :
    reading.read? (':' :: rest) = (reading.step .colon).bind fun next => next.read? rest :=
  read?_of_scan? (c := ':') rfl rfl rfl

theorem read?_openObject :
    reading.read? ('\x7b' :: rest) = (reading.step .openObject).bind fun next => next.read? rest :=
  read?_of_scan? (c := '\x7b') rfl rfl rfl

theorem read?_closeObject :
    reading.read? ('\x7d' :: rest) = (reading.step .closeObject).bind fun next => next.read? rest :=
  read?_of_scan? (c := '\x7d') rfl rfl rfl

theorem read?_name {name : String} (h : IsPlain name) :
    reading.read? (nameText name ++ rest) =
      (reading.step (.string (some name))).bind fun next => next.read? rest :=
  read?_of_scan? (c := '"') rfl rfl (Token.scan?_name h)

end Reading

-- ---------------------------------------------------------------------------
-- Spelling
-- ---------------------------------------------------------------------------

/-- A text spells a value: in every place for a value, with anything below on the stack and
anything to follow, reading the text completes that value. -/
def Spells (text : List Char) (v : Value) : Prop :=
  ∀ opened rest, Ends rest → (Reading.value opened).read? (text ++ rest) =
    (Reading.complete? v opened).bind fun next => next.read? rest

/-- A field of a record as it is written spells a member of an object. -/
def SpellsMember (field : String × List Char) (member : String × Value) : Prop :=
  field.1 = member.1 ∧ IsPlain field.1 ∧ Spells field.2 member.2

/-- **A number** is spelled by its digits. -/
theorem spells_natural (n : Nat) : Spells (naturalText n) (.number (some n)) := by
  intro opened rest hEnds
  obtain ⟨c, cs, hDigits⟩ := List.exists_cons_of_ne_nil (digits_ne_nil n)
  have hDigit : c.isDigit = true := isDigit_of_mem_digits (n := n) (by simp [hDigits])
  have hBlank : isBlank c = false := by
    by_contra hNot
    simp only [isBlank, Bool.not_eq_false, Bool.or_eq_true, beq_iff_eq] at hNot
    rcases hNot with ((rfl | rfl) | rfl) | rfl <;> exact absurd hDigit (by decide)
  have hScan : Token.scan? (naturalText n ++ rest) = some (.number (some n), rest) := by
    have hUnsigned := scanUnsigned?_digits n hEnds
    rw [hDigits, List.cons_append] at hUnsigned
    rw [naturalText, hDigits, List.cons_append, Token.scan?_digit hDigit, hUnsigned]
  exact Reading.read?_of_scan? hBlank (by rw [naturalText, hDigits]; rfl) hScan

/-- **A plain name** is spelled by itself in quotes. -/
theorem spells_name {name : String} (h : IsPlain name) :
    Spells (nameText name) (.string (some name)) :=
  fun _ _ _ => Reading.read?_name h

section Record

variable {opened : List Open} {read : List (Option String × Value)}
variable {fields : List (String × List Char)} {members : List (String × Value)}

/-- The text of the fields after the first one. -/
def furtherText (fields : List (String × List Char)) : List Char :=
  fields.flatMap fun (name, value) => ',' :: memberText name value

theorem furtherText_cons (field : String × List Char) (fields : List (String × List Char)) :
    furtherText (field :: fields) = ',' :: (memberText field.1 field.2 ++ furtherText fields) :=
  rfl

theorem recordText_cons (field : String × List Char) (fields : List (String × List Char)) :
    recordText (field :: fields) =
      '\x7b' :: (memberText field.1 field.2 ++ (furtherText fields ++ ['\x7d'])) := by
  have hFurther (first : List Char) (fields : List (String × List Char)) :
      [','].intercalate (first :: fields.map fun (name, value) => memberText name value) =
        first ++ furtherText fields := by
    induction fields generalizing first with
    | nil => rw [List.map_nil, List.intercalate_singleton, furtherText, List.flatMap_nil,
        List.append_nil]
    | cons field fields ih =>
      rw [List.map_cons, List.intercalate_cons_cons, ih, furtherText_cons, List.append_assoc]
      rfl
  rw [recordText, List.map_cons, hFurther, List.cons_append, List.append_assoc]

/-- A numeral ends before the next field and before the end of the record. -/
theorem ends_furtherText (fields : List (String × List Char)) (rest : List Char) :
    Ends (furtherText fields ++ '\x7d' :: rest) := by
  cases fields with
  | nil => exact ends_closeObject rest
  | cons => exact ends_comma _

/-- The members of an object with their names as they are read. -/
def named (members : List (String × Value)) : List (Option String × Value) :=
  members.map fun (name, v) => (some name, v)

/-- One field, where a name may come. -/
theorem SpellsMember.read? {field : String × List Char} {member : String × Value}
    {reading : Reading} (h : SpellsMember field member)
    (hKey : reading.step (.string (some field.1)) =
      some (.colon (.member read (some field.1) :: opened)))
    {rest : List Char} (hEnds : Ends rest) :
    reading.read? (memberText field.1 field.2 ++ rest) =
      (Reading.afterValue (.object ((some member.1, member.2) :: read) :: opened)).read? rest := by
  obtain ⟨hName, hPlain, hValue⟩ := h
  rw [memberText, List.append_assoc, Reading.read?_name hPlain, hKey, Option.bind_some,
    List.cons_append, Reading.read?_colon]
  show (Reading.value _).read? _ = _
  rw [hValue _ _ hEnds, ← hName]
  rfl

/-- The fields of a record after its first, and its end. -/
theorem read?_fields (h : List.Forall₂ SpellsMember fields members) (rest : List Char) :
    (Reading.afterValue (.object read :: opened)).read? (furtherText fields ++ '\x7d' :: rest) =
      (Reading.complete? (.object (read.reverse ++ named members)) opened).bind
        fun next => next.read? rest := by
  -- what was read before stays below on the stack, newest first, so the induction is for any of it
  induction h generalizing read with
  | nil =>
    rw [furtherText, List.flatMap_nil, List.nil_append, Reading.read?_closeObject, named,
      List.map_nil, List.append_nil]
    rfl
  | @cons field member fields members hField _ ih =>
    rw [furtherText_cons, List.cons_append, List.append_assoc, Reading.read?_comma]
    show (Reading.key (.object read :: opened)).read? _ = _
    rw [hField.read? rfl (ends_furtherText fields rest), ih, List.reverse_cons, List.append_assoc]
    rfl

/-- **A record** of fields that are spelled is spelled. -/
theorem spells_record (h : List.Forall₂ SpellsMember fields members) :
    Spells (recordText fields) (.object (named members)) := by
  -- a record ends with its brace, so anything may follow
  intro opened rest _
  cases h with
  | nil =>
    show (Reading.value opened).read? ('\x7b' :: '\x7d' :: rest) = _
    rw [Reading.read?_openObject]
    show (Reading.firstKey (.object [] :: opened)).read? ('\x7d' :: rest) = _
    rw [Reading.read?_closeObject]
    rfl
  | @cons field member fields members hField hFields =>
    rw [recordText_cons, List.cons_append, List.append_assoc, List.append_assoc,
      Reading.read?_openObject]
    show (Reading.firstKey (.object [] :: opened)).read? _ = _
    rw [List.singleton_append, hField.read? rfl (ends_furtherText fields rest),
      read?_fields hFields]
    rfl

end Record

/-- **A text that spells a value** is read as that value. -/
theorem Spells.parse? {text : List Char} {v : Value} (h : Spells text v) :
    Value.parse? text = some v := by
  have hRead := h [] [] ends_nil
  rw [List.append_nil, Reading.complete?, Option.bind_some, Reading.read?_nil,
    Reading.read?] at hRead
  obtain ⟨tokens, hTokens, hFold⟩ := Option.bind_eq_some_iff.mp hRead
  rw [Value.parse?, hTokens]
  show (tokens.foldlM Reading.step (.value [])).bind _ = _
  rw [hFold]
  rfl

end Json

end RegionHeap
