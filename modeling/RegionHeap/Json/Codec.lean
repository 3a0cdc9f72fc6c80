import RegionHeap.Json.Value
import RegionHeap.Word

/-!
# Records and variants in JSON

The parts that the JSON forms of types are made of. A record is written as an object
with its fields in order; it may also be read from an array of exactly its fields. A
variant is written as its name, or as an object whose one member has that name.

Main definitions: `naturalText`, `recordText`, `variantText` for writing, and
`Value.natural?`, `Value.fields?`, `Value.variant?` for reading.
-/

namespace RegionHeap.Json

-- ---------------------------------------------------------------------------
-- Writing
-- ---------------------------------------------------------------------------

/-- A name in quotes. Names have no character that needs an escape. -/
def nameText (name : String) : List Char := '"' :: name.toList ++ ['"']

/-- A natural number. -/
def naturalText (n : Nat) : List Char := digits n

/-- A name and the value that belongs to it. -/
def memberText (name : String) (value : List Char) : List Char := nameText name ++ ':' :: value

/-- An object with the given members, without blanks. -/
def recordText (fields : List (String × List Char)) : List Char :=
  '\x7b' :: [','].intercalate (fields.map fun (name, value) => memberText name value) ++ ['\x7d']

/-- A variant with content. -/
def variantText (name : String) (content : List Char) : List Char :=
  recordText [(name, content)]

-- ---------------------------------------------------------------------------
-- Reading
-- ---------------------------------------------------------------------------

namespace Value

/-- A natural number that is a word. -/
def natural? : Value → Option Nat
  | number (some n) => if n < Word.limit then some n else none
  | _ => none

/-- The value of the only member with a name. -/
def member? (members : List (String × Value)) (name : String) : Option Value :=
  match members.filter fun member => member.1 == name with
  | [(_, v)] => some v
  | _ => none

/-- The fields of a record with the given names. Members with other names are ignored;
their names must be proper strings all the same. -/
def fields? (names : List String) : Value → Option (List Value)
  | array items => if items.length = names.length then some items else none
  | object members => do
    let members ← members.mapM fun (key, v) => key.map fun name => (name, v)
    names.mapM (member? members)
  | _ => none

/-- The name of a variant and its content, if it has any. -/
def variant? : Value → Option (String × Option Value)
  | string (some name) => some (name, none)
  | object [(some name, content)] => some (name, some content)
  | _ => none

/-- Whether the content of a variant fits one that has none. -/
def isUnit : Option Value → Bool
  | none | some null => true
  | _ => false

end Value

end RegionHeap.Json
