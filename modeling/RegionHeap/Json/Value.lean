import RegionHeap.Json.Token

/-!
# JSON values

Tokens are read into a value one at a time, with the containers that are still open on
a stack, so values may be nested to any depth.

Main definitions: `Value`, `Reading.step` and `Value.parse?`.
-/

namespace RegionHeap.Json

/-- A JSON value. -/
inductive Value
  | null
  | bool (b : Bool)
  /-- A number, with its value if it is written as a natural number. -/
  | number (value : Option Nat)
  /-- A string, with its content if that is a sequence of characters. -/
  | string (content : Option String)
  | array (items : List Value)
  /-- The members of an object in the order of the text, repeated keys included. -/
  | object (members : List (Option String × Value))

/-- A container whose end is still to come. What it has so far is newest first. -/
inductive Open
  | array (items : List Value)
  | object (members : List (Option String × Value))
  /-- An object with a key that waits for its value. -/
  | member (members : List (Option String × Value)) (key : Option String)

/-- What may come next, and the containers that are open, innermost first. -/
inductive Reading
  /-- A value. -/
  | value (opened : List Open)
  /-- A value, or the end of the array that was just opened. -/
  | firstItem (opened : List Open)
  /-- A key, or the end of the object that was just opened. -/
  | firstKey (opened : List Open)
  /-- A key. -/
  | key (opened : List Open)
  /-- The colon after a key. -/
  | colon (opened : List Open)
  /-- A comma, or the end of the innermost container. -/
  | afterValue (opened : List Open)
  /-- Nothing. -/
  | done (v : Value)

namespace Reading

/-- A value is complete: it goes into the innermost container. -/
def complete? (v : Value) : List Open → Option Reading
  | [] => some (.done v)
  | .array items :: opened => some (.afterValue (.array (v :: items) :: opened))
  | .member members name :: opened =>
    some (.afterValue (.object ((name, v) :: members) :: opened))
  | .object _ :: _ => none

/-- A value begins with a token. -/
def begin? (opened : List Open) : Token → Option Reading
  | .null => complete? .null opened
  | .true => complete? (.bool true) opened
  | .false => complete? (.bool false) opened
  | .number n => complete? (.number n) opened
  | .string content => complete? (.string content) opened
  | .openArray => some (.firstItem (.array [] :: opened))
  | .openObject => some (.firstKey (.object [] :: opened))
  | .closeArray | .closeObject | .colon | .comma => none

/-- A key of the innermost object begins with a token. -/
def key? (opened : List Open) (token : Token) : Option Reading :=
  match token, opened with
  | .string content, .object members :: opened => some (.colon (.member members content :: opened))
  | _, _ => none

/-- The innermost container ends, or goes on after a comma. -/
def continue? (opened : List Open) (token : Token) : Option Reading :=
  match token, opened with
  | .comma, .array items :: opened => some (.value (.array items :: opened))
  | .closeArray, .array items :: opened => complete? (.array items.reverse) opened
  | .comma, .object members :: opened => some (.key (.object members :: opened))
  | .closeObject, .object members :: opened => complete? (.object members.reverse) opened
  | _, _ => none

/-- Reads one token. -/
def step (reading : Reading) (token : Token) : Option Reading :=
  match reading with
  | value opened => begin? opened token
  | firstItem opened => if token = .closeArray then continue? opened token else begin? opened token
  | firstKey opened => if token = .closeObject then continue? opened token else key? opened token
  | key opened => key? opened token
  | colon opened => if token = .colon then some (.value opened) else none
  | afterValue opened => continue? opened token
  | done _ => none

end Reading

/-- Reads a text that holds one value and nothing else. -/
def Value.parse? (text : List Char) : Option Value := do
  match ← (← tokens? text).foldlM Reading.step (.value []) with
  | .done v => some v
  | _ => none

end RegionHeap.Json
