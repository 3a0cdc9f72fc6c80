import RegionHeap.Error
import RegionHeap.Json.Codec

/-!
# The JSON form of errors

A defect is a variant without content; an error is a variant whose content, if it has
any, is a record.
-/

namespace RegionHeap

namespace Defect

/-- The name of a defect in JSON. -/
def name : Defect → String
  | outOfRange => "OutOfRange"
  | misaligned => "Misaligned"
  | sentinel => "Sentinel"
  | badCanary => "BadCanary"
  | badState => "BadState"
  | doubleFree => "DoubleFree"
  | brokenLinks => "BrokenLinks"
  | misplaced => "Misplaced"
  | adjacentFree => "AdjacentFree"
  | counterMismatch => "CounterMismatch"

/-- The defect with a name. -/
def ofName? (name : String) : Option Defect := all.find? fun defect => defect.name == name

/-- Writes a defect. -/
def toJson (defect : Defect) : List Char := Json.nameText defect.name

/-- The defect that a value stands for. -/
def ofValue? (v : Json.Value) : Option Defect := do
  let (name, content) ← v.variant?
  if Json.Value.isUnit content then ofName? name else none

/-- Reads a defect. -/
def ofJson? (text : List Char) : Option Defect := do
  ofValue? (← Json.Value.parse? text)

end Defect

namespace HeapError

/-- The name of the kind of error. -/
def kindName : HeapError → String
  | invalidRegion _ _ => "InvalidRegion"
  | regionTooSmall _ _ => "RegionTooSmall"
  | alreadyInitialized => "AlreadyInitialized"
  | notInitialized => "NotInitialized"
  | outOfMemory _ => "OutOfMemory"
  | corruption _ _ => "Corruption"

/-- Writes an error. -/
def toJson (e : HeapError) : List Char :=
  let withFields (fields : List (String × List Char)) :=
    Json.variantText e.kindName (Json.recordText fields)
  match e with
  | invalidRegion start stop =>
    withFields [("start", Json.naturalText start), ("end", Json.naturalText stop)]
  | regionTooSmall size required =>
    withFields [("size", Json.naturalText size), ("required", Json.naturalText required)]
  | alreadyInitialized => Json.nameText e.kindName
  | notInitialized => Json.nameText e.kindName
  | outOfMemory requested => withFields [("requested", Json.naturalText requested)]
  | corruption address defect =>
    withFields [("address", Json.naturalText address), ("kind", defect.toJson)]

/-- Two numbers with the given names. -/
def naturals? (first second : String) (content : Json.Value) : Option (Nat × Nat) := do
  match ← content.fields? [first, second] with
  | [a, b] => return (← a.natural?, ← b.natural?)
  | _ => none

/-- The error of a kind with the given content. -/
def ofContent? (kind : String) (content : Option Json.Value) : Option HeapError :=
  match kind with
  | "AlreadyInitialized" =>
    if Json.Value.isUnit content then some alreadyInitialized else none
  | "NotInitialized" => if Json.Value.isUnit content then some notInitialized else none
  | "InvalidRegion" => do
    let (start, stop) ← naturals? "start" "end" (← content)
    return invalidRegion start stop
  | "RegionTooSmall" => do
    let (size, required) ← naturals? "size" "required" (← content)
    return regionTooSmall size required
  | "OutOfMemory" => do
    match ← (← content).fields? ["requested"] with
    | [requested] => return outOfMemory (← requested.natural?)
    | _ => none
  | "Corruption" => do
    match ← (← content).fields? ["address", "kind"] with
    | [address, defect] => return corruption (← address.natural?) (← Defect.ofValue? defect)
    | _ => none
  | _ => none

/-- Reads an error. -/
def ofJson? (text : List Char) : Option HeapError := do
  let (kind, content) ← (← Json.Value.parse? text).variant?
  ofContent? kind content

end HeapError

end RegionHeap
