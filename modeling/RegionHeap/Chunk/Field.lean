import RegionHeap.Region
import RegionHeap.Memory.Basic

/-!
# The fields of a chunk

A chunk begins with a header that links it to its neighbours in address order,
names its state and carries a canary. While the chunk is free, the first bytes of
its payload hold the links of the ring it is filed in. All links are offsets from
the region's base.

Main definitions: `Field`, with the place of each field in the chunk, and
`Region.read` and `Region.write`, the only access to fields. What a field belongs to
has to lie inside the region, and to be as aligned as its words are.
-/

namespace RegionHeap

/-- What a chunk keeps in memory. -/
inductive Field
  /-- The chunk before this one in address order. -/
  | previous
  /-- The chunk after this one in address order. -/
  | next
  /-- The state of the chunk. -/
  | tag
  /-- A word that depends on the chunk's offset. -/
  | canary
  /-- The chunk before this one in its ring. -/
  | ringPrevious
  /-- The chunk after this one in its ring. -/
  | ringNext
  deriving DecidableEq, Repr

namespace Field

/-- Where the field starts, from the start of the chunk. -/
def position : Field → Nat
  | previous => 0
  | next => 8
  | tag => 16
  | canary => 20
  | ringPrevious => 32
  | ringNext => 40

/-- How many bytes the field has. -/
def width : Field → Nat
  | tag | canary => 4
  | previous | next | ringPrevious | ringNext => 8

/-- How many bytes of the chunk must lie inside the region before the field is
touched: the header, or the header and both ring links. -/
def reach : Field → Nat
  | previous | next | tag | canary => headerSize
  | ringPrevious | ringNext => headerSize + minPayload

/-- What the address of the header, or of the pair of ring links, that the field belongs
to is a multiple of. Payloads are aligned more than ring links have to be. -/
def alignment : Field → Nat
  | previous | next | tag | canary => Word.alignment
  | ringPrevious | ringNext => 8

end Field

namespace Region

/-- The address of a field of the chunk at `offset`. The region's base and the length of
a header are aligned, so it is the offset that decides whether the field is. -/
def fieldAddress (r : Region) (offset : Nat) (field : Field) : Checked Nat :=
  if r.size < offset + field.reach then .error .outOfRegion
  else if offset % field.alignment ≠ 0 then .error .misaligned
  else .ok (r.base + offset + field.position)

/-- The content of a field of the chunk at `offset`. -/
def read (r : Region) (m : Memory) (offset : Nat) (field : Field) : Checked Nat := do
  let address ← r.fieldAddress offset field
  return m.load address field.width

/-- Writes a field of the chunk at `offset`. -/
def write (r : Region) (m : Memory) (offset : Nat) (field : Field) (value : Nat) :
    Checked Memory := do
  let address ← r.fieldAddress offset field
  return m.store address field.width value

/-- The address of the payload of the chunk at `offset`. -/
def payload (r : Region) (offset : Nat) : Nat := r.base + offset + headerSize

/-- The offset of the chunk whose payload would start at `address`, if there is room
for its header at or below the tail. -/
def offsetOfPayload? (r : Region) (address : Nat) : Option Nat :=
  if r.base + headerSize ≤ address ∧ address - r.base - headerSize ≤ r.tail then
    some (address - r.base - headerSize)
  else none

end Region

end RegionHeap
