import RegionHeap.Heap.Basic

/-!
# Walking the chain

The chunks of a heap, listed by following the chain upwards from the head. The walk
stops at a link that does not lead upwards, passes the tail or is not aligned, so
it ends whatever the headers hold.

Main definitions: `ChunkInfo`, `Region.chunksFrom`, `Store.chunks`, `ChunkInfo.map`.
-/

namespace RegionHeap

/-- A chunk as the walk sees it. -/
structure ChunkInfo where
  /-- Where its header is, from the region's base. -/
  offset : Nat
  /-- Where its payload is. -/
  address : Nat
  /-- How many bytes the payload has. -/
  size : Nat
  /-- Its state, unless the tag is unknown. -/
  mark : Option Mark
  deriving DecidableEq, Repr

namespace ChunkInfo

/-- Whether the chunk is free. -/
def isFree (chunk : ChunkInfo) : Bool := chunk.mark == some .free

/-- The name of the chunk's state. -/
def stateName (chunk : ChunkInfo) : String :=
  match chunk.mark with
  | some .used => "Used"
  | some .free => "Free"
  | some .sentinel => "Sentinel"
  | none => "Invalid"

/-- The chunk in short: a letter for its state, its offset and its size. -/
def summary (chunk : ChunkInfo) : String :=
  let letter :=
    match chunk.mark with
    | some .used => "U"
    | some .free => "F"
    | some .sentinel => "S"
    | none => "?"
  s!"{letter}{chunk.offset}:{chunk.size}"

/-- A list of chunks in short, separated by blanks. -/
def map (chunks : List ChunkInfo) : String := " ".intercalate (chunks.map summary)

end ChunkInfo

namespace Region

/-- The chunk at `offset`. -/
def chunkAt (r : Region) (m : Memory) (offset : Nat) : Checked ChunkInfo := do
  return {
    offset := offset
    address := r.payload offset
    size := ← r.chunkSize m offset
    mark := ← r.mark? m offset }

/-- The chunk that the walk goes on to from `offset`: the next one in the chain, if
the link leads upwards, not past the tail, and to an aligned offset. -/
def successor? (r : Region) (m : Memory) (offset : Nat) :
    Checked (Option { next : Nat // offset < next ∧ next ≤ r.tail }) := do
  let next ← r.read m offset .next
  if h : offset < next ∧ next ≤ r.tail then
    if next % Word.alignment = 0 then return some ⟨next, h⟩ else return none
  else return none

/-- The chunks from `offset` on. -/
def chunksFrom (r : Region) (m : Memory) (offset : Nat) : Checked (List ChunkInfo) := do
  let chunk ← r.chunkAt m offset
  match ← r.successor? m offset with
  | none => return [chunk]
  | some ⟨next, _⟩ => return chunk :: (← r.chunksFrom m next)
termination_by r.tail - offset

end Region

namespace Store

/-- The chunks of the heap in address order, boundaries included; none if it has no
region. -/
def chunks (s : Store) : Checked (List ChunkInfo) :=
  match s.heap.region with
  | none => return []
  | some r => r.chunksFrom s.memory 0

end Store

end RegionHeap
