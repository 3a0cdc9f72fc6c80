import RegionHeap.Chunk.Header

/-!
# The chain of chunks

Headers link to their neighbours in address order, from the head boundary at
offset zero up to the tail, whose successor is the head again. A chunk's size is
not stored: it is the distance to its successor less the header.

Main definitions: `Region.chunkSize`, `Region.spliceAfter`, `Region.unlink`.
-/

namespace RegionHeap.Region

/-- The payload size of the chunk at `offset`. The tail, whose successor lies below
it, has none. -/
def chunkSize (r : Region) (m : Memory) (offset : Nat) : Checked Nat := do
  let next ← r.read m offset .next
  if next ≤ offset then return 0 else Word.sub (next - offset) headerSize

/-- Puts a chunk with a fresh header at `fresh` between the chunk at `offset` and its
successor. -/
def spliceAfter (r : Region) (m : Memory) (offset fresh : Nat) (mark : Mark) :
    Checked Memory := do
  let next ← r.read m offset .next
  let m ← r.writeHeader m fresh offset next mark
  let m ← r.write m offset .next fresh
  r.write m next .previous fresh

/-- Takes the chunk at `offset` out of the chain; its bytes go to its predecessor. -/
def unlink (r : Region) (m : Memory) (offset : Nat) : Checked Memory := do
  let previous ← r.read m offset .previous
  let next ← r.read m offset .next
  let m ← r.write m previous .next next
  r.write m next .previous previous

end RegionHeap.Region
