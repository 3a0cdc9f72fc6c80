import RegionHeap.Chunk.Field

/-!
# Chunk headers

The state of a chunk is written as one of three tags; any other tag is no state.
The canary mixes a constant with the chunk's offset, so that a header copied from
elsewhere is noticed.
-/

namespace RegionHeap

/-- The state of a chunk. -/
inductive Mark
  /-- Handed out to a caller. -/
  | used
  /-- Filed in a ring. -/
  | free
  /-- A boundary of the region. -/
  | sentinel
  deriving DecidableEq, Repr

namespace Mark

/-- The tag that stands for a state: four letters, the first in the highest byte. -/
def tag : Mark → Nat
  | used => 0x55534544
  | free => 0x46524545
  | sentinel => 0x53454E54

/-- The state that a tag stands for. -/
def ofTag? (n : Nat) : Option Mark :=
  if n = used.tag then some used
  else if n = free.tag then some free
  else if n = sentinel.tag then some sentinel
  else none

theorem ofTag?_eq_some_iff {n : Nat} {mark : Mark} : ofTag? n = some mark ↔ n = mark.tag := by
  unfold ofTag?
  split
  · cases mark <;> simp_all [tag]
  · split
    · cases mark <;> simp_all [tag]
    · split <;> cases mark <;> simp_all [tag]

end Mark

/-- The canary of the chunk at `offset`. -/
def canaryOf (offset : Nat) : Nat := 0x6B686561 ^^^ offset % (1 <<< 32)

namespace Region

/-- Writes a whole header at `offset`. The last eight of its bytes belong to no field
and keep what they hold. -/
def writeHeader (r : Region) (m : Memory) (offset previous next : Nat) (mark : Mark) :
    Checked Memory := do
  let m ← r.write m offset .previous previous
  let m ← r.write m offset .next next
  let m ← r.write m offset .tag mark.tag
  r.write m offset .canary (canaryOf offset)

/-- Changes the state of the chunk at `offset`. -/
def setMark (r : Region) (m : Memory) (offset : Nat) (mark : Mark) : Checked Memory :=
  r.write m offset .tag mark.tag

/-- The state of the chunk at `offset`, if its tag is one. -/
def mark? (r : Region) (m : Memory) (offset : Nat) : Checked (Option Mark) := do
  return Mark.ofTag? (← r.read m offset .tag)

/-- Whether the chunk at `offset` is free. -/
def isFree (r : Region) (m : Memory) (offset : Nat) : Checked Bool := do
  return (← r.mark? m offset) == some .free

end Region

end RegionHeap
