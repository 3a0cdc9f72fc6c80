import RegionHeap.Chunk.Chain
import RegionHeap.SizeClass

/-!
# Bins of free chunks

Every size class has a bin: a ring of free chunks, linked both ways through their
payloads, whose head is the chunk filed last. Outside memory there are only the
heads, one bit per class that says whether its ring has a member, and the number
of members of all rings.

Main definitions: `Bins.push`, `Bins.pop`, `Bins.remove`, `Bins.firstOccupied?`,
`Bins.largest`; `Region.overRing` walks a ring once around, and `Bins.ring` lists
the members of a bin, newest first.
-/

namespace RegionHeap

/-- Where the ring of each size class starts. -/
structure Bins where
  /-- The chunk filed last in each class. -/
  heads : Vector (Option Nat) 64
  /-- Bit `k` is set when class `k` has a chunk. -/
  occupied : BitVec 64
  /-- How many chunks all rings have. -/
  count : Nat
  deriving DecidableEq

namespace Bins

/-- Bins without a chunk. -/
def empty : Bins := { heads := Vector.replicate 64 none, occupied := 0#64, count := 0 }

/-- The chunk filed last in a class. -/
def head (bins : Bins) (k : SizeClass) : Option Nat := bins.heads[k]

/-- Makes `offset` the head of a class. -/
def setHead (bins : Bins) (k : SizeClass) (offset : Option Nat) : Bins :=
  { bins with heads := bins.heads.set k offset }

/-- The first class from `start` on that has a chunk. -/
def firstOccupied? (bins : Bins) (start : SizeClass) : Option SizeClass :=
  SizeClass.all.find? fun k => decide (start ≤ k) && bins.occupied[k]

/-- The last class that has a chunk. -/
def lastOccupied? (bins : Bins) : Option SizeClass :=
  SizeClass.all.reverse.find? fun k => bins.occupied[k]

/-- Files the free chunk at `offset` in the class of its size, as the new head. -/
def push (bins : Bins) (r : Region) (m : Memory) (offset : Nat) : Checked (Bins × Memory) := do
  let k := SizeClass.ofSize (← r.chunkSize m offset)
  let (occupied, m) ←
    match bins.head k with
    | none => do
      let m ← r.write m offset .ringPrevious offset
      let m ← r.write m offset .ringNext offset
      pure (bins.occupied ||| BitVec.twoPow 64 k, m)
    | some head => do
      let last ← r.read m head .ringPrevious
      let m ← r.write m offset .ringPrevious last
      let m ← r.write m offset .ringNext head
      let m ← r.write m last .ringNext offset
      let m ← r.write m head .ringPrevious offset
      pure (bins.occupied, m)
  let count ← Word.add bins.count 1
  return ({ bins.setHead k (some offset) with occupied := occupied, count := count }, m)

/-- Takes the chunk at `offset` out of the ring of class `k`. -/
def detach (bins : Bins) (r : Region) (m : Memory) (offset : Nat) (k : SizeClass) :
    Checked (Bins × Memory) := do
  let count ← Word.sub bins.count 1
  let next ← r.read m offset .ringNext
  if next = offset then
    return ({ bins.setHead k none with
      occupied := bins.occupied &&& ~~~BitVec.twoPow 64 k, count := count }, m)
  else
    let previous ← r.read m offset .ringPrevious
    let m ← r.write m previous .ringNext next
    let m ← r.write m next .ringPrevious previous
    let bins := if bins.head k = some offset then bins.setHead k (some next) else bins
    return ({ bins with count := count }, m)

/-- Takes the free chunk at `offset` out of the ring of the class of its size. -/
def remove (bins : Bins) (r : Region) (m : Memory) (offset : Nat) : Checked (Bins × Memory) := do
  let size ← r.chunkSize m offset
  bins.detach r m offset (SizeClass.ofSize size)

/-- Takes the newest chunk out of class `k`. -/
def pop (bins : Bins) (r : Region) (m : Memory) (k : SizeClass) :
    Checked (Option (Nat × Bins × Memory)) :=
  match bins.head k with
  | none => return none
  | some offset => do
    let (bins, m) ← bins.detach r m offset k
    return some (offset, bins, m)

end Bins

-- ---------------------------------------------------------------------------
-- Once around a ring
-- ---------------------------------------------------------------------------

namespace Region

/-- Visits the ring members from `offset` until the walk is back at `head`, at most
`steps` of them. -/
def overRingWithin {α : Type} (r : Region) (m : Memory) (head : Nat) (visit : Nat → Checked α) :
    (steps offset : Nat) → Checked (List α)
  | 0, _ => throw .divergence
  | steps + 1, offset => do
    let result ← visit offset
    let next ← r.read m offset .ringNext
    if next = head then return [result]
    else return result :: (← r.overRingWithin m head visit steps next)

/-- Visits the members of the ring of `head`, once around. Every member's links lie
inside the region, so a walk of more steps than the region has bytes goes round in
circles and never returns. -/
def overRing {α : Type} (r : Region) (m : Memory) (head : Nat) (visit : Nat → Checked α) :
    Checked (List α) :=
  r.overRingWithin m head visit r.size head

end Region

namespace Bins

/-- The members of a class, newest first. -/
def ring (bins : Bins) (r : Region) (m : Memory) (k : SizeClass) : Checked (List Nat) :=
  match bins.head k with
  | none => return []
  | some head => r.overRing m head pure

/-- The size of the largest chunk in any ring, or zero. Only the last occupied class
can hold it. -/
def largest (bins : Bins) (r : Region) (m : Memory) : Checked Nat :=
  match bins.lastOccupied?.bind bins.head with
  | none => return 0
  | some head => do
    let sizes ← r.overRing m head (r.chunkSize m)
    return sizes.foldl max 0

end Bins

end RegionHeap
