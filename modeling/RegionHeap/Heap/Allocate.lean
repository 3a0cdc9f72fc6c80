import RegionHeap.Heap.Basic

/-!
# Allocation

A request is rounded up to the alignment and to the smallest payload. It takes the
newest chunk of the first occupied class from its admitting class on; classes below
are not consulted. A chunk that is more than a header larger than needed is split
and its upper part filed again.

Main definitions: `Store.allocate`, `Store.allocateZeroed`.
-/

namespace RegionHeap

/-- The payload size that a request is served with, if rounding it up gives a word. -/
def payloadNeed? (size : Nat) : Option Nat := (Word.alignUp? size).map (max · minPayload)

namespace Store

/-- Cuts the chunk at `offset` down to `need` bytes when the rest, less a header, has
at least one byte, and files the rest. The chunk's `capacity` is no longer counted as
free. -/
def splitChunk (s : Store) (r : Region) (offset capacity need : Nat) : Checked Store := do
  let excess ← Word.sub capacity need
  if excess ≤ headerSize then return s
  else
    let rest := offset + headerSize + need
    let m ← r.spliceAfter s.memory offset rest .free
    let (bins, m) ← s.heap.bins.push r m rest
    let counters := s.heap.counters
    let freeBytes ← Word.add counters.freeBytes (← r.chunkSize m rest)
    let metaBytes ← Word.add counters.metaBytes headerSize
    return {
      heap :=
        { s.heap with
          bins := bins
          counters := { counters with freeBytes := freeBytes, metaBytes := metaBytes } }
      memory := m }

/-- Takes a chunk for `need` bytes out of class `k`, splits it and marks it used; the
answer is its offset. -/
def takeFrom (s : Store) (r : Region) (need : Nat) (k : SizeClass) :
    Checked (Option Nat × Store) := do
  match ← s.heap.bins.pop r s.memory k with
  | none => return (none, s)
  | some (offset, bins, m) =>
    let capacity ← r.chunkSize m offset
    let freeBytes ← Word.sub s.heap.counters.freeBytes capacity
    let s : Store :=
      { heap :=
          { s.heap with
            bins := bins
            counters := { s.heap.counters with freeBytes := freeBytes } }
        memory := m }
    let s ← s.splitChunk r offset capacity need
    let m ← r.setMark s.memory offset .used
    let usedBytes ← Word.add s.heap.counters.usedBytes (← r.chunkSize m offset)
    return (some offset,
      { heap :=
          { s.heap with counters := { s.heap.counters with usedBytes := usedBytes } }
        memory := m })

/-- The class that a request of `size` bytes is served from, if there is one. -/
def servingClass? (s : Store) (size : Nat) : Option (Nat × SizeClass) := do
  let need ← payloadNeed? size
  let admitting ← SizeClass.admitting? need
  let k ← s.heap.bins.firstOccupied? admitting
  return (need, k)

/-- Finds, splits and marks a chunk for `size` bytes; the answer is its offset. -/
def takeChunk (s : Store) (r : Region) (size : Nat) : Checked (Option Nat × Store) :=
  match s.servingClass? size with
  | none => return (none, s)
  | some (need, k) => s.takeFrom r need k

/-- Allocates `size` bytes; the answer is the address of the payload. -/
def allocate (s : Store) (size : Nat) : Checked (Outcome Nat) :=
  match s.heap.region with
  | none => s.refuse .notInitialized
  | some r => do
    let (chunk, s) ← s.takeChunk r size
    let counters := s.heap.counters
    match chunk with
    | some offset =>
      let allocations ← Word.add counters.allocations 1
      let heap := { s.heap with counters := { counters with allocations := allocations } }
      let address := r.payload offset
      let m :=
        match heap.config.fillByte with
        | some byte => s.memory.fill address size byte
        | none => s.memory
      return (.ok address, { heap := heap, memory := m })
    | none =>
      let failed ← Word.add counters.failedAllocations 1
      let heap := { s.heap with counters := { counters with failedAllocations := failed } }
      refuse { s with heap := heap } (.outOfMemory size)

/-- Allocates `size` bytes and clears them. -/
def allocateZeroed (s : Store) (size : Nat) : Checked (Outcome Nat) := do
  let (answer, s) ← s.allocate size
  match answer with
  | .ok address => return (.ok address, { s with memory := s.memory.fill address size 0 })
  | .error e => s.refuse e

end Store

end RegionHeap
