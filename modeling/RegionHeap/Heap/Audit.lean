import RegionHeap.Heap.Walk

/-!
# Auditing a heap

A full check of the structure of a heap: along the chain, then around every ring,
then of the totals. It stops at the first defect, with the address at which it was
found.

Main definitions: `Audit`, `Tally.visit` (one chunk of the chain), `Audit.ring` (one
ring), `Store.audit` (everything).
-/

namespace RegionHeap

/-- A check that may find a defect. -/
abbrev Audit := ExceptT HeapError Checked

/-- What an audit has seen of the chain so far. -/
structure Tally where
  freeChunks : Nat
  freeBytes : Nat
  usedBytes : Nat
  metaBytes : Nat
  /-- Whether the last chunk was free. -/
  lastFree : Bool
  /-- Whether the last chunk was the tail. -/
  atTail : Bool
  deriving DecidableEq, Repr

namespace Tally

/-- Nothing seen yet. -/
def zero : Tally :=
  { freeChunks := 0, freeBytes := 0, usedBytes := 0, metaBytes := 0, lastFree := false,
    atTail := false }

/-- Checks the header of a chunk and adds the chunk to the tally. -/
def visit (r : Region) (m : Memory) (t : Tally) (chunk : ChunkInfo) : Audit Tally := do
  let found (defect : Defect) : HeapError := .corruption (r.base + chunk.offset) defect
  if (← r.read m chunk.offset .canary) ≠ canaryOf chunk.offset then
    throw (found .badCanary)
  if chunk.offset ≠ 0 then
    let previous ← r.read m chunk.offset .previous
    if (← r.read m previous .next) ≠ chunk.offset then
      throw (found .brokenLinks)
  let isBoundary := chunk.offset == 0 || chunk.offset == r.tail
  let t ←
    match chunk.mark, isBoundary with
    | some .sentinel, true => pure t
    | some .used, false =>
      let usedBytes ← Word.add t.usedBytes chunk.size
      let metaBytes ← Word.add t.metaBytes headerSize
      pure { t with usedBytes := usedBytes, metaBytes := metaBytes }
    | some .free, false =>
      if t.lastFree then
        throw (found .adjacentFree)
      let freeChunks ← Word.add t.freeChunks 1
      let freeBytes ← Word.add t.freeBytes chunk.size
      let metaBytes ← Word.add t.metaBytes headerSize
      pure { t with freeChunks := freeChunks, freeBytes := freeBytes, metaBytes := metaBytes }
    | _, _ => throw (found .badState)
  return { t with lastFree := chunk.isFree, atTail := chunk.offset == r.tail }

end Tally

namespace Audit

/-- Checks the chain from `offset` on. -/
def chainFrom (r : Region) (m : Memory) (t : Tally) (offset : Nat) : Audit Tally := do
  let chunk ← r.chunkAt m offset
  let t ← t.visit r m chunk
  match ← r.successor? m offset with
  | none => return t
  | some ⟨next, _⟩ => chainFrom r m t next
termination_by r.tail - offset

/-- Checks that the chain runs from the head to the tail and closes there. -/
def chain (r : Region) (m : Memory) : Audit Tally := do
  let t ← chainFrom r m Tally.zero 0
  let broken : HeapError := .corruption (r.base + r.tail) .brokenLinks
  if !t.atTail then
    throw broken
  if (← r.read m r.tail .next) ≠ 0 then
    throw broken
  if (← r.read m 0 .previous) ≠ r.tail then
    throw broken
  return t

/-- Checks the members of the ring of class `k` from `offset` until the walk is back at
`head`, with room for `allowed` more members; the answer adds their number to
`seen`. -/
def ringFrom (r : Region) (m : Memory) (k : SizeClass) (head : Nat) :
    (allowed offset seen : Nat) → Audit Nat
  | allowed, offset, seen => do
    let address ← Word.add r.base offset
    let size ← r.chunkSize m offset
    if !(← r.isFree m offset) || size < k.range.1 || k.range.2 < size then
      throw (.corruption address .misplaced)
    let next ← r.read m offset .ringNext
    if (← r.read m next .ringPrevious) ≠ offset then
      throw (.corruption address .brokenLinks)
    match allowed with
    | 0 => throw (.corruption address .brokenLinks)
    | allowed + 1 =>
      if next = head then return seen + 1
      else ringFrom r m k head allowed next (seen + 1)

/-- Checks the ring of class `k` and counts its members. A ring cannot have more of
them than headers fit into the region. -/
def ring (r : Region) (m : Memory) (bins : Bins) (k : SizeClass) : Audit Nat :=
  match bins.head k with
  | none => return 0
  | some head => ringFrom r m k head (r.size / headerSize) head 0

/-- Checks every ring, and that together they have as many members as there are free
chunks. -/
def rings (r : Region) (m : Memory) (bins : Bins) (t : Tally) : Audit Unit := do
  let binned ← SizeClass.all.foldlM
    (fun total k => do Word.add total (← ring r m bins k)) 0
  if binned ≠ t.freeChunks ∨ bins.count ≠ binned then
    throw (.corruption r.base .misplaced)

/-- Checks the counters against the chain. -/
def totals (r : Region) (counters : Counters) (t : Tally) : Audit Unit := do
  let mismatch : HeapError := .corruption r.base .counterMismatch
  if counters.freeBytes ≠ t.freeBytes ∨ counters.usedBytes ≠ t.usedBytes ∨
      counters.metaBytes ≠ t.metaBytes then
    throw mismatch
  if (← Word.sum [t.freeBytes, t.usedBytes, t.metaBytes, 2 * headerSize]) ≠ r.size then
    throw mismatch

end Audit

namespace Store

/-- Checks everything there is to check about the heap. A heap without a region is in
order. -/
def audit (s : Store) : Checked (Except HeapError Unit) :=
  match s.heap.region with
  | none => return .ok ()
  | some r => ExceptT.run do
    let t ← Audit.chain r s.memory
    Audit.rings r s.memory s.heap.bins t
    Audit.totals r s.heap.counters t

end Store

end RegionHeap
