import RegionHeap.Heap.Basic

/-!
# Statistics

A snapshot of what a heap has counted, and its rendering in one line.

Main definitions: `Stats`, `Store.stats`, `Stats.line`, `Stats.isBalanced`.
-/

namespace RegionHeap

/-- The totals of a heap at one moment. -/
structure Stats where
  /-- The size of the aligned region. -/
  regionSize : Nat
  /-- Payload bytes of free chunks. -/
  freeBytes : Nat
  /-- Payload bytes of used chunks. -/
  usedBytes : Nat
  /-- Header bytes of the chunks between the boundaries. -/
  metaBytes : Nat
  /-- Header bytes of the two boundaries. -/
  sentinelBytes : Nat
  /-- Allocations that succeeded. -/
  allocations : Nat
  /-- Frees that were accepted. -/
  frees : Nat
  /-- Allocations for which there was no chunk. -/
  failedAllocations : Nat
  /-- How many chunks are free. -/
  freeChunks : Nat
  /-- The payload size of the largest free chunk. -/
  largestFree : Nat
  deriving DecidableEq, Repr

namespace Stats

/-- Header bytes of all chunks. -/
def headerBytes (stats : Stats) : Checked Nat := Word.add stats.metaBytes stats.sentinelBytes

/-- Whether the bytes add up to the size of the region. -/
def isBalanced (stats : Stats) : Checked Bool := do
  let total ← Word.sum [stats.freeBytes, stats.usedBytes, stats.metaBytes, stats.sentinelBytes]
  return total == stats.regionSize

/-- Allocations that have not been freed. -/
def liveAllocations (stats : Stats) : Nat := stats.allocations - stats.frees

/-- The totals in one line. -/
def line (stats : Stats) : Checked String := do
  let header ← stats.headerBytes
  return s!"heap: {stats.regionSize} bytes, used {stats.usedBytes}, free {stats.freeBytes} in " ++
    s!"{stats.freeChunks} chunks (largest {stats.largestFree}), meta {header}"

end Stats

/-- The totals of the heap. -/
def Store.stats (s : Store) : Checked Stats := do
  let counters := s.heap.counters
  let largestFree ←
    match s.heap.region with
    | none => pure 0
    | some r => s.heap.bins.largest r s.memory
  return {
    regionSize := s.heap.region.elim 0 Region.size
    freeBytes := counters.freeBytes
    usedBytes := counters.usedBytes
    metaBytes := counters.metaBytes
    sentinelBytes := if s.heap.isInitialized then 2 * headerSize else 0
    allocations := counters.allocations
    frees := counters.frees
    failedAllocations := counters.failedAllocations
    freeChunks := s.heap.bins.count
    largestFree := largestFree }

end RegionHeap
