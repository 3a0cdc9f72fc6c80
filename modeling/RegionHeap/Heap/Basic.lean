import RegionHeap.Bins
import RegionHeap.Config

/-!
# Heaps

A heap owns one region. Its chunks and rings are in memory; the record `Heap` is
what it keeps elsewhere: the region, the bins, the counters and the configuration.
A `Store` is a heap together with the memory it works on, the state that every
operation takes and returns.

An operation that the heap refuses returns a `HeapError` beside the new store; a
computation that cannot go on is a `Fault`.

Main definitions: `Store.init`, which lays out a region, and `Heap.empty`.
-/

namespace RegionHeap

/-- Running totals of bytes and calls. -/
structure Counters where
  /-- Payload bytes of free chunks. -/
  freeBytes : Nat
  /-- Payload bytes of used chunks. -/
  usedBytes : Nat
  /-- Header bytes of the chunks between the boundaries. -/
  metaBytes : Nat
  /-- Allocations that succeeded. -/
  allocations : Nat
  /-- Frees that were accepted. -/
  frees : Nat
  /-- Allocations for which there was no chunk. -/
  failedAllocations : Nat
  deriving DecidableEq, Repr

namespace Counters

/-- All totals at zero. -/
def zero : Counters :=
  { freeBytes := 0, usedBytes := 0, metaBytes := 0, allocations := 0, frees := 0,
    failedAllocations := 0 }

end Counters

/-- What a heap keeps outside its region. -/
structure Heap where
  /-- The region, once the heap has one. -/
  region : Option Region
  bins : Bins
  counters : Counters
  config : Config

namespace Heap

/-- A heap without a region; it refuses every allocation. -/
def empty : Heap :=
  { region := none, bins := Bins.empty, counters := Counters.zero, config := Config.hardened }

instance : Inhabited Heap := ⟨empty⟩

/-- Whether the heap has a region. -/
def isInitialized (heap : Heap) : Bool := heap.region.isSome

/-- The first address of the region and the first address after it. -/
def bounds (heap : Heap) : Option (Nat × Nat) := heap.region.map fun r => (r.base, r.stop)

end Heap

/-- A heap and the memory it works on. -/
structure Store where
  heap : Heap
  memory : Memory
  deriving Inhabited

/-- What an operation of a heap returns: its answer and the state it leaves. -/
abbrev Outcome (α : Type) := Except HeapError α × Store

namespace Store

/-- The operation is refused and nothing changes. -/
def refuse {α : Type} (s : Store) (e : HeapError) : Checked (Outcome α) := return (.error e, s)

/-- Lays out an empty region, between its two boundaries one free chunk that spans the
rest, and files that chunk. -/
def layOut (s : Store) (r : Region) (config : Config) : Checked Store := do
  let first := headerSize
  let m ← r.writeHeader s.memory 0 r.tail first .sentinel
  let m ← r.writeHeader m first 0 r.tail .free
  let m ← r.writeHeader m r.tail first 0 .sentinel
  let (bins, m) ← Bins.empty.push r m first
  let size ← r.chunkSize m first
  return {
    heap :=
      { region := some r
        bins := bins
        counters := { Counters.zero with freeBytes := size, metaBytes := headerSize }
        config := config }
    memory := m }

/-- Gives a heap without a region the largest one inside `start ≤ a < stop`. The caller
promises that these addresses are valid, writable memory for as long as the heap lasts,
which null never is. -/
def init (s : Store) (start stop : Nat) (config : Config) : Checked (Outcome Unit) :=
  match s.heap.region with
  | some _ => s.refuse .alreadyInitialized
  | none =>
    match Region.ofBounds? start stop with
    | .error e => s.refuse e
    | .ok r => do return (.ok (), ← s.layOut r config)

/-- Puts a new heap in the place of the present one, if its bounds are accepted. -/
def renew (s : Store) (start stop : Nat) (config : Config) : Checked (Outcome Unit) := do
  let (answer, fresh) ← Store.init { s with heap := Heap.empty } start stop config
  match answer with
  | .ok () => return (.ok (), fresh)
  | .error e => s.refuse e

end Store

end RegionHeap
