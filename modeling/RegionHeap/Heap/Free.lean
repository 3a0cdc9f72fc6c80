import RegionHeap.Heap.Basic

/-!
# Freeing

A pointer is resolved to the header of its chunk, checked first if the heap is
configured to. The chunk absorbs a free successor and is absorbed by a free
predecessor, so that no two neighbours are ever both free, and the result is filed
as the newest of its class.

Main definitions: `Store.validate`, `Store.free`, `Store.usableSize`.
-/

namespace RegionHeap.Store

/-- Whether the chunk at `offset` and its two neighbours point at each other. Links
that are not aligned, or do not lead upwards and stay at or below the tail, are
broken; they are judged before they are followed. -/
def linked (r : Region) (m : Memory) (offset : Nat) : Checked Bool := do
  let previous ← r.read m offset .previous
  let next ← r.read m offset .next
  if previous % Word.alignment = 0 ∧ next % Word.alignment = 0 ∧ previous < offset ∧
      offset < next ∧ next ≤ r.tail then
    if (← r.read m previous .next) = offset then
      return (← r.read m next .previous) == offset
    else return false
  else return false

/-- The defect that keeps the header at `offset` from being that of a used chunk, if
there is one. -/
def usedDefect? (r : Region) (m : Memory) (offset : Nat) : Checked (Option Defect) := do
  if offset = 0 ∨ r.tail ≤ offset then return some .sentinel
  else if (← r.read m offset .canary) ≠ canaryOf offset then return some .badCanary
  else
    match ← r.mark? m offset with
    | some .used => return if ← linked r m offset then none else some .brokenLinks
    | some .free => return some .doubleFree
    | some .sentinel | none => return some .badState

/-- The offset of the used chunk whose payload starts at `address`, or what is wrong
with the pointer. -/
def validate (r : Region) (m : Memory) (address : Nat) : Checked (Except HeapError Nat) :=
  if address % Word.alignment ≠ 0 then return .error (.corruption address .misaligned)
  else
    match r.offsetOfPayload? address with
    | none => return .error (.corruption address .outOfRange)
    | some offset => do
      match ← usedDefect? r m offset with
      | some defect => return .error (.corruption address defect)
      | none => return .ok offset

/-- The offset of the chunk whose payload starts at `address`, found by arithmetic
alone. -/
def trust (r : Region) (address : Nat) : Checked Nat := do
  Word.sub (← Word.sub address r.base) headerSize

/-- The offset of the chunk that a pointer to be freed belongs to. -/
def resolve (s : Store) (r : Region) (address : Nat) : Checked (Except HeapError Nat) := do
  if s.heap.config.validateFrees then validate r s.memory address
  else return .ok (← trust r address)

/-- Takes the free chunk at `offset` out of its ring and out of the count of free
bytes. -/
def unfile (s : Store) (r : Region) (offset : Nat) : Checked Store := do
  let (bins, m) ← s.heap.bins.remove r s.memory offset
  let freeBytes ← Word.sub s.heap.counters.freeBytes (← r.chunkSize m offset)
  return {
    heap :=
      { s.heap with
        bins := bins
        counters := { s.heap.counters with freeBytes := freeBytes } }
    memory := m }

/-- Files the free chunk at `offset` and counts its bytes as free. -/
def file (s : Store) (r : Region) (offset : Nat) : Checked Store := do
  let (bins, m) ← s.heap.bins.push r s.memory offset
  let freeBytes ← Word.add s.heap.counters.freeBytes (← r.chunkSize m offset)
  return {
    heap :=
      { s.heap with
        bins := bins
        counters := { s.heap.counters with freeBytes := freeBytes } }
    memory := m }

/-- Takes the chunk at `offset` out of the chain; its header is no longer counted. -/
def dropHeader (s : Store) (r : Region) (offset : Nat) : Checked Store := do
  let m ← r.unlink s.memory offset
  let metaBytes ← Word.sub s.heap.counters.metaBytes headerSize
  return {
    heap := { s.heap with counters := { s.heap.counters with metaBytes := metaBytes } }
    memory := m }

/-- Merges the chunk after `offset` into it, if that chunk is free. -/
def absorbNext (s : Store) (r : Region) (offset : Nat) : Checked Store := do
  let next ← r.read s.memory offset .next
  if ← r.isFree s.memory next then
    let s ← s.unfile r next
    s.dropHeader r next
  else return s

/-- Files the chunk at `offset` as free, merged into the chunk before it if that one is
free. A header that is given up keeps the tag of a free chunk, so that freeing its
pointer once more is recognised. -/
def settle (s : Store) (r : Region) (offset : Nat) : Checked Store := do
  let previous ← r.read s.memory offset .previous
  if ← r.isFree s.memory previous then
    let s ← s.unfile r previous
    let m ← r.setMark s.memory offset .free
    let s ← dropHeader { s with memory := m } r offset
    s.file r previous
  else
    let m ← r.setMark s.memory offset .free
    file { s with memory := m } r offset

/-- Frees the used chunk at `offset`. -/
def release (s : Store) (r : Region) (offset : Nat) : Checked Store := do
  let counters := s.heap.counters
  let usedBytes ← Word.sub counters.usedBytes (← r.chunkSize s.memory offset)
  let frees ← Word.add counters.frees 1
  let heap :=
    { s.heap with counters := { counters with usedBytes := usedBytes, frees := frees } }
  let s ← absorbNext { s with heap := heap } r offset
  s.settle r offset

/-- Returns the allocation at `address` to the heap. -/
def free (s : Store) (address : Nat) : Checked (Outcome Unit) :=
  match s.heap.region with
  | none => s.refuse .notInitialized
  | some r => do
    match ← s.resolve r address with
    | .error e => s.refuse e
    | .ok offset => return (.ok (), ← s.release r offset)

/-- The payload size of the allocation at `address`. Pointers are validated here
whatever the configuration. -/
def usableSize (s : Store) (address : Nat) : Checked (Except HeapError Nat) :=
  match s.heap.region with
  | none => return .error .notInitialized
  | some r => do
    match ← validate r s.memory address with
    | .error e => return .error e
    | .ok offset => return .ok (← r.chunkSize s.memory offset)

end RegionHeap.Store
