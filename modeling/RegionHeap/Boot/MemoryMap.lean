import RegionHeap.Event
import RegionHeap.Region

/-!
# The memory map

At boot the machine's physical memory is known as a list of regions. The kernel's
heap takes the largest usable one above low memory and addresses it through the
mapping of physical memory, which starts at some offset.

Main definitions: `MemoryRegion.usableSpan?`, `selectRegion`, `Selection`.
-/

namespace RegionHeap

/-- What a region of physical memory is for. -/
inductive MemoryKind
  /-- Free for use. -/
  | usable
  /-- Taken by the bootloader. -/
  | bootloader
  /-- A kind known to the UEFI firmware only, with its tag. -/
  | unknownUefi (tag : Nat)
  /-- A kind known to the BIOS firmware only, with its tag. -/
  | unknownBios (tag : Nat)
  deriving DecidableEq, Repr

/-- A region of physical memory. -/
structure MemoryRegion where
  start : Nat
  stop : Nat
  kind : MemoryKind
  deriving DecidableEq, Repr

/-- Memory below this address belongs to the firmware. -/
def lowMemoryLimit : Nat := 0x100000

/-- The part of a region that a heap may use: what lies above low memory, if the region
is usable and that part is not empty. -/
def MemoryRegion.usableSpan? (region : MemoryRegion) : Option Span :=
  let start := max region.start lowMemoryLimit
  if region.kind = .usable ∧ start < region.stop then some ⟨start, region.stop⟩ else none

/-- Why the kernel has no heap. -/
inductive BootError
  /-- No region of the memory map can hold a heap. -/
  | noUsableRegion
  /-- The heap refused the region. -/
  | heap (cause : HeapError)
  deriving DecidableEq, Repr

/-- The message for a reader. -/
def BootError.message : BootError → String
  | noUsableRegion => "No usable memory region for the kernel heap"
  | heap cause => s!"Heap setup failed: {cause.message}"

namespace Span

/-- The longest of some spans, the first one on ties. -/
def longest? (spans : List Span) : Option Span :=
  spans.foldl
    (fun best span =>
      match best with
      | none => some span
      | some longest => if longest.length < span.length then some span else best)
    none

/-- The first `most` addresses of a span, or all if it has no more. -/
def cap (s : Span) (most : Nat) : Span := ⟨s.start, s.start + min s.length most⟩

/-- The span `distance` higher up, if both its ends are words. -/
def translate? (s : Span) (distance : Nat) : Option Span :=
  if s.start + distance < Word.limit ∧ s.stop + distance < Word.limit then
    some ⟨s.start + distance, s.stop + distance⟩
  else none

end Span

/-- The memory chosen for the heap, at its physical and at its mapped addresses. -/
structure Selection where
  physical : Span
  mapped : Span
  deriving DecidableEq, Repr

/-- The event that tells of the choice. -/
def Selection.event (selection : Selection) : Checked Event := do
  return .regionSelected selection.physical selection.mapped.start (← selection.mapped.size)

/-- The spans of a memory map that are long enough for a heap. -/
def heapSpans (map : List MemoryRegion) : List Span :=
  (map.filterMap MemoryRegion.usableSpan?).filter fun span => minRegionSize ≤ span.length

/-- Chooses the memory for the heap: the longest span of the map, no more than `most`
bytes of it, mapped at `offset`. -/
def selectRegion (map : List MemoryRegion) (offset most : Nat) : Except BootError Selection :=
  match Span.longest? (heapSpans map) with
  | none => .error .noUsableRegion
  | some span =>
    match (span.cap most).translate? offset with
    | none => .error .noUsableRegion
    | some mapped => .ok { physical := span.cap most, mapped := mapped }

end RegionHeap
