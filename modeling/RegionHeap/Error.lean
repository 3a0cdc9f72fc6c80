import RegionHeap.Text.Numeral

/-!
# Errors

Every failure that a heap can detect is a value handed to the caller. A
`Defect` says what a check of the metadata found; `HeapError` is the cause of a
refused operation, with the numbers that its message shows.
-/

namespace RegionHeap

/-- What is wrong with a pointer, a header or the counters. -/
inductive Defect
  /-- The pointer is in no payload of the region. -/
  | outOfRange
  /-- The pointer is not a multiple of the alignment. -/
  | misaligned
  /-- The pointer leads to one of the two boundary headers. -/
  | sentinel
  /-- The header's canary does not fit its position. -/
  | badCanary
  /-- The header carries no known tag. -/
  | badState
  /-- The chunk is free already. -/
  | doubleFree
  /-- The neighbours in the chain or in a ring do not point back. -/
  | brokenLinks
  /-- A free chunk is in the wrong ring, or a ring holds a chunk that is not free. -/
  | misplaced
  /-- Two neighbours in the chain are both free. -/
  | adjacentFree
  /-- The byte counters do not add up. -/
  | counterMismatch
  deriving DecidableEq, Repr

namespace Defect

/-- A short description, in lower case. -/
def description : Defect → String
  | outOfRange => "pointer outside heap"
  | misaligned => "misaligned pointer"
  | sentinel => "sentinel chunk"
  | badCanary => "header canary mismatch"
  | badState => "unknown chunk state"
  | doubleFree => "double free"
  | brokenLinks => "broken chunk links"
  | misplaced => "chunk in wrong bin"
  | adjacentFree => "adjacent free chunks"
  | counterMismatch => "byte counters out of balance"

/-- Every defect. -/
def all : List Defect :=
  [outOfRange, misaligned, sentinel, badCanary, badState, doubleFree, brokenLinks, misplaced,
    adjacentFree, counterMismatch]

end Defect

/-- Why a heap refused an operation. -/
inductive HeapError
  /-- The bounds are no region: they are in the wrong order, or rounding the start up
  leaves the address space. -/
  | invalidRegion (start stop : Nat)
  /-- The aligned region has no room for its two boundary headers and one chunk. -/
  | regionTooSmall (size required : Nat)
  /-- The heap has a region already. -/
  | alreadyInitialized
  /-- The heap has no region yet. -/
  | notInitialized
  /-- No ring from the admitting class on has a chunk. -/
  | outOfMemory (requested : Nat)
  /-- A check of the metadata failed at an address. -/
  | corruption (address : Nat) (defect : Defect)
  deriving DecidableEq, Repr

namespace HeapError

/-- Whether the error comes from setting a heap up. -/
def isConfiguration : HeapError → Bool
  | invalidRegion _ _ | regionTooSmall _ _ | alreadyInitialized => true
  | notInitialized | outOfMemory _ | corruption _ _ => false

/-- The message for a reader. -/
def message : HeapError → String
  | invalidRegion start stop => s!"invalid heap region {hexadecimal start}..{hexadecimal stop}"
  | regionTooSmall size required =>
    s!"heap region too small: {size} bytes (need {required})"
  | alreadyInitialized => "heap already initialized"
  | notInitialized => "heap not initialized"
  | outOfMemory requested => s!"out of memory allocating {requested} bytes"
  | corruption address defect =>
    s!"heap corruption at {hexadecimal address}: {defect.description}"

end HeapError

end RegionHeap
