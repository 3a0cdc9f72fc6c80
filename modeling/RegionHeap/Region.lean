import RegionHeap.Word
import RegionHeap.Error

/-!
# Regions

A heap manages one stretch of addresses, its region. Chunks are named by their
offset from the region's base. The region begins and ends with a boundary header
and has room for at least one chunk between them.

Main definitions: `Region`, and `Region.ofBounds?`, which fits a region into given
bounds or says why none fits.
-/

namespace RegionHeap

/-- The bytes of a chunk header. -/
def headerSize : Nat := 32

/-- The smallest payload: room for the two ring links of a free chunk. -/
def minPayload : Nat := 16

/-- The smallest region: two boundary headers and one chunk. -/
def minRegionSize : Nat := 3 * headerSize + minPayload

/-- An aligned stretch of the address space, large enough for a heap. Whoever gives a
region to a heap answers for its bytes: they are valid, writable memory that nothing else
uses. No memory is valid at the address null, so no such region begins there, although
that is not asked for here. -/
structure Region where
  base : Nat
  size : Nat
  base_aligned : base % Word.alignment = 0
  size_aligned : size % Word.alignment = 0
  minRegionSize_le : minRegionSize ≤ size
  stop_lt : base + size < Word.limit

namespace Region

/-- The first address after the region. -/
def stop (r : Region) : Nat := r.base + r.size

/-- The offset of the header that bounds the region above. -/
def tail (r : Region) : Nat := r.size - headerSize

/-- The largest region inside `start ≤ a < stop`: the start is rounded up and the
stop down. Words are expected; a `stop` that is none makes the bounds invalid. -/
def ofBounds? (start stop : Nat) : Except HeapError Region :=
  if hBounds : stop < start ∨ Word.limit ≤ stop then .error (.invalidRegion start stop)
  else
    match h : Word.alignUp? start with
    | none => .error (.invalidRegion start stop)
    | some base =>
      let size := Word.alignDown stop - base
      if hSize : minRegionSize ≤ size then
        .ok
          { base := base
            size := size
            base_aligned := (Word.alignUp?_eq_some_iff.mp h).2.2.1
            size_aligned := by
              have hBase := (Word.alignUp?_eq_some_iff.mp h).2.2.1
              have hStop := Word.alignDown_mod stop
              unfold Word.alignment at *
              omega
            minRegionSize_le := hSize
            stop_lt := by
              have hStop := Word.alignDown_le stop
              unfold minRegionSize headerSize minPayload at hSize
              omega }
      else .error (.regionTooSmall size minRegionSize)

end Region

end RegionHeap
