/-!
# Heap configuration

The two choices that are fixed when a heap is set up.
-/

namespace RegionHeap

/-- How a heap treats frees and fresh allocations. -/
structure Config where
  /-- Whether a pointer is checked against the headers before it is freed. -/
  validateFrees : Bool
  /-- The byte that every fresh allocation is filled with, if any. -/
  fillByte : Option UInt8
  deriving DecidableEq, Repr

namespace Config

/-- Frees are validated and fresh memory is left as it is. -/
def hardened : Config := { validateFrees := true, fillByte := none }

instance : Inhabited Config := ⟨hardened⟩

/-- Frees are trusted and fresh memory is left as it is. -/
def unchecked : Config := { validateFrees := false, fillByte := none }

/-- The same configuration, with fresh allocations filled with `byte`. -/
def withFill (config : Config) (byte : UInt8) : Config :=
  { config with fillByte := some byte }

end Config

end RegionHeap
