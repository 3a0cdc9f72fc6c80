import RegionHeap.Stats
import RegionHeap.Text.Numeral
import RegionHeap.Text.Sink

/-!
# The status report

The statistics of a heap in five lines, and a sixth when the bytes do not add up. A
number of bytes is shown in the largest unit that divides it, so no figure is
rounded.

Main definitions: `byteCount`, `Stats.reportLines`, `Stats.writeReport`.
-/

namespace RegionHeap

/-- A number of bytes, in MiB or KiB when it is a whole number of them. -/
def byteCount (n : Nat) : List Char :=
  let kib := 1024
  let mib := 1024 * kib
  if mib ≤ n ∧ n % mib = 0 then digits (n / mib) ++ " MiB".toList
  else if kib ≤ n ∧ n % kib = 0 then digits (n / kib) ++ " KiB".toList
  else digits n ++ " B".toList

namespace Stats

/-- The lines of the report, each with its line break. The last is empty when the bytes
add up. -/
def reportLines (stats : Stats) : List (Checked (List Char)) :=
  [ return "Heap: ".toList ++ byteCount stats.regionSize ++ " total\n".toList,
    return "  used:     ".toList ++ byteCount stats.usedBytes ++ "\n".toList,
    return "  free:     ".toList ++ byteCount stats.freeBytes ++ " in ".toList ++
      digits stats.freeChunks ++ " chunks (largest ".toList ++ byteCount stats.largestFree ++
      ")\n".toList,
    do return "  meta:     ".toList ++ byteCount (← stats.headerBytes) ++ "\n".toList,
    return "  allocs:   ".toList ++ digits stats.allocations ++ " (".toList ++
      digits stats.liveAllocations ++ " live, ".toList ++ digits stats.failedAllocations ++
      " failed)\n".toList,
    do
      if ← stats.isBalanced then return []
      else return "  WARNING: byte totals do not add up\n".toList ]

/-- Writes the report; the answer says whether all of it fitted. -/
def writeReport (stats : Stats) (sink : Sink) : Checked (Bool × Sink) :=
  sink.writeAll stats.reportLines

end Stats

end RegionHeap
