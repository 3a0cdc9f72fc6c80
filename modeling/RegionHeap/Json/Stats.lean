import RegionHeap.Json.Codec
import RegionHeap.Stats

/-!
# The JSON form of statistics

A record of ten numbers.
-/

namespace RegionHeap.Stats

/-- The names of the fields in JSON. -/
def fieldNames : List String :=
  ["region_size", "free_bytes", "used_bytes", "meta_bytes", "sentinel_bytes", "allocations",
    "frees", "failed_allocations", "free_chunks", "largest_free"]

/-- The fields in the order of their names. -/
def fieldValues (stats : Stats) : List Nat :=
  [stats.regionSize, stats.freeBytes, stats.usedBytes, stats.metaBytes, stats.sentinelBytes,
    stats.allocations, stats.frees, stats.failedAllocations, stats.freeChunks, stats.largestFree]

/-- The statistics with the given fields. -/
def ofFieldValues? : List Nat → Option Stats
  | [regionSize, freeBytes, usedBytes, metaBytes, sentinelBytes, allocations, frees,
      failedAllocations, freeChunks, largestFree] =>
    some ⟨regionSize, freeBytes, usedBytes, metaBytes, sentinelBytes, allocations, frees,
      failedAllocations, freeChunks, largestFree⟩
  | _ => none

/-- Writes statistics. -/
def toJson (stats : Stats) : List Char :=
  Json.recordText (fieldNames.zip (stats.fieldValues.map Json.naturalText))

/-- Reads statistics. -/
def ofJson? (text : List Char) : Option Stats := do
  let fields ← (← Json.Value.parse? text).fields? fieldNames
  ofFieldValues? (← fields.mapM Json.Value.natural?)

end RegionHeap.Stats
