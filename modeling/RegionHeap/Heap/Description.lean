import RegionHeap.Heap.Basic

/-!
# Describing a heap

The state of a heap outside its region, spelled out in one line for a developer.
-/

namespace RegionHeap

/-- An optional value, spelled out. -/
def describeOption {α : Type} (describe : α → String) : Option α → String
  | none => "None"
  | some a => s!"Some({describe a})"

namespace Counters

/-- The counters, spelled out. -/
def describe (c : Counters) : String :=
  s!"Counters \x7b free: {c.freeBytes}, used: {c.usedBytes}, meta: {c.metaBytes}, " ++
    s!"allocations: {c.allocations}, frees: {c.frees}, " ++
    s!"failed_allocations: {c.failedAllocations} \x7d"

end Counters

namespace Config

/-- The configuration, spelled out. -/
def describe (config : Config) : String :=
  s!"HeapConfig \x7b validate_frees: {config.validateFrees}, " ++
    s!"fill_on_alloc: {describeOption toString config.fillByte} \x7d"

end Config

namespace Heap

/-- The heap's region, counters and configuration, spelled out. -/
def describe (heap : Heap) : String :=
  let region := describeOption (fun (start, stop) => s!"({start}, {stop})") heap.bounds
  s!"Heap \x7b region: {region}, counters: {heap.counters.describe}, " ++
    s!"config: {heap.config.describe} \x7d"

end Heap

end RegionHeap
