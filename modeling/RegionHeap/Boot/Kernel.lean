import RegionHeap.Boot.MemoryMap
import RegionHeap.Shared.Basic
import RegionHeap.Stats

/-!
# The kernel's heap

The kernel has one shared heap. At boot it is given a region of the memory map, which
is remembered from then on.

Main definitions: `Kernel`, `SharedHeap.initSpan`, `Kernel.boot`.
-/

namespace RegionHeap

/-- The kernel's version. -/
def kernelVersion : String := "0.1.0"

/-- The kernel's name. -/
def kernelName : String := "KOS"

/-- The largest heap that the kernel makes. -/
def maxHeapSize : Nat := 64 * 1024 * 1024

/-- Whether interrupts are masked around the operations of the heap. There are none to
mask where the heap does not run on the bare machine. -/
def masksInterrupts : Bool := false

/-- Gives the heap a region inside `span` and announces it. -/
def SharedHeap.initSpan (logger : Logger) (s : SharedHeap) (span : Span) :
    Checked (Except BootError Unit × SharedHeap) := do
  let (answer, s) ← s.withStore fun store => store.init span.start span.stop Config.hardened
  match answer with
  | .error e => return (.error (.heap e), s)
  | .ok () =>
    let stats ← s.store.stats
    let s ← s.announce logger (.heapReady span.start stats.regionSize stats.freeBytes)
    return (.ok (), s)

/-- The kernel's heap and the span that it was given at boot. -/
structure Kernel where
  heap : SharedHeap
  claimed : Option Span
  deriving Inhabited

namespace Kernel

/-- A kernel that has not booted. -/
def fresh (memory : Memory) : Kernel := { heap := SharedHeap.empty memory, claimed := none }

/-- Chooses a region of the memory map and gives it to the heap; the answer is the span
given. The first span ever given is remembered. -/
def boot (logger : Logger) (kernel : Kernel) (map : List MemoryRegion) (offset : Nat) :
    Checked (Except BootError Span × Kernel) := do
  match selectRegion map offset maxHeapSize with
  | .error e => return (.error e, kernel)
  | .ok selection =>
    let heap ← kernel.heap.announce logger (← selection.event)
    let (answer, heap) ← heap.initSpan logger selection.mapped
    match answer with
    | .error e => return (.error e, { kernel with heap := heap })
    | .ok () =>
      return (.ok selection.mapped,
        { heap := heap, claimed := kernel.claimed <|> some selection.mapped })

end Kernel

end RegionHeap
