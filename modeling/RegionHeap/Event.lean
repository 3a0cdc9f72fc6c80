import RegionHeap.Error
import RegionHeap.Span

/-!
# Events

What the heap and the kernel tell a logger. Each event has a level, a fixed message
and named values.
-/

namespace RegionHeap

/-- How much an event matters. -/
inductive Level
  | error
  | warn
  | info
  | debug
  deriving DecidableEq, Repr

/-- The name of a level, in capitals. -/
def Level.name : Level → String
  | error => "ERROR"
  | warn => "WARN"
  | info => "INFO"
  | debug => "DEBUG"

/-- Something that a logger is told. -/
inductive Event
  /-- The heap had no memory for a request of `size` bytes aligned to `align`. -/
  | allocationFailed (size align : Nat) (cause : HeapError)
  /-- The heap did not accept a pointer to a block of `size` bytes. -/
  | freeRejected (address size : Nat) (cause : HeapError)
  /-- The kernel's heap works on `size` bytes, of which `free` are free. -/
  | heapReady (start size free : Nat)
  /-- The kernel chose the memory for its heap. -/
  | regionSelected (physical : Span) (start size : Nat)
  deriving DecidableEq, Repr

/-- A value that an event carries. -/
inductive EventValue
  | number (n : Nat)
  | text (s : String)
  deriving DecidableEq, Repr

namespace Event

/-- How much the event matters. -/
def level : Event → Level
  | allocationFailed _ _ _ => .warn
  | freeRejected _ _ _ => .error
  | heapReady _ _ _ => .info
  | regionSelected _ _ _ => .debug

/-- What the event says. -/
def message : Event → String
  | allocationFailed _ _ _ => "heap allocation failed"
  | freeRejected _ _ _ => "heap free rejected"
  | heapReady _ _ _ => "kernel heap ready"
  | regionSelected _ _ _ => "selected heap region"

/-- The named values that the event carries. -/
def values : Event → List (String × EventValue)
  | allocationFailed size align cause =>
    [("size", .number size), ("align", .number align), ("err", .text cause.message)]
  | freeRejected address size cause =>
    [("ptr", .number address), ("size", .number size), ("err", .text cause.message)]
  | heapReady start size free =>
    [("start", .number start), ("size", .number size), ("free", .number free)]
  | regionSelected physical start size =>
    [("phys_start", .number physical.start), ("phys_end", .number physical.stop),
      ("start", .number start), ("size", .number size)]

end Event

end RegionHeap
