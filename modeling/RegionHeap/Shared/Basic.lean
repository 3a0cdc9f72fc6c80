import RegionHeap.Event
import RegionHeap.Heap.Allocate
import RegionHeap.Heap.Free
import RegionHeap.Shared.Layout

/-!
# The shared heap

A heap that serves a whole program: blocks of any alignment, null on failure, and a
logger that is told of every refusal. The logger may itself use the heap; while a
refusal is being reported, further refusals are not, so reports never nest.

A block whose alignment exceeds that of payloads lies inside a larger payload. The
word just below it, its back-reference, holds the address of that payload.

A lock is held while the heap works, and only then: back-references are read before it
is taken and written after it was given back, and refusals are reported after that. The
lock is not given twice, so a logger that used the heap from inside the lock would never
come back. Calls are considered one at a time.

Main definitions: `SharedHeap`, the state between calls; `GuardedHeap`, the state in the
middle of one; `GuardedHeap.serve`, and the operations `SharedHeap.alloc`, `allocZeroed`,
`dealloc` and `realloc`.
-/

namespace RegionHeap

/-- A call that a program makes to the shared heap. -/
inductive Request
  | alloc (layout : Layout)
  | dealloc (address : Nat) (layout : Layout)
  deriving DecidableEq, Repr

/-- What a logger does with the heap when it is told of an event. -/
abbrev Logger := Event → List Request

/-- A logger that leaves the heap alone. -/
def Logger.silent : Logger := fun _ => []

/-- A heap with its memory, and the state of reporting, as calls find and leave it: the
lock is free. -/
structure SharedHeap where
  store : Store
  /-- Set while a refusal is being reported. -/
  reporting : Bool
  /-- The events so far, oldest first. -/
  journal : List Event
  deriving Inhabited

/-- The address that stands for no block. -/
def null : Nat := 0

/-- The bytes of a back-reference. -/
def backReferenceSize : Nat := 8

-- ---------------------------------------------------------------------------
-- What a request does to the heap
-- ---------------------------------------------------------------------------

/-- What a request has the heap do. -/
inductive Operation
  /-- Hand out a payload of `size` bytes, for a block of `layout`. -/
  | allocate (size : Nat) (layout : Layout)
  /-- Take back the payload at `raw`, for a block of `layout`. -/
  | free (raw : Nat) (layout : Layout)
  deriving DecidableEq, Repr

/-- What became of a request: the address of the block, if one was asked for and found,
and the event to report if the heap refused. -/
structure Attempt where
  address : Nat
  complaint : Option Event
  store : Store

namespace Store

/-- Where the back-reference of the block at `address` is. -/
def backReference (address : Nat) : Nat :=
  (address + (Word.limit - backReferenceSize)) % Word.limit

/-- Places a block for `layout` in the payload at `raw`, which has room for it, its
alignment and its back-reference. -/
def placeAligned (s : Store) (layout : Layout) (raw : Nat) : Checked (Nat × Store) := do
  let start ← Word.add raw backReferenceSize
  let last ← Word.sub (← Word.add start layout.align) 1
  let address := last / layout.align * layout.align
  let m := s.memory.store (backReference address) backReferenceSize raw
  return (address, { s with memory := m })

/-- Places a block for `layout` in the payload at `raw`. -/
def place (s : Store) (layout : Layout) (raw : Nat) : Checked (Nat × Store) :=
  if layout.fitsPayload then return (raw, s) else s.placeAligned layout raw

/-- The payload that the block at `address` lies in. -/
def rawAddress (s : Store) (address : Nat) (layout : Layout) : Nat :=
  if layout.fitsPayload then address
  else s.memory.load (backReference address) backReferenceSize

/-- What the heap has to do for a request, if anything. When the sum of size, alignment
and back-reference is no word there is no block, and the heap is not even asked. Null is
no block, and neither is one whose back-reference is null. -/
def operation? (s : Store) : Request → Option Operation
  | .alloc layout =>
    if layout.fitsPayload then some (.allocate layout.size layout)
    else
      let total := layout.size + (layout.align - 1 + backReferenceSize)
      if Word.limit ≤ total then none else some (.allocate total layout)
  | .dealloc address layout =>
    let raw := s.rawAddress address layout
    if address = null ∨ raw = null then none else some (.free raw layout)

/-- Has the heap do it; the answer is the address of a payload, or null. -/
def operate (s : Store) : Operation → Checked (Outcome Nat)
  | .allocate size _ => s.allocate size
  | .free raw _ => do
    let (answer, s) ← s.free raw
    return (answer.map fun () => null, s)

/-- What becomes of the request when the heap has answered. -/
def conclude (s : Store) : Operation → Except HeapError Nat → Checked Attempt
  | .allocate _ layout, .ok raw => do
    let (address, s) ← s.place layout raw
    return { address := address, complaint := none, store := s }
  | .allocate _ layout, .error e =>
    return {
      address := null
      complaint := some (.allocationFailed layout.size layout.align e)
      store := s }
  | .free _ _, .ok _ => return { address := null, complaint := none, store := s }
  | .free raw layout, .error e =>
    return { address := null, complaint := some (.freeRejected raw layout.size e), store := s }

/-- Does what a request asks for. -/
def attempt (s : Store) (request : Request) : Checked Attempt :=
  match s.operation? request with
  | none => return { address := null, complaint := none, store := s }
  | some operation => do
    let (answer, s) ← s.operate operation
    s.conclude operation answer

end Store

-- ---------------------------------------------------------------------------
-- The lock
-- ---------------------------------------------------------------------------

/-- A shared heap in the middle of a call. -/
structure GuardedHeap where
  heap : SharedHeap
  /-- Whether the lock is held. -/
  held : Bool

namespace GuardedHeap

/-- Takes the lock. There is nobody but the caller to give it back, so one who already
holds it waits forever. -/
def lock (g : GuardedHeap) : Checked GuardedHeap :=
  if g.held then throw .divergence else return { g with held := true }

/-- Gives the lock back. -/
def unlock (g : GuardedHeap) : GuardedHeap := { g with held := false }

/-- The heap with another store. -/
def setStore (g : GuardedHeap) (store : Store) : GuardedHeap :=
  { g with heap := { g.heap with store := store } }

/-- Runs an operation of the heap inside the lock. -/
def withStore {α : Type} (g : GuardedHeap) (f : Store → Checked (α × Store)) :
    Checked (α × GuardedHeap) := do
  let g ← g.lock
  let (answer, store) ← f g.heap.store
  return (answer, (g.setStore store).unlock)

end GuardedHeap

namespace SharedHeap

/-- A heap without a region, and nothing reported. -/
def empty (memory : Memory) : SharedHeap :=
  { store := { heap := Heap.empty, memory := memory }, reporting := false, journal := [] }

/-- Enters an event into the journal. -/
def record (s : SharedHeap) (event : Event) : SharedHeap :=
  { s with journal := s.journal ++ [event] }

/-- A call from outside finds the lock free. It has to leave it free: else no call after it
would come back. -/
def call {α : Type} (s : SharedHeap) (f : GuardedHeap → Checked (α × GuardedHeap)) :
    Checked (α × SharedHeap) := do
  let (answer, g) ← f { heap := s, held := false }
  if g.held then throw .divergence else return (answer, g.heap)

/-- Runs an operation of the heap. -/
def withStore {α : Type} (s : SharedHeap) (f : Store → Checked (α × Store)) :
    Checked (α × SharedHeap) :=
  s.call (·.withStore f)

end SharedHeap

-- ---------------------------------------------------------------------------
-- Requests with reports
-- ---------------------------------------------------------------------------

namespace GuardedHeap

/-- Serves a request; the answer is the address of the block, or null. A refusal is
reported, unless a report is going on already. Only what the heap itself does is done
inside the lock. -/
def serveWith (report : Event → GuardedHeap → Checked GuardedHeap) (g : GuardedHeap)
    (request : Request) : Checked (Nat × GuardedHeap) :=
  match g.heap.store.operation? request with
  | none => return (null, g)
  | some operation => do
    let (answer, g) ← g.withStore (·.operate operation)
    let attempt ← g.heap.store.conclude operation answer
    let g := g.setStore attempt.store
    match attempt.complaint with
    | none => return (attempt.address, g)
    | some event =>
      if g.heap.reporting then return (attempt.address, g)
      else return (attempt.address, ← report event g)

/-- Serves requests one after the other. -/
def serveAllWith (report : Event → GuardedHeap → Checked GuardedHeap) (g : GuardedHeap)
    (requests : List Request) : Checked GuardedHeap :=
  requests.foldlM (fun g request => return (← serveWith report g request).2) g

/-- The heap while a refusal is reported. -/
def startReport (g : GuardedHeap) (event : Event) : GuardedHeap :=
  { g with heap := { g.heap.record event with reporting := true } }

/-- The heap when the report is over. -/
def endReport (g : GuardedHeap) : GuardedHeap :=
  { g with heap := { g.heap with reporting := false } }

/-- Records a refusal and tells the logger of it. `nesting` bounds how many reports may be
open at the same time. -/
def report (logger : Logger) : (nesting : Nat) → Event → GuardedHeap → Checked GuardedHeap
  | 0, _, _ => throw .divergence
  | nesting + 1, event, g =>
    return (← serveAllWith (report logger nesting) (g.startReport event) (logger event)).endReport

/-- Serves a request, with at most `nesting` reports open at the same time. -/
def serve (logger : Logger) (nesting : Nat) (g : GuardedHeap) (request : Request) :
    Checked (Nat × GuardedHeap) :=
  serveWith (report logger nesting) g request

end GuardedHeap

namespace SharedHeap

/-- Serves a request from outside. -/
def serve (logger : Logger) (nesting : Nat) (s : SharedHeap) (request : Request) :
    Checked (Nat × SharedHeap) :=
  s.call fun g => g.serve logger nesting request

/-- One report is enough at any time: a second is never opened while it lasts. -/
def nestingLimit : Nat := 1

/-- Records an event that is no refusal and tells the logger. -/
def announce (logger : Logger) (s : SharedHeap) (event : Event) : Checked SharedHeap :=
  (logger event).foldlM
    (fun s request => do return (← serve logger nestingLimit s request).2)
    (s.record event)

/-- Allocates a block; null if there is none. -/
def alloc (logger : Logger) (s : SharedHeap) (layout : Layout) : Checked (Nat × SharedHeap) :=
  serve logger nestingLimit s (.alloc layout)

/-- Allocates a block and clears it; null if there is none. -/
def allocZeroed (logger : Logger) (s : SharedHeap) (layout : Layout) :
    Checked (Nat × SharedHeap) := do
  let (address, s) ← s.alloc logger layout
  if address = null then return (null, s)
  else
    let memory := s.store.memory.fill address layout.size 0
    return (address, { s with store := { s.store with memory := memory } })

/-- Gives a block back. -/
def dealloc (logger : Logger) (s : SharedHeap) (address : Nat) (layout : Layout) :
    Checked SharedHeap := do
  return (← serve logger nestingLimit s (.dealloc address layout)).2

/-- Moves a block into a fresh one of another size, with as much of its content as fits,
and gives it back; null if there is no fresh one, and then the block stays. -/
def realloc (logger : Logger) (s : SharedHeap) (address : Nat) (layout : Layout)
    (newSize : Nat) : Checked (Nat × SharedHeap) := do
  let (fresh, s) ← s.alloc logger { layout with size := newSize }
  if fresh = null then return (null, s)
  else
    let memory := s.store.memory.copy address fresh (min layout.size newSize)
    let s ← dealloc logger { s with store := { s.store with memory := memory } } address layout
    return (fresh, s)

end SharedHeap

end RegionHeap
