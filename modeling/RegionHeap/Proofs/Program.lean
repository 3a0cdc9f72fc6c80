import RegionHeap.Proofs.Placement
import RegionHeap.Shared.Lemmas

/-!
# Programs and their runs

A program asks a shared heap for blocks of any alignment, moves them and gives them back, and
writes into the bytes that it asked for. It knows what it wrote: `Program.known` is what the
owner of a block may expect to read there. `Program.Run` is any finite history of a program that
hands in only blocks that it holds, each with its own layout, and `Program.perform` is one step.

The logger of the heap leaves the heap alone here. What one asks for it asks by calls like all
others, so where a logger uses the heap, its calls count as calls of their own.

* `Lease`, `Program`: a block that is held, and a program that holds blocks.
* `Program.play`: a run that can be computed.
-/

namespace RegionHeap

/-- The heap with other memory. -/
def SharedHeap.withMemory (s : SharedHeap) (m : Memory) : SharedHeap :=
  { s with store := { s.store with memory := m } }

-- ---------------------------------------------------------------------------
-- Programs
-- ---------------------------------------------------------------------------

/-- The layout of a block that was moved to have another size. -/
def Layout.resize (layout : Layout) (size : Nat) : Layout := { layout with size := size }

/-- A block that a program holds: where it is, what it was asked for with, and the pointer
that the heap handed out on its behalf. -/
structure Lease where
  address : Nat
  layout : Layout
  raw : Nat
  deriving DecidableEq, Repr

/-- The bytes that were asked for. -/
def Lease.Covers (l : Lease) (x : Nat) : Prop := l.address ≤ x ∧ x < l.address + l.layout.size

instance {l : Lease} {x : Nat} : Decidable (l.Covers x) := inferInstanceAs (Decidable (_ ∧ _))

/-- A shared heap, the blocks that are held, newest first, and the bytes that their owners
know. -/
structure Program where
  heap : SharedHeap
  leases : List Lease
  /-- What was written to an address, or cleared, or carried over, since its block was handed
  out. -/
  known : Nat → Option UInt8

/-- What a program asks of the heap. -/
inductive Demand
  | alloc (layout : Layout)
  | allocZeroed (layout : Layout)
  | realloc (address : Nat) (layout : Layout) (newSize : Nat)
  | dealloc (address : Nat) (layout : Layout)
  deriving DecidableEq, Repr

namespace Program

/-- A program that holds nothing yet. -/
def fresh (heap : SharedHeap) : Program := { heap := heap, leases := [], known := fun _ => none }

/-- The memory of a program. -/
def memory (p : Program) : Memory := p.heap.store.memory

/-- Some block that the program holds has the address. -/
def Holds (p : Program) (x : Nat) : Prop := ∃ l ∈ p.leases, l.Covers x

/-- The program holds a block at `address`, with that layout. -/
def Owns (p : Program) (address : Nat) (layout : Layout) : Prop :=
  ∃ l ∈ p.leases, l.address = address ∧ l.layout = layout

/-- What a correct program may ask: layouts are valid, and a block that it hands in is one
that it holds, with the layout that it was asked for with. -/
def Allows (p : Program) : Demand → Prop
  | .alloc layout | .allocZeroed layout => layout.Valid
  | .realloc address layout newSize =>
    p.Owns address layout ∧ (layout.resize newSize).Valid
  | .dealloc address layout => p.Owns address layout

/-- The program holds the block `l` too, and knows `bytes` of it. -/
def hold (p : Program) (heap : SharedHeap) (l : Lease) (bytes : Nat → Option UInt8) : Program where
  heap := heap
  leases := l :: p.leases
  known x := if l.Covers x then bytes (x - l.address) else p.known x

/-- The program takes note of a block at `address`, unless that is null. -/
def gain (p : Program) (heap : SharedHeap) (layout : Layout) (address : Nat)
    (bytes : Nat → Option UInt8) : Program :=
  if address = null then { p with heap := heap }
  else p.hold heap ⟨address, layout, p.heap.store.rawFor layout⟩ bytes

/-- The program no longer holds the block at `address`. -/
def lose (p : Program) (heap : SharedHeap) (address : Nat) : Program :=
  { p with heap := heap, leases := p.leases.filter (·.address ≠ address) }

/-- What is known of a block of `newSize` bytes that replaces the one at `address`. -/
def carried (p : Program) (address : Nat) (layout : Layout) (newSize i : Nat) : Option UInt8 :=
  if i < min layout.size newSize then p.known (address + i) else none

/-- One request; the answer is the address of a block, or null. The logger is silent because the
calls that one makes when the request is refused are requests of their own, performed next. -/
def perform (p : Program) : Demand → Checked (Nat × Program)
  | .alloc layout => do
    let (address, heap) ← p.heap.alloc .silent layout
    return (address, p.gain heap layout address fun _ => none)
  | .allocZeroed layout => do
    let (address, heap) ← p.heap.allocZeroed .silent layout
    return (address, p.gain heap layout address fun _ => some 0)
  | .realloc address layout newSize => do
    let (fresh, heap) ← p.heap.realloc .silent address layout newSize
    if fresh = null then return (null, { p with heap := heap })
    else
      let moved := p.gain heap (layout.resize newSize) fresh (p.carried address layout newSize)
      return (fresh, moved.lose heap address)
  | .dealloc address layout => do
    let heap ← p.heap.dealloc .silent address layout
    return (null, p.lose heap address)

/-- The program after memory was replaced by `m` and owners know `known` of it. -/
def write (p : Program) (m : Memory) (known : Nat → Option UInt8) : Program :=
  { p with heap := p.heap.withMemory m, known := known }

/-- The bytes `written` were written into blocks that the program holds, and nothing else. -/
structure Writes (p : Program) (m : Memory) (written : Nat → Option UInt8) : Prop where
  held : ∀ x, written x ≠ none → p.Holds x
  byte : ∀ x, m.byte x = (written x).getD (p.memory.byte x)

/-- Any finite history of a correct program: it makes requests, and it writes into the bytes
that it asked for. -/
inductive Run (start : Program) : List Demand → Program → Prop
  | start : Run start [] start
  | call {log : List Demand} {p p' : Program} {demand : Demand} {address : Nat} :
      Run start log p → p.Allows demand → p.perform demand = .ok (address, p') →
        Run start (log ++ [demand]) p'
  | write {log : List Demand} {p : Program} {m : Memory} {written : Nat → Option UInt8} :
      Run start log p → p.Writes m written →
        Run start log (p.write m fun x => (written x).or (p.known x))

-- ---------------------------------------------------------------------------
-- Runs that can be computed
-- ---------------------------------------------------------------------------

instance {p : Program} {address : Nat} {layout : Layout} : Decidable (p.Owns address layout) :=
  inferInstanceAs (Decidable (∃ l ∈ p.leases, _))

instance {p : Program} : (demand : Demand) → Decidable (p.Allows demand)
  | .alloc layout | .allocZeroed layout => inferInstanceAs (Decidable layout.Valid)
  | .realloc _ _ _ => inferInstanceAs (Decidable (_ ∧ _))
  | .dealloc address layout => inferInstanceAs (Decidable (p.Owns address layout))

/-- Makes requests one after the other, as long as they are allowed and return. -/
def play (p : Program) : List Demand → Option Program
  | [] => some p
  | demand :: rest =>
    if p.Allows demand then
      match p.perform demand with
      | .ok (_, p') => p'.play rest
      | .error _ => none
    else none

/-- Requests that were played are those of a run. -/
theorem Run.play {start : Program} (demands : List Demand) :
    ∀ {log : List Demand} {p p' : Program}, Run start log p → p.play demands = some p' →
      Run start (log ++ demands) p' := by
  induction demands with
  | nil =>
    intro log p p' hRun hPlay
    obtain rfl := Option.some.inj hPlay
    rwa [List.append_nil]
  | cons demand rest ih =>
    intro log p p' hRun hPlay
    unfold Program.play at hPlay
    split at hPlay
    · rename_i hAllowed
      split at hPlay
      · rename_i address next hCall
        have hRun' := ih (.call hRun hAllowed hCall) hPlay
        rwa [List.append_assoc, List.singleton_append] at hRun'
      · exact absurd hPlay (by simp)
    · exact absurd hPlay (by simp)

end Program

namespace SharedHeap

/-- A heap that serves a program from one kibibyte of blank memory. -/
def kibibyte (config : Config) : SharedHeap :=
  match Store.init ⟨Heap.empty, Memory.blank⟩ 65536 66560 config with
  | .ok (_, store) => { store := store, reporting := false, journal := [] }
  | .error _ => default

theorem init_kibibyte (config : Config) :
    Store.init ⟨Heap.empty, Memory.blank⟩ 65536 66560 config =
      .ok (.ok (), (kibibyte config).store) := by
  obtain ⟨s', hInit, -⟩ := Store.init_kibibyte config
  unfold kibibyte
  rw [hInit]

end SharedHeap

end RegionHeap
