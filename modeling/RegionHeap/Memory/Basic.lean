/-!
# Byte-addressed memory

`Memory` holds one byte at every natural address; all but finitely many are the
same as in blank memory, which is zero everywhere. It is a binary tree over a
block whose length is a power of two, with equal stretches folded together, so
that clearing or copying megabytes is as cheap as a single byte.

Main definitions: `Memory.byte` is the view that every law is stated through;
`Memory.fill` is the one way to write and `Memory.runs` the fast way to read.
`load`, `store`, `copy` and `slice` are built from these.
-/

namespace RegionHeap

/-- The bytes of a block whose length is a power of two. -/
inductive Bytes
  /-- Every byte is `b`. -/
  | uniform (b : UInt8)
  /-- The two halves, lower addresses first. -/
  | halves (low high : Bytes)
  deriving DecidableEq, Repr

/-- `count` equal bytes in a row. -/
structure Run where
  count : Nat
  byte : UInt8
  deriving DecidableEq, Repr

namespace Bytes

/-- The byte at `index` in a block of `size` bytes. -/
def get : Bytes → (size index : Nat) → UInt8
  | uniform b, _, _ => b
  | halves low high, size, index =>
    if index < size / 2 then low.get (size / 2) index
    else high.get (size / 2) (index - size / 2)

/-- The two halves of a block. -/
def split : Bytes → Bytes × Bytes
  | uniform b => (uniform b, uniform b)
  | halves low high => (low, high)

/-- The block with `byte` written at each index from `start` up to but not
including `stop`, where the block has `2 ^ height = size` bytes. -/
def fill (byte : UInt8) : (height size : Nat) → Bytes → (start stop : Nat) → Bytes
  | 0, _, block, start, stop => if start < stop then uniform byte else block
  | height + 1, size, block, start, stop =>
    if stop ≤ start then block
    else if start = 0 ∧ size ≤ stop then uniform byte
    else
      halves
        (fill byte height (size / 2) block.split.1 start (min stop (size / 2)))
        (fill byte height (size / 2) block.split.2 (start - size / 2) (stop - size / 2))

/-- The `count` bytes from `start` on, as runs, in a block of `size` bytes. -/
def runs : Bytes → (size start count : Nat) → List Run
  | uniform b, _, _, count => [⟨count, b⟩]
  | halves low high, size, start, count =>
    if start + count ≤ size / 2 then low.runs (size / 2) start count
    else if size / 2 ≤ start then high.runs (size / 2) (start - size / 2) count
    else
      low.runs (size / 2) start (size / 2 - start) ++
        high.runs (size / 2) 0 (start + count - size / 2)

end Bytes

/-- The bytes that a list of runs stands for. -/
def Run.expand (runs : List Run) : List UInt8 :=
  runs.flatMap fun run => List.replicate run.count run.byte

/-- The number whose little-endian bytes are given, lowest first. -/
def littleEndian : List UInt8 → Nat
  | [] => 0
  | b :: bs => b.toNat + 256 * littleEndian bs

/-- A tree of bytes for the addresses below `size`; every later byte is zero. -/
structure Memory where
  height : Nat
  size : Nat
  tree : Bytes
  size_eq : size = 1 <<< height := by rfl

namespace Memory

/-- Memory in which every byte is zero. -/
def blank : Memory := { height := 0, size := 1, tree := .uniform 0 }

instance : Inhabited Memory := ⟨blank⟩

/-- The byte at an address. -/
def byte (m : Memory) (address : Nat) : UInt8 :=
  if address < m.size then m.tree.get m.size address else 0

/-- The same memory in a tree that is one level higher. -/
def raise (m : Memory) : Memory where
  height := m.height + 1
  size := 2 * m.size
  tree := .halves m.tree (.uniform 0)
  size_eq := by rw [m.size_eq, Nat.one_shiftLeft, Nat.one_shiftLeft, Nat.pow_succ, Nat.mul_comm]

/-- The same memory in a tree that is `levels` levels higher. -/
def raiseBy (m : Memory) : Nat → Memory
  | 0 => m
  | levels + 1 => (m.raise).raiseBy levels

/-- The same memory in a tree that reaches up to `bound`. -/
def cover (m : Memory) (bound : Nat) : Memory :=
  if bound ≤ m.size then m else m.raiseBy (bound.log2 + 1 - m.height)

/-- Writes `value` to each of the `count` bytes from `address` on. -/
def fill (m : Memory) (address count : Nat) (value : UInt8) : Memory :=
  let covered := m.cover (address + count)
  { covered with
    tree := covered.tree.fill value covered.height covered.size address (address + count) }

/-- The `count` bytes from `address` on, as runs. -/
def runs (m : Memory) (address count : Nat) : List Run :=
  if address + count ≤ m.size then m.tree.runs m.size address count
  else if m.size ≤ address then [⟨count, 0⟩]
  else
    m.tree.runs m.size address (m.size - address) ++ [⟨address + count - m.size, 0⟩]

/-- The `count` bytes from `address` on. -/
def slice (m : Memory) (address count : Nat) : List UInt8 :=
  Run.expand (m.runs address count)

/-- The number in the `width` bytes from `address` on, lowest byte first. -/
def load (m : Memory) (address width : Nat) : Nat :=
  littleEndian (m.slice address width)

/-- Writes the lowest `width` bytes of `value` from `address` on, lowest first. -/
def store (m : Memory) (address : Nat) : (width value : Nat) → Memory
  | 0, _ => m
  | width + 1, value =>
    (m.fill address 1 (UInt8.ofNat value)).store (address + 1) width (value / 256)

/-- Writes runs one after the other from `address` on. -/
def pour (m : Memory) (address : Nat) : List Run → Memory
  | [] => m
  | run :: rest => (m.fill address run.count run.byte).pour (address + run.count) rest

/-- Copies `count` bytes from `source` to `target`, all read before the first is
written. -/
def copy (m : Memory) (source target count : Nat) : Memory :=
  m.pour target (m.runs source count)

end Memory

end RegionHeap
