import Mathlib.Algebra.Group.Nat.Defs
import RegionHeap.Heap.Allocate

/-!
# Tilings: a heap without memory

What a heap does can be said without bytes. The blocks between the two boundaries lie
side by side in address order, each used or free, and every size class has a stack of
the free blocks of that class, the one filed last on top. Allocating pops a stack and
may split a block; freeing merges a block with its free neighbours, which leave their
stacks from wherever they are, and pushes the result.

Main definitions: `Tiling`, `Tiling.initial`, `Tiling.allocate`, `Tiling.free`.
-/

namespace RegionHeap

/-- A chunk between the boundaries. -/
structure Block where
  /-- Where its header is, from the region's base. -/
  offset : Nat
  /-- How many bytes its payload has. -/
  size : Nat
  isFree : Bool
  deriving DecidableEq, Repr

namespace Block

/-- Where the next block's header is. -/
def stop (b : Block) : Nat := b.offset + headerSize + b.size

/-- The block that a block and its successor make together. -/
def join (b successor : Block) : Block :=
  { b with size := b.size + headerSize + successor.size }

/-- A free block cut down to `need` bytes and used, followed by the rest as a free block
when that has at least one byte beside its header. -/
def take (b : Block) (need : Nat) : List Block :=
  if b.size ≤ need + headerSize then [{ b with isFree := false }]
  else
    [ { b with size := need, isFree := false },
      { offset := b.offset + headerSize + need
        size := b.size - need - headerSize
        isFree := true } ]

end Block

/-- The blocks of a heap and the stacks of its free blocks. -/
structure Tiling where
  /-- The blocks in address order. -/
  blocks : List Block
  /-- The offsets of the free blocks of each class, the one filed last first. -/
  stack : SizeClass → List Nat

namespace Tiling

/-- The stack of class `k` changed by `f`. -/
def modifyStack (t : Tiling) (k : SizeClass) (f : List Nat → List Nat) : Tiling :=
  { t with stack := fun j => if j = k then f (t.stack j) else t.stack j }

/-- Pushes a free block on the stack of its class. -/
def file (t : Tiling) (b : Block) : Tiling :=
  t.modifyStack (SizeClass.ofSize b.size) (b.offset :: ·)

/-- Takes a free block out of the stack of its class. -/
def unfile (t : Tiling) (b : Block) : Tiling :=
  t.modifyStack (SizeClass.ofSize b.size) (·.erase b.offset)

/-- A region of `size` bytes in which nothing is used. -/
def initial (size : Nat) : Tiling :=
  let whole : Block := { offset := headerSize, size := size - 3 * headerSize, isFree := true }
  file { blocks := [whole], stack := fun _ => [] } whole

/-- The lowest class that has a block and whose every size covers `need`. -/
def servingClass? (t : Tiling) (need : Nat) : Option SizeClass :=
  SizeClass.all.find? fun k => decide (need ≤ 2 ^ k.val) && !(t.stack k).isEmpty

/-- Uses the free block at `offset` for `need` bytes. -/
def use (t : Tiling) (offset need : Nat) : Tiling :=
  match t.blocks.find? (·.offset = offset) with
  | none => t
  | some b =>
    let t := t.unfile b
    let pieces := b.take need
    let t := { t with
      blocks := t.blocks.flatMap fun c => if c.offset = offset then pieces else [c] }
    (pieces.filter (·.isFree)).foldl file t

/-- Allocates `size` bytes; the answer is the offset of the block. -/
def allocate (t : Tiling) (size : Nat) : Option (Nat × Tiling) := do
  let need ← payloadNeed? size
  let k ← t.servingClass? need
  let offset ← (t.stack k).head?
  return (offset, t.use offset need)

/-- Frees the block `b`, where `before` and `after` are the blocks on its two sides. -/
def release (t : Tiling) (before : List Block) (b : Block) (after : List Block) : Tiling :=
  let (t, b, after) :=
    match after with
    | next :: rest => if next.isFree then (t.unfile next, b.join next, rest) else (t, b, after)
    | [] => (t, b, after)
  let (t, b, before) :=
    match before.getLast? with
    | some previous =>
      if previous.isFree then (t.unfile previous, previous.join b, before.dropLast)
      else (t, b, before)
    | none => (t, b, before)
  let merged := { b with isFree := true }
  file { t with blocks := before ++ merged :: after } merged

/-- Frees the used block at `offset`; there must be one. -/
def free (t : Tiling) (offset : Nat) : Tiling :=
  match t.blocks.dropWhile (·.offset ≠ offset) with
  | b :: after => t.release (t.blocks.takeWhile (·.offset ≠ offset)) b after
  | [] => t

end Tiling

end RegionHeap
