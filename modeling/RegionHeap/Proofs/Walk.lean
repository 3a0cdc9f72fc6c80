import RegionHeap.Heap.Walk
import RegionHeap.Proofs.Represents

/-!
# The walk sees the tiling

Walking a chain lists the head, the blocks in address order, and the tail.

* `Represents.chunks_eq`: the chunks of a store are those of its tiling.
* `Represents.ring_eq`: reading a ring gives the stack of its class.
-/

namespace RegionHeap

variable {r : Region} {m : Memory} {b : Block} {blocks pre post : List Block} {o : Nat}
variable {s : Store} {t : Tiling}

/-- A block as the walk sees it. -/
def Block.info (r : Region) (b : Block) : ChunkInfo :=
  { offset := b.offset, address := r.payload b.offset, size := b.size, mark := some b.mark }

/-- A boundary as the walk sees it. -/
def Region.boundary (r : Region) (offset : Nat) : ChunkInfo :=
  { offset := offset, address := r.payload offset, size := 0, mark := some .sentinel }

/-- The chunks of a tiling, boundaries included. -/
def Tiling.chunks (t : Tiling) (r : Region) : List ChunkInfo :=
  r.boundary 0 :: (t.blocks.map (Block.info r) ++ [r.boundary r.tail])

namespace Tiling

theorem mem_chunks {a : ChunkInfo} :
    a ∈ t.chunks r ↔ a = r.boundary 0 ∨ (∃ b ∈ t.blocks, b.info r = a) ∨ a = r.boundary r.tail := by
  simp [chunks]

theorem map_offset_chunks : (t.chunks r).map (·.offset) = r.headers t.blocks := by
  simp [chunks, Region.headers, Region.boundary, Block.info]

theorem offset_mem_headers {a : ChunkInfo} (ha : a ∈ t.chunks r) :
    a.offset ∈ r.headers t.blocks := by
  rw [← map_offset_chunks]
  exact List.mem_map_of_mem ha

end Tiling

namespace Region.Chained

theorem chunkAt_block (h : r.Chained m blocks) (hb : b ∈ blocks) :
    r.chunkAt m b.offset = .ok (b.info r) := by
  unfold chunkAt
  rw [h.chunkSize_eq hb, ok_bind, h.mark?_block hb, ok_bind]
  rfl

theorem chunkAt_boundary (h : r.Chained m blocks) (ho : o = 0 ∨ o = r.tail) :
    r.chunkAt m o = .ok (r.boundary o) := by
  unfold chunkAt
  rw [h.chunkSize_boundary ho, ok_bind, h.mark?_boundary ho, ok_bind]
  rfl

/-- The walk goes on wherever the chain leads upwards. -/
theorem successor?_eq (h : r.Chained m blocks) (ho : o ∈ r.headers blocks)
    (hUp : o < r.content m .next o) :
    r.successor? m o =
      .ok (some ⟨r.content m .next o, hUp, header_le_tail h.tiled (h.next_mem ho)⟩) := by
  have hMem := h.next_mem ho
  unfold successor?
  rw [h.read_header ho rfl, ok_bind, dif_pos ⟨hUp, header_le_tail h.tiled hMem⟩,
    if_pos (header_aligned h.tiled hMem)]
  rfl

theorem successor?_tail (h : r.Chained m blocks) : r.successor? m r.tail = .ok none := by
  unfold successor?
  rw [h.read_header (mem_headers.mpr (Or.inr (Or.inr rfl))) rfl, ok_bind, h.next_tail.1,
    dif_neg (by simp)]
  rfl

/-- From where a block stops, the walk sees the blocks after it and the tail. -/
theorem chunksFrom_eq (post : List Block) : ∀ (pre : List Block) (o : Nat),
    r.Chained m (pre ++ post) → Tiled o post r.tail →
      r.chunksFrom m o = .ok (post.map (Block.info r) ++ [r.boundary r.tail]) := by
  induction post with
  | nil =>
    intro pre o h hTiled
    have ho : o = r.tail := hTiled
    rw [ho, chunksFrom, h.chunkAt_boundary (Or.inr rfl), ok_bind, h.successor?_tail, ok_bind]
    rfl
  | cons b rest ih =>
    rintro pre _ h ⟨rfl, -, -, hRest⟩
    have hb : b ∈ pre ++ b :: rest := by simp
    have hAssoc : pre ++ b :: rest = (pre ++ [b]) ++ rest := by simp
    have hUp : b.offset < r.content m .next b.offset := by
      rw [h.next_eq hb]
      exact b.offset_lt_stop
    rw [chunksFrom, h.chunkAt_block hb, ok_bind, h.successor?_eq (offset_mem_headers hb) hUp,
      ok_bind]
    simp only
    rw [h.next_eq hb, ih (pre ++ [b]) b.stop (hAssoc ▸ h) hRest, ok_bind]
    rfl

end Region.Chained

namespace Store.Represents

/-- **Walking** a store lists the chunks of its tiling. -/
theorem chunks_eq (h : s.Represents r t) : s.chunks = .ok (t.chunks r) := by
  have hChained := h.holds.chained
  have hHead : (0 : Nat) ∈ r.headers t.blocks := Region.mem_headers.mpr (Or.inl rfl)
  have hUp : 0 < r.content s.memory .next 0 := by
    rw [hChained.next_head]
    decide
  unfold Store.chunks
  simp only [h.holds.region]
  rw [Region.chunksFrom, hChained.chunkAt_boundary (Or.inl rfl), ok_bind,
    hChained.successor?_eq hHead hUp, ok_bind]
  simp only
  rw [hChained.next_head, hChained.chunksFrom_eq t.blocks [] headerSize hChained.tiled, ok_bind]
  rfl

/-- Reading a ring gives the stack of its class. -/
theorem ring_eq (h : s.Represents r t) (k : SizeClass) :
    s.heap.bins.ring r s.memory k = .ok (t.stack k) :=
  h.holds.filed.ring_eq h.holds.placed k

end Store.Represents

end RegionHeap
