import RegionHeap.Proofs.Audit
import RegionHeap.Proofs.Client

/-!
# The structure of a heap

`Store.Intact` lists everything that the chain, the rings, the occupancy bits and the
counters of a heap have to satisfy together, in terms of what can be read off the store: by
walking the chain, reading headers and going around the rings.

* `Represents.intact`: a store that represents a tiling is intact.
* `correct_run_intact`: so is every store that a correct client can bring about, and no call
  of such a client is stuck.
-/

namespace RegionHeap

variable {r : Region} {b : Block} {blocks : List Block} {s s' : Store} {t : Tiling}

/-- The chain, the rings, the occupancy bits and the counters of a store, as read off it.
`chain` is what a walk along `next` from offset zero sees. -/
structure Store.Intact (s : Store) (r : Region) (chain : List ChunkInfo) : Prop where
  region : s.heap.region = some r
  walk : s.chunks = .ok chain
  /-- The walk begins at the head and ends at the tail. -/
  ends : chain.head?.map (·.offset) = some 0 ∧ chain.getLast?.map (·.offset) = some r.tail
  ascending : chain.Pairwise fun a b => a.offset < b.offset
  aligned : ∀ a ∈ chain, a.offset % Word.alignment = 0
  /-- Neighbours lie side by side and point at each other. -/
  linked : chain.IsChain fun a b => a.offset + headerSize + a.size = b.offset ∧
    r.read s.memory a.offset .next = .ok b.offset ∧
    r.read s.memory b.offset .previous = .ok a.offset
  /-- The tail and the head point at each other. -/
  closed : r.read s.memory r.tail .next = .ok 0 ∧ r.read s.memory 0 .previous = .ok r.tail
  previous_next : ∀ a ∈ chain, ∃ next, r.read s.memory a.offset .next = .ok next ∧
    r.read s.memory next .previous = .ok a.offset
  canary : ∀ a ∈ chain, r.read s.memory a.offset .canary = .ok (canaryOf a.offset)
  /-- Boundaries are at the two ends and nowhere else. -/
  mark : ∀ a ∈ chain, r.mark? s.memory a.offset = .ok a.mark ∧
    if a.offset = 0 ∨ a.offset = r.tail then a.mark = some .sentinel
    else a.mark = some .used ∨ a.mark = some .free
  payload : ∀ a ∈ chain, a.mark ≠ some .sentinel →
    minPayload ≤ a.size ∧ a.size % Word.alignment = 0
  /-- No two neighbours are both free. -/
  coalesced : chain.IsChain fun a b => ¬(a.isFree = true ∧ b.isFree = true)
  /-- Every free chunk is in the ring of its class, once, and nothing else is there. -/
  rings : ∀ k, ∃ ring, s.heap.bins.ring r s.memory k = .ok ring ∧
    s.heap.bins.head k = ring.head? ∧ ring.Nodup ∧
    ∀ o, o ∈ ring ↔ ∃ a ∈ chain, a.isFree = true ∧ a.offset = o ∧ a.size.log2 = k.val
  /-- A bit is set exactly when its class has a head. -/
  occupied : ∀ k : SizeClass, s.heap.bins.occupied.getLsbD k = (s.heap.bins.head k).isSome
  count : s.heap.bins.count = (chain.filter (·.isFree)).length
  freeBytes : s.heap.counters.freeBytes = ((chain.filter (·.isFree)).map (·.size)).sum
  usedBytes : s.heap.counters.usedBytes =
    ((chain.filter (·.mark = some .used)).map (·.size)).sum
  metaBytes : s.heap.counters.metaBytes + 2 * headerSize = headerSize * chain.length
  /-- Payloads and headers make up the region. -/
  balanced : s.heap.counters.freeBytes + s.heap.counters.usedBytes +
    s.heap.counters.metaBytes + 2 * headerSize = r.size
  audit : s.audit = .ok (.ok ())

-- ---------------------------------------------------------------------------
-- The chunks of a tiling
-- ---------------------------------------------------------------------------

namespace Tiling

theorem isFree_info : (b.info r).isFree = b.isFree := by
  unfold Block.info ChunkInfo.isFree Block.mark
  cases b.isFree <;> rfl

theorem isFree_boundary {o : Nat} : (r.boundary o).isFree = false := rfl

/-- The free chunks are the free blocks. -/
theorem filter_isFree_chunks : (t.chunks r).filter (·.isFree) =
    (t.blocks.filter (·.isFree)).map (Block.info r) := by
  have hComp : ((fun a : ChunkInfo => a.isFree) ∘ Block.info r) = fun b => b.isFree :=
    funext fun b => isFree_info
  simp [chunks, isFree_boundary, List.filter_map, hComp]

/-- The used chunks are the used blocks. -/
theorem filter_used_chunks : (t.chunks r).filter (·.mark = some .used) =
    t.used.map (Block.info r) := by
  have hComp : ((fun a : ChunkInfo => decide (a.mark = some .used)) ∘ Block.info r) =
      fun b => !b.isFree := by
    funext b
    unfold Function.comp Block.info Block.mark
    cases b.isFree <;> rfl
  simp [chunks, Region.boundary, used, List.filter_map, hComp]

/-- Blocks that fill a stretch lie side by side, up to the tail. -/
theorem isChain_chunks (post : List Block) : ∀ (start : Nat) (x : ChunkInfo),
    Tiled start post r.tail → x.offset + headerSize + x.size = start →
      (x :: (post.map (Block.info r) ++ [r.boundary r.tail])).IsChain
        fun a b => a.offset + headerSize + a.size = b.offset := by
  induction post with
  | nil =>
    intro start x hTiled hx
    have hStart : start = r.tail := hTiled
    exact List.isChain_pair.mpr (hx.trans hStart)
  | cons b rest ih =>
    rintro start x ⟨hOffset, -, -, hRest⟩ hx
    exact List.isChain_cons_cons.mpr ⟨hx.trans hOffset.symm, ih b.stop (b.info r) hRest rfl⟩

end Tiling

/-- The walk meets no two free neighbours. -/
theorem Coalesced.chunks (h : Coalesced t.blocks) :
    (t.chunks r).IsChain fun a b => ¬(a.isFree = true ∧ b.isFree = true) := by
  have hBlocks : (t.blocks.map (Block.info r)).IsChain
      fun a b => ¬(a.isFree = true ∧ b.isFree = true) := by
    rw [List.isChain_map]
    exact h.imp fun a b hab => by rwa [Tiling.isFree_info, Tiling.isFree_info]
  refine List.isChain_cons.mpr ⟨fun a _ => by simp [Tiling.isFree_boundary], ?_⟩
  refine List.isChain_append.mpr ⟨hBlocks, List.isChain_singleton _, fun a _ b hb => ?_⟩
  obtain rfl : r.boundary r.tail = b := by simpa using hb
  simp [Tiling.isFree_boundary]

namespace Store.Represents

-- ---------------------------------------------------------------------------
-- What a store that represents a tiling shows
-- ---------------------------------------------------------------------------

theorem read_next (h : s.Represents r t) {a : ChunkInfo} (ha : a ∈ t.chunks r)
    (hTail : a.offset ≠ r.tail) :
    r.content s.memory .next a.offset = a.offset + headerSize + a.size := by
  rcases Tiling.mem_chunks.mp ha with rfl | ⟨b, hb, rfl⟩ | rfl
  · rw [show (r.boundary 0).offset = 0 from rfl, h.holds.chained.next_head]
    rfl
  · exact h.holds.chained.next_eq hb
  · exact absurd rfl hTail

theorem linked (h : s.Represents r t) :
    (t.chunks r).IsChain fun a b => a.offset + headerSize + a.size = b.offset ∧
      r.read s.memory a.offset .next = .ok b.offset ∧
      r.read s.memory b.offset .previous = .ok a.offset := by
  have hChained := h.holds.chained
  refine (Tiling.isChain_chunks t.blocks headerSize (r.boundary 0) h.holds.tiled rfl).imp_of_mem_imp
    fun a b ha hb hStop => ⟨hStop, ?_⟩
  have haMem := Tiling.offset_mem_headers ha
  have hbMem := Tiling.offset_mem_headers hb
  have hNotTail : a.offset ≠ r.tail := by
    have := Region.header_le_tail h.holds.tiled hbMem
    have := sizes_eq
    omega
  have hNext : r.content s.memory .next a.offset = b.offset := (h.read_next ha hNotTail).trans hStop
  rw [hChained.read_header haMem rfl, hChained.read_header hbMem rfl, hNext, ← hNext,
    (hChained.circle.previous_next haMem).2]
  exact ⟨rfl, rfl⟩

theorem mark_eq (h : s.Represents r t) {a : ChunkInfo} (ha : a ∈ t.chunks r) :
    r.mark? s.memory a.offset = .ok a.mark ∧
      if a.offset = 0 ∨ a.offset = r.tail then a.mark = some .sentinel
      else a.mark = some .used ∨ a.mark = some .free := by
  have hChained := h.holds.chained
  rcases Tiling.mem_chunks.mp ha with rfl | ⟨b, hb, rfl⟩ | rfl
  · exact ⟨hChained.mark?_boundary (Or.inl rfl), by simp [Region.boundary]⟩
  · refine ⟨hChained.mark?_block hb, ?_⟩
    have hBounds := h.holds.tiled.bounds hb
    have := sizes_eq
    have := b.offset_lt_stop
    rw [show (b.info r).offset = b.offset from rfl, if_neg (by omega)]
    unfold Block.info Block.mark
    cases b.isFree
    · exact Or.inl rfl
    · exact Or.inr rfl
  · exact ⟨hChained.mark?_boundary (Or.inr rfl), by simp [Region.boundary]⟩

theorem mem_ring_iff (h : s.Represents r t) (k : SizeClass) (o : Nat) :
    o ∈ t.stack k ↔
      ∃ a ∈ t.chunks r, a.isFree = true ∧ a.offset = o ∧ a.size.log2 = k.val := by
  have hClass : ∀ b ∈ t.blocks, SizeClass.ofSize b.size = k ↔ b.size.log2 = k.val := by
    intro b hb
    have hBounds := h.holds.tiled.bounds hb
    have := r.tail_add_headerSize
    have := r.size_lt_limit
    unfold Block.stop at hBounds
    rw [Fin.ext_iff, SizeClass.val_ofSize (by omega)]
  rw [h.holds.binned.mem_iff]
  constructor
  · rintro ⟨b, hb, hFree, rfl, hk⟩
    exact ⟨b.info r, Tiling.mem_chunks.mpr (Or.inr (Or.inl ⟨b, hb, rfl⟩)),
      Tiling.isFree_info.trans hFree, rfl, (hClass b hb).mp hk⟩
  · rintro ⟨a, ha, hFree, rfl, hk⟩
    rcases Tiling.mem_chunks.mp ha with rfl | ⟨b, hb, rfl⟩ | rfl
    · exact absurd hFree (by simp [Tiling.isFree_boundary])
    · exact ⟨b, hb, Tiling.isFree_info.symm.trans hFree, rfl, (hClass b hb).mpr hk⟩
    · exact absurd hFree (by simp [Tiling.isFree_boundary])

/-- **A store that represents a tiling is intact.** -/
theorem intact (h : s.Represents r t) : s.Intact r (t.chunks r) := by
  have hChained := h.holds.chained
  have hTail : r.tail ∈ r.headers t.blocks := Region.mem_headers.mpr (Or.inr (Or.inr rfl))
  have hHead : (0 : Nat) ∈ r.headers t.blocks := Region.mem_headers.mpr (Or.inl rfl)
  have hTotal := h.holds.tiled.total
  have hSize := r.tail_add_headerSize
  constructor
  · exact h.holds.region
  · exact h.chunks_eq
  · refine ⟨rfl, ?_⟩
    rw [Tiling.chunks, ← List.cons_append, List.getLast?_concat]
    rfl
  · have hSorted := Region.headers_sorted h.holds.tiled
    rw [← Tiling.map_offset_chunks] at hSorted
    refine (List.pairwise_map.mp hSorted).imp fun hab => ?_
    have := sizes_eq
    omega
  · exact fun a ha => Region.header_aligned h.holds.tiled (Tiling.offset_mem_headers ha)
  · exact h.linked
  · rw [hChained.read_header hTail rfl, hChained.read_header hHead rfl, hChained.next_tail.1,
      hChained.next_tail.2]
    exact ⟨rfl, rfl⟩
  · intro a ha
    have haMem := Tiling.offset_mem_headers ha
    obtain ⟨hMem, hPrevious⟩ := hChained.circle.previous_next haMem
    refine ⟨_, hChained.read_header haMem rfl, ?_⟩
    rw [hChained.read_header hMem rfl, hPrevious]
  · intro a ha
    have haMem := Tiling.offset_mem_headers ha
    rw [hChained.read_header haMem rfl, hChained.canary _ haMem]
  · exact fun a ha => h.mark_eq ha
  · intro a ha hMark
    rcases Tiling.mem_chunks.mp ha with rfl | ⟨b, hb, rfl⟩ | rfl
    · exact absurd rfl hMark
    · exact h.holds.tiled.payload hb
    · exact absurd rfl hMark
  · exact h.coalesced.chunks
  · exact fun k => ⟨t.stack k, h.ring_eq k, h.holds.filed.head k, h.holds.binned.nodup k,
      h.mem_ring_iff k⟩
  · intro k
    rw [h.holds.filed.occupied k, h.holds.filed.head k]
    cases t.stack k <;> rfl
  · rw [h.holds.filed.count, h.holds.binned.stacked_eq h.holds.distinct,
      Tiling.filter_isFree_chunks, List.length_map]
  · rw [h.holds.freeBytes, Tiling.filter_isFree_chunks, List.map_map]
    rfl
  · rw [h.holds.usedBytes, Tiling.filter_used_chunks, List.map_map]
    rfl
  · rw [h.holds.metaBytes]
    simp [Tiling.chunks, Nat.mul_add]
    omega
  · rw [h.holds.freeBytes, h.holds.usedBytes, h.holds.metaBytes]
    omega
  · exact h.audit_eq

end Store.Represents

-- ---------------------------------------------------------------------------
-- Every correct run
-- ---------------------------------------------------------------------------

/-- **Every store that a correct client can bring about is intact**, its call counters agree
with the live pointers, and no call is stuck. -/
theorem correct_run_intact {start stop : Nat} {config : Config} {log : List Exchange} {c : Client}
    (hInit : s.init start stop config = .ok (.ok (), s'))
    (hRun : Client.Run .correct ⟨s', []⟩ log c) :
    ∃ r chain, Region.ofBounds? start stop = .ok r ∧ c.store.Intact r chain ∧
      c.store.heap.counters.allocations = c.store.heap.counters.frees + c.live.length ∧
      ∀ request, Protocol.correct.allows c request → log.length + 1 < Word.limit →
        ∃ answer c', c.perform request = .ok (answer, c') := by
  obtain ⟨r, hBounds, hLaidOut⟩ := Store.laidOut_of_init hInit
  obtain ⟨hTracks, -⟩ := Client.Run.tracks hLaidOut hRun
  refine ⟨r, _, hBounds, hTracks.represents.intact, hTracks.allocations,
    fun request hAllowed hCalls => ?_⟩
  obtain ⟨c', hCall⟩ := Client.Run.progress hLaidOut hRun hAllowed hCalls
  exact ⟨_, c', hCall⟩

/-- A run in which a block is freed between two that stay, and used again. -/
theorem correct_run_intact_reused_block :
    ∃ s' log c chain, Store.init ⟨Heap.empty, Memory.blank⟩ 65536 66560 .hardened =
        .ok (.ok (), s') ∧
      Client.Run .correct ⟨s', []⟩ log c ∧
      requests log = [.allocate 24, .allocateZeroed 100, .allocate 200, .free 65664, .allocate 5] ∧
      c.store.Intact .kibibyte chain := by
  obtain ⟨s', hInit, hLaidOut⟩ := Store.init_kibibyte .hardened
  obtain ⟨log, c, hRun, hRequests⟩ := Client.Run.extend hLaidOut
    [.allocate 24, .allocateZeroed 100, .allocate 200, .free 65664, .allocate 5]
    (.start trivial) (by decide) (by decide)
  obtain ⟨r, chain, hBounds, hIntact, -⟩ := correct_run_intact hInit hRun
  obtain rfl : r = .kibibyte := (Except.ok.inj hBounds).symm
  exact ⟨s', log, c, chain, hInit, hRun, hRequests, hIntact⟩

end RegionHeap
