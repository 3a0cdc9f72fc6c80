import RegionHeap.Proofs.Admission
import RegionHeap.Proofs.Integrity

/-!
# Totals and walks

A heap keeps its totals up to date call by call, and looks for its largest free chunk in one ring
only. A walk along the whole chain comes to the same numbers.

* `Stats.Counts`: the totals are what counting the chunks of a walk gives.
* `Coalesced.length_free_le`: where no two neighbours are free, there is at most one free block more
  than there are used ones.
* `Represents.counts`, `Represents.balanced`: the totals of a store that represents a tiling.
* `correct_run_counts_chunks`: the totals in every state that a correct client can bring about.
-/

namespace RegionHeap

variable {r : Region} {blocks : List Block} {k : SizeClass} {s s' : Store} {t : Tiling} {c : Client}

/-- The totals are those of the chunks of a walk. -/
structure Stats.Counts (stats : Stats) (chain : List ChunkInfo) : Prop where
  freeBytes : stats.freeBytes = ((chain.filter (·.isFree)).map (·.size)).sum
  usedBytes : stats.usedBytes = ((chain.filter (·.mark = some .used)).map (·.size)).sum
  /-- One header for each chunk that is no boundary. -/
  metaBytes : stats.metaBytes = headerSize * (chain.filter (·.mark ≠ some .sentinel)).length
  freeChunks : stats.freeChunks = (chain.filter (·.isFree)).length
  liveAllocations : stats.liveAllocations = (chain.filter (·.mark = some .used)).length
  size_le_largestFree : ∀ a ∈ chain, a.isFree = true → a.size ≤ stats.largestFree
  exists_largestFree :
    stats.largestFree = 0 ∨ ∃ a ∈ chain, a.isFree = true ∧ a.size = stats.largestFree

-- ---------------------------------------------------------------------------
-- Free and used blocks
-- ---------------------------------------------------------------------------

/-- **Where no two neighbours are free**, there is at most one free block more than there are used
ones, and none more if the first block is used. -/
theorem Coalesced.length_free_le (h : Coalesced blocks) :
    (blocks.filter (·.isFree)).length ≤ (blocks.filter (!·.isFree)).length + 1 ∧
      (UsedFirst blocks →
        (blocks.filter (·.isFree)).length ≤ (blocks.filter (!·.isFree)).length) := by
  induction blocks with
  | nil => exact ⟨Nat.zero_le _, fun _ => Nat.le_refl _⟩
  | cons b rest ih =>
    obtain ⟨hRest, hNext⟩ := coalesced_cons.mp h
    obtain ⟨hAny, hUsed⟩ := ih hRest
    cases hFree : b.isFree with
    | true =>
      -- the rest begins with a used block, so it has no more free blocks than used ones
      have hRestUsed := hUsed (hNext hFree)
      simp only [List.filter_cons, hFree, Bool.not_true, if_true, Bool.false_eq_true, if_false,
        List.length_cons]
      refine ⟨by omega, fun hFirst => ?_⟩
      have hContra := hFirst b rfl
      rw [hFree] at hContra
      exact absurd hContra (by decide)
    | false =>
      simp only [List.filter_cons, hFree, Bool.not_false, if_true, Bool.false_eq_true, if_false,
        List.length_cons]
      exact ⟨by omega, fun _ => hAny⟩

namespace Tiling

/-- The chunks between the boundaries are the blocks. -/
theorem filter_bounded_chunks : (t.chunks r).filter (·.mark ≠ some .sentinel) =
    t.blocks.map (Block.info r) := by
  have hBlock : ∀ b ∈ t.blocks, decide ((b.info r).mark ≠ some .sentinel) = true := by
    intro b _
    unfold Block.info Block.mark
    cases b.isFree <;> rfl
  have hBlocks : (t.blocks.map (Block.info r)).filter (·.mark ≠ some .sentinel) =
      t.blocks.map (Block.info r) := by
    refine List.filter_eq_self.mpr fun a ha => ?_
    obtain ⟨b, hb, rfl⟩ := List.mem_map.mp ha
    exact hBlock b hb
  unfold chunks
  rw [List.filter_cons_of_neg (by simp [Region.boundary]), List.filter_append, hBlocks,
    List.filter_cons_of_neg (by simp [Region.boundary]), List.filter_nil, List.append_nil]

end Tiling

-- ---------------------------------------------------------------------------
-- The totals of a store
-- ---------------------------------------------------------------------------

namespace Store.Represents

variable {stats : Stats}

/-- **The totals are those of a walk**, if the allocations that were not freed are the used
blocks. -/
theorem counts (h : s.Represents r t) (hStats : s.stats = .ok stats)
    (hLive : stats.liveAllocations = t.used.length) : stats.Counts (t.chunks r) := by
  obtain rfl := Except.ok.inj (h.stats_eq.symm.trans hStats)
  constructor
  · rw [Tiling.filter_isFree_chunks, List.map_map]
    rfl
  · rw [Tiling.filter_used_chunks, List.map_map]
    rfl
  · rw [Tiling.filter_bounded_chunks, List.length_map]
    rfl
  · rw [Tiling.filter_isFree_chunks, List.length_map]
    rfl
  · rw [Tiling.filter_used_chunks, List.length_map]
    exact hLive
  · intro a ha hFree
    rcases Tiling.mem_chunks.mp ha with rfl | ⟨b, hb, rfl⟩ | rfl
    · exact absurd hFree (by simp [Tiling.isFree_boundary])
    · exact Tiling.size_le_largestFree hb (Tiling.isFree_info.symm.trans hFree)
    · exact absurd hFree (by simp [Tiling.isFree_boundary])
  · rcases Nat.eq_zero_or_pos t.largestFree with hZero | hPos
    · exact Or.inl hZero
    · obtain ⟨b, hb, hFree, hSize⟩ := Tiling.exists_largest hPos
      exact Or.inr ⟨b.info r, Tiling.mem_chunks.mpr (Or.inr (Or.inl ⟨b, hb, rfl⟩)),
        Tiling.isFree_info.trans hFree, hSize⟩

/-- **The bytes add up** to the size of the region, which is a word. -/
theorem balanced (h : s.Represents r t) (hStats : s.stats = .ok stats) :
    stats.isBalanced = .ok true := by
  obtain rfl := Except.ok.inj (h.stats_eq.symm.trans hStats)
  unfold Stats.isBalanced Tiling.stats
  simp only
  rw [h.sum_eq, ok_bind, beq_self_eq_true]
  rfl

/-- The ring of the last occupied class has a chunk of the largest size. -/
theorem largest_in_ring (h : s.Represents r t) (hLast : s.heap.bins.lastOccupied? = some k) :
    ∃ ring, s.heap.bins.ring r s.memory k = .ok ring ∧
      ∃ a ∈ t.chunks r, a.offset ∈ ring ∧ a.isFree = true ∧ a.size = t.largestFree := by
  obtain ⟨b, hb, hFree, rfl, hSize⟩ := h.exists_largest_of_last hLast
  exact ⟨_, h.ring_eq _, b.info r, Tiling.mem_chunks.mpr (Or.inr (Or.inl ⟨b, hb, rfl⟩)),
    h.holds.binned.mem_of_free hb hFree, Tiling.isFree_info.trans hFree, hSize⟩

end Store.Represents

/-- The allocations that were not freed are the live ones. -/
theorem Client.Tracks.liveAllocations_eq {stats : Stats} (h : c.Tracks r t)
    (hStats : c.store.stats = .ok stats) :
    stats.liveAllocations = c.live.length ∧ c.live.length = t.used.length := by
  obtain rfl := Except.ok.inj (h.represents.stats_eq.symm.trans hStats)
  have hCount := h.allocations
  have hLength := h.live.length_eq
  rw [List.length_map] at hLength
  refine ⟨?_, hLength⟩
  show c.store.heap.counters.allocations - c.store.heap.counters.frees = c.live.length
  omega

-- ---------------------------------------------------------------------------
-- Correct runs
-- ---------------------------------------------------------------------------

/-- **The totals agree with a walk** in every state that a correct client can bring about: bytes,
headers and chunks are counted right, the largest free chunk of all is in the one ring that is
looked through, the bytes add up to the region without running over, and the allocations that were
not freed are the used chunks, of which there are too many for the free chunks to be more than one
ahead. -/
theorem correct_run_counts_chunks {start stop : Nat} {config : Config} {log : List Exchange}
    (hInit : s.init start stop config = .ok (.ok (), s'))
    (hRun : Client.Run .correct ⟨s', []⟩ log c) :
    ∃ r chain stats, Region.ofBounds? start stop = .ok r ∧
      c.store.chunks = .ok chain ∧ c.store.stats = .ok stats ∧ stats.Counts chain ∧
      (∀ k, c.store.heap.bins.lastOccupied? = some k →
        ∃ ring, c.store.heap.bins.ring r c.store.memory k = .ok ring ∧
          ∃ a ∈ chain, a.offset ∈ ring ∧ a.isFree = true ∧ a.size = stats.largestFree) ∧
      stats.regionSize = r.size ∧ stats.sentinelBytes = 2 * headerSize ∧
      stats.isBalanced = .ok true ∧ stats.liveAllocations = c.live.length ∧
      stats.freeChunks ≤ stats.liveAllocations + 1 ∧
      stats.metaBytes = headerSize * (stats.freeChunks + stats.liveAllocations) := by
  obtain ⟨r, hBounds, hLaidOut⟩ := Store.laidOut_of_init hInit
  obtain ⟨hTracks, -⟩ := Client.Run.tracks hLaidOut hRun
  have hStats := hTracks.represents.stats_eq
  obtain ⟨hLive, hUsed⟩ := hTracks.liveAllocations_eq hStats
  refine ⟨r, _, _, hBounds, hTracks.represents.chunks_eq, hStats,
    hTracks.represents.counts hStats (hLive.trans hUsed),
    fun k hLast => hTracks.represents.largest_in_ring hLast, rfl, rfl,
    hTracks.represents.balanced hStats, hLive, ?_, ?_⟩
  · rw [hLive, hUsed]
    exact hTracks.represents.coalesced.length_free_le.1
  · rw [hLive, hUsed]
    exact congrArg (headerSize * ·) (List.length_eq_length_filter_add Block.isFree)

/-- Two free chunks of one class, of which the newer one is the smaller: the largest free chunk is
not the head of its ring. There is one free chunk more than there are used ones. -/
theorem correct_run_counts_chunks_two_free :
    ∃ s log c chain stats, Store.init ⟨Heap.empty, Memory.blank⟩ 65536 66560 .hardened =
        .ok (.ok (), s) ∧
      Client.Run .correct ⟨s, []⟩ log c ∧
      requests log = [.allocate 400, .allocate 24, .free 65600] ∧
      c.store.chunks = .ok chain ∧ c.store.stats = .ok stats ∧ stats.Counts chain ∧
      c.store.heap.bins.ring .kibibyte c.store.memory 8 = .ok [32, 528] ∧
      stats.largestFree = 432 ∧ stats.isBalanced = .ok true ∧ stats.liveAllocations = 1 ∧
      stats.freeChunks = 2 ∧ stats.metaBytes = 96 := by
  obtain ⟨s, hInit, hLaidOut⟩ := Store.init_kibibyte .hardened
  obtain ⟨log, c, hRun, hRequests⟩ := Client.Run.extend hLaidOut
    [.allocate 400, .allocate 24, .free 65600] (.start trivial) (by decide) (by decide)
  obtain ⟨r, chain, stats, -, hChain, hStats, hCounts, -, -, -, hBalanced, hLive, -⟩ :=
    correct_run_counts_chunks hInit hRun
  have hTracks := (Client.Run.tracks hLaidOut hRun).1
  have hLength := (hTracks.liveAllocations_eq hStats).2
  have hRing := hTracks.represents.ring_eq 8
  have hTotals := Except.ok.inj (hTracks.represents.stats_eq.symm.trans hStats)
  rw [Tiling.replay, hRequests] at hLength hRing hTotals
  refine ⟨s, log, c, chain, stats, hInit, hRun, hRequests, hChain, hStats, hCounts, hRing, ?_,
    hBalanced, hLive.trans hLength, ?_, ?_⟩
  · rw [← hTotals]
    show Tiling.largestFree _ = 432
    decide
  · rw [← hTotals]
    show (List.filter _ _).length = 2
    decide
  · rw [← hTotals]
    show headerSize * List.length _ = 96
    decide

end RegionHeap
