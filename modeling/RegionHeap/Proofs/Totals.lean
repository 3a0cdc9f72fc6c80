import RegionHeap.Proofs.BinLists
import RegionHeap.Proofs.Represents
import RegionHeap.Stats

/-!
# Totals

What a heap has counted is what its blocks add up to, and the largest chunk of its last
occupied class is the largest free block there is.

* `Tiling.stats`: the totals of a tiling, given the numbers of calls.
* `Represents.lists`: the bins of a store, as lists, are the stacks of its tiling.
* `Represents.exists_largest_of_last`: the last occupied class has a largest free block.
* `Represents.largest_eq`: one ring is enough to find its size.
* `Represents.stats_eq`: the totals of a store are those of its tiling.
-/

namespace RegionHeap

variable {r : Region} {b : Block} {k : SizeClass} {s : Store} {t : Tiling}

namespace Tiling

/-- The size of the largest free block, or zero. -/
def largestFree (t : Tiling) : Nat := ((t.blocks.filter (·.isFree)).map (·.size)).foldl max 0

/-- The totals of a tiling of `regionSize` bytes after so many calls. -/
def stats (t : Tiling) (regionSize allocations frees failedAllocations : Nat) : Stats where
  regionSize := regionSize
  freeBytes := freeBytes t.blocks
  usedBytes := usedBytes t.blocks
  metaBytes := headerSize * t.blocks.length
  sentinelBytes := 2 * headerSize
  allocations := allocations
  frees := frees
  failedAllocations := failedAllocations
  freeChunks := (t.blocks.filter (·.isFree)).length
  largestFree := t.largestFree

end Tiling

namespace Tiling

theorem size_le_largestFree (hb : b ∈ t.blocks) (hFree : b.isFree = true) :
    b.size ≤ t.largestFree :=
  le_foldl_max (List.mem_map_of_mem (List.mem_filter.mpr ⟨hb, hFree⟩))

/-- Where a block is free, the largest one is one of the blocks. -/
theorem exists_le_size_of_le_largestFree {n : Nat} (hPos : 0 < n) (h : n ≤ t.largestFree) :
    ∃ b ∈ t.blocks, b.isFree = true ∧ n ≤ b.size := by
  by_contra hNone
  push Not at hNone
  have hLe : t.largestFree ≤ n - 1 := by
    refine foldl_max_le_iff.mpr ⟨Nat.zero_le _, fun x hx => ?_⟩
    obtain ⟨b, hMem, rfl⟩ := List.mem_map.mp hx
    obtain ⟨hb, hFree⟩ := List.mem_filter.mp hMem
    have := hNone b hb hFree
    omega
  omega

/-- Unless it is zero, the largest size is the size of a free block. -/
theorem exists_largest (hPos : 0 < t.largestFree) :
    ∃ b ∈ t.blocks, b.isFree = true ∧ b.size = t.largestFree := by
  obtain ⟨b, hb, hFree, hLe⟩ := exists_le_size_of_le_largestFree hPos (Nat.le_refl _)
  exact ⟨b, hb, hFree, Nat.le_antisymm (size_le_largestFree hb hFree) hLe⟩

/-- The largest of zero and the sizes of all free blocks. -/
theorem isGreatest_largestFree (t : Tiling) :
    IsGreatest (insert 0 {n | ∃ b ∈ t.blocks, b.isFree = true ∧ b.size = n}) t.largestFree := by
  constructor
  · rcases Nat.eq_zero_or_pos t.largestFree with hZero | hPos
    · exact Or.inl hZero
    · exact Or.inr (exists_largest hPos)
  · rintro n (rfl | ⟨b, hb, hFree, rfl⟩)
    · exact Nat.zero_le _
    · exact size_le_largestFree hb hFree

/-- Only the blocks count. -/
theorem stats_congr {t' : Tiling} (h : t.blocks = t'.blocks) (n a f m : Nat) :
    t.stats n a f m = t'.stats n a f m := by
  unfold stats largestFree
  rw [h]

end Tiling

namespace Store.Represents

theorem size_pos (h : s.Represents r t) (hb : b ∈ t.blocks) : b.size ≠ 0 := by
  have := (h.holds.tiled.payload hb).1
  have := sizes_eq
  omega

theorem size_lt_limit (h : s.Represents r t) (hb : b ∈ t.blocks) : b.size < Word.limit := by
  have := (h.holds.tiled.bounds hb).2
  have := r.tail_add_headerSize
  have := r.size_lt_limit
  unfold Block.stop at *
  omega

/-- **The bins** of a store, as lists, are the stacks of its tiling. -/
theorem lists (h : s.Represents r t) : s.heap.bins.Lists r s.memory t.stack := by
  have hPlaced := h.holds.placed
  refine .of_filed h.holds.filed ⟨hPlaced.nodup, fun k o ho => hPlaced.room ho,
    fun j k o ho y hy => hPlaced.apart ho hy, fun k o ho => ?_⟩
  obtain ⟨b, hb, -, rfl, hClass⟩ := h.holds.exists_free ho
  exact ⟨b.size, h.holds.chained.chunkSize_eq hb, hClass⟩

/-- The chunks on the lists are the free blocks. -/
theorem sizesOn_eq (h : s.Represents r t) : r.sizesOn s.memory t.stack =
    {n | ∃ b ∈ t.blocks, b.isFree = true ∧ b.size = n} := by
  ext n
  constructor
  · rintro ⟨k, o, ho, hSize⟩
    obtain ⟨b, hb, hFree, rfl, -⟩ := h.holds.exists_free ho
    exact ⟨b, hb, hFree, Except.ok.inj ((h.holds.chained.chunkSize_eq hb).symm.trans hSize)⟩
  · rintro ⟨b, hb, hFree, rfl⟩
    exact ⟨_, _, h.holds.binned.mem_of_free hb hFree, h.holds.chained.chunkSize_eq hb⟩

/-- **The last occupied class** has a free block than which none is larger. -/
theorem exists_largest_of_last (h : s.Represents r t)
    (hLast : s.heap.bins.lastOccupied? = some k) :
    ∃ b ∈ t.blocks, b.isFree = true ∧ SizeClass.ofSize b.size = k ∧ b.size = t.largestFree := by
  obtain ⟨o, ho, hGreatest⟩ := h.lists.exists_largest_of_last hLast
  obtain ⟨b, hb, hFree, rfl, hClass⟩ := h.holds.exists_free ho
  have hSize := (h.lists.classed.sizeAt_spec ho).1
  rw [h.sizesOn_eq, ← Except.ok.inj ((h.holds.chained.chunkSize_eq hb).symm.trans hSize)]
    at hGreatest
  refine ⟨b, hb, hFree, hClass, ?_⟩
  rw [t.isGreatest_largestFree.unique (hGreatest.insert 0), Nat.max_eq_right (Nat.zero_le _)]

/-- **The largest free block** is in the ring of the last occupied class. -/
theorem largest_eq (h : s.Represents r t) :
    s.heap.bins.largest r s.memory = .ok t.largestFree := by
  obtain ⟨n, hLargest, hGreatest⟩ := h.lists.largest
  rw [h.sizesOn_eq] at hGreatest
  rw [hLargest, hGreatest.unique t.isGreatest_largestFree]

/-- **The totals** of a store are those of its tiling. -/
theorem stats_eq (h : s.Represents r t) : s.stats = .ok (t.stats r.size
    s.heap.counters.allocations s.heap.counters.frees s.heap.counters.failedAllocations) := by
  unfold Store.stats Heap.isInitialized
  simp only [h.holds.region]
  rw [h.largest_eq, ok_bind, pure_eq_ok, h.holds.freeBytes, h.holds.usedBytes, h.holds.metaBytes,
    h.holds.filed.count, h.holds.binned.stacked_eq h.holds.distinct]
  rfl

end Store.Represents

end RegionHeap
