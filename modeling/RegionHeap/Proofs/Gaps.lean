import RegionHeap.Proofs.Integrity

/-!
# Gaps between chunks that are kept

Where no two neighbours are free, the free chunks of a walk are what the others leave over: each
fills the stretch between two chunks that are kept, and no such stretch is left out. So the kept
chunks determine the free ones, and with them the whole walk.

* `IsGap`: a stretch between two kept chunks that no kept chunk reaches into.
* `Paved.isGap_iff`: the free chunks are exactly the gaps between the others.
* `Tiling.blocks_eq_of_used`: tilings of a region with the same used blocks have the same blocks.
-/

namespace RegionHeap

variable {r : Region} {chain : List ChunkInfo} {a b : ChunkInfo} {x y : Nat} {t t' : Tiling}

/-- Where the next chunk's header is. -/
def ChunkInfo.stop (a : ChunkInfo) : Nat := a.offset + headerSize + a.size

/-- From `start` to `stop` there is room between two chunks that are kept, and no kept chunk lies
there. Kept chunks are at both ends, so there is no longer stretch of this kind around it. -/
structure IsGap (kept : List ChunkInfo) (start stop : Nat) : Prop where
  lt : start < stop
  left : ∃ a ∈ kept, a.stop = start
  right : ∃ a ∈ kept, a.offset = stop
  clear : ∀ a ∈ kept, a.stop ≤ start ∨ stop ≤ a.offset

/-- The chunks lie side by side, no two neighbours are free, and neither end is. -/
structure Paved (chain : List ChunkInfo) : Prop where
  linked : chain.IsChain fun a b => a.stop = b.offset
  coalesced : chain.IsChain fun a b => ¬(a.isFree = true ∧ b.isFree = true)
  first : ∀ a ∈ chain.head?, a.isFree = false
  last : ∀ a ∈ chain.getLast?, a.isFree = false

theorem ChunkInfo.offset_lt_stop (a : ChunkInfo) : a.offset < a.stop := by
  have := sizes_eq
  unfold stop
  omega

theorem mem_kept : a ∈ chain.filter (!·.isFree) ↔ a ∈ chain ∧ a.isFree = false := by
  simp

-- ---------------------------------------------------------------------------
-- Walks without two free neighbours
-- ---------------------------------------------------------------------------

namespace Paved

/-- Every chunk stops before the later ones begin. -/
theorem sorted (h : Paved chain) : chain.Pairwise fun a b => a.stop ≤ b.offset := by
  have : IsTrans ChunkInfo fun a b => a.stop ≤ b.offset :=
    ⟨fun a b c hab hbc => by
      have := b.offset_lt_stop
      omega⟩
  exact List.isChain_iff_pairwise.mp (h.linked.imp fun _ _ hab => Nat.le_of_eq hab)

/-- Two chunks are the same or apart. -/
theorem apart (h : Paved chain) (ha : a ∈ chain) (hb : b ∈ chain) :
    a = b ∨ a.stop ≤ b.offset ∨ b.stop ≤ a.offset := by
  obtain ⟨pre, post, rfl⟩ := List.append_of_mem ha
  obtain ⟨-, hPost, hPre⟩ := List.pairwise_append.mp h.sorted
  rcases List.mem_append.mp hb with hb | hb
  · exact Or.inr (Or.inr (hPre b hb a List.mem_cons_self))
  · rcases List.mem_cons.mp hb with rfl | hb
    · exact Or.inl rfl
    · exact Or.inr (Or.inl (List.rel_of_pairwise_cons hPost hb))

/-- A chunk that begins before another one stops has a successor. -/
theorem exists_next (h : Paved chain) (ha : a ∈ chain) (hb : b ∈ chain)
    (hBelow : a.stop < b.stop) : ∃ c ∈ chain, c.offset = a.stop := by
  obtain ⟨pre, post, rfl⟩ := List.append_of_mem ha
  cases post with
  | nil =>
    -- `a` is the last chunk, so `b` does not stop after it
    exfalso
    obtain ⟨-, -, hPre⟩ := List.pairwise_append.mp h.sorted
    rcases List.mem_append.mp hb with hb | hb
    · have hLe := hPre b hb a List.mem_cons_self
      have := a.offset_lt_stop
      omega
    · rw [List.mem_singleton.mp hb] at hBelow
      exact Nat.lt_irrefl _ hBelow
  | cons c rest =>
    obtain ⟨-, hPost, -⟩ := List.isChain_append.mp h.linked
    exact ⟨c, by simp, (List.isChain_cons_cons.mp hPost).1.symm⟩

/-- A free chunk lies between two that are not. -/
theorem neighbours (h : Paved chain) (ha : a ∈ chain) (hFree : a.isFree = true) :
    (∃ b ∈ chain, b.isFree = false ∧ b.stop = a.offset) ∧
      ∃ b ∈ chain, b.isFree = false ∧ b.offset = a.stop := by
  obtain ⟨pre, post, rfl⟩ := List.append_of_mem ha
  obtain ⟨-, hLinkedPost, hLinkedPre⟩ := List.isChain_append.mp h.linked
  obtain ⟨-, hPost, hPre⟩ := List.isChain_append.mp h.coalesced
  constructor
  · rcases List.eq_nil_or_concat' pre with rfl | ⟨front, b, rfl⟩
    · have hFirst := h.first a rfl
      rw [hFree] at hFirst
      exact absurd hFirst (by decide)
    · have hNot := hPre b (by simp) a rfl
      refine ⟨b, by simp, ?_, hLinkedPre b (by simp) a rfl⟩
      simpa [hFree] using hNot
  · cases post with
    | nil =>
      have hLast := h.last a (by simp)
      rw [hFree] at hLast
      exact absurd hLast (by decide)
    | cons b rest =>
      have hNot := (List.isChain_cons_cons.mp hPost).1
      refine ⟨b, by simp, ?_, (List.isChain_cons_cons.mp hLinkedPost).1.symm⟩
      simpa [hFree] using hNot

/-- A free chunk fills a gap. -/
theorem isGap_of_free (h : Paved chain) (ha : a ∈ chain) (hFree : a.isFree = true) :
    IsGap (chain.filter (!·.isFree)) a.offset a.stop := by
  obtain ⟨⟨p, hp, hpKept, hpStop⟩, n, hn, hnKept, hnOffset⟩ := h.neighbours ha hFree
  refine ⟨a.offset_lt_stop, ⟨p, mem_kept.mpr ⟨hp, hpKept⟩, hpStop⟩,
    ⟨n, mem_kept.mpr ⟨hn, hnKept⟩, hnOffset⟩, fun b hb => ?_⟩
  obtain ⟨hbMem, hbKept⟩ := mem_kept.mp hb
  rcases h.apart hbMem ha with rfl | hApart
  · rw [hFree] at hbKept
    exact absurd hbKept (by decide)
  · exact hApart

/-- A gap is filled by a free chunk. -/
theorem exists_free_of_isGap (h : Paved chain) (hGap : IsGap (chain.filter (!·.isFree)) x y) :
    ∃ a ∈ chain, a.isFree = true ∧ a.offset = x ∧ a.stop = y := by
  obtain ⟨hLt, ⟨p, hp, rfl⟩, ⟨q, hq, rfl⟩, hClear⟩ := hGap
  obtain ⟨hpMem, -⟩ := mem_kept.mp hp
  obtain ⟨hqMem, hqKept⟩ := mem_kept.mp hq
  have hqStop := q.offset_lt_stop
  -- the chunk after `p` is not kept, because it would reach into the gap
  obtain ⟨a, ha, haOffset⟩ := h.exists_next hpMem hqMem (by omega)
  have haStop := a.offset_lt_stop
  have hFree : a.isFree = true := by
    by_contra hKept
    have := hClear a (mem_kept.mpr ⟨ha, by simpa using hKept⟩)
    omega
  -- the one after it is kept, so the gap ends there at the latest
  obtain ⟨-, n, hn, hnKept, hnOffset⟩ := h.neighbours ha hFree
  have hnClear := hClear n (mem_kept.mpr ⟨hn, hnKept⟩)
  have hnStop := n.offset_lt_stop
  refine ⟨a, ha, hFree, haOffset, ?_⟩
  rcases h.apart ha hqMem with rfl | hBelow | hAbove
  · rw [hFree] at hqKept
    exact absurd hqKept (by decide)
  · omega
  · omega

/-- **The free chunks are exactly the gaps** between the others. -/
theorem isGap_iff (h : Paved chain) : IsGap (chain.filter (!·.isFree)) x y ↔
    ∃ a ∈ chain, a.isFree = true ∧ a.offset = x ∧ a.stop = y := by
  refine ⟨h.exists_free_of_isGap, ?_⟩
  rintro ⟨a, ha, hFree, rfl, rfl⟩
  exact h.isGap_of_free ha hFree

end Paved

-- ---------------------------------------------------------------------------
-- Tilings
-- ---------------------------------------------------------------------------

namespace Tiling

/-- The chunks that are kept are the used blocks and the boundaries. -/
theorem filter_kept_chunks : (t.chunks r).filter (!·.isFree) =
    r.boundary 0 :: (t.used.map (Block.info r) ++ [r.boundary r.tail]) := by
  have hComp : ((fun a : ChunkInfo => !a.isFree) ∘ Block.info r) = fun b => !b.isFree :=
    funext fun b => congrArg (!·) isFree_info
  simp [chunks, isFree_boundary, used, List.filter_map, hComp]

/-- The walk along a tiling without two free neighbours. -/
theorem paved (hTiled : Tiled headerSize t.blocks r.tail) (hCoalesced : Coalesced t.blocks) :
    Paved (t.chunks r) where
  linked := isChain_chunks t.blocks headerSize (r.boundary 0) hTiled rfl
  coalesced := hCoalesced.chunks
  first a ha := by
    obtain rfl : r.boundary 0 = a := Option.some.inj ha
    rfl
  last a ha := by
    rw [chunks, ← List.cons_append, List.getLast?_concat] at ha
    obtain rfl : r.boundary r.tail = a := Option.some.inj ha
    rfl

theorem info_injective : Function.Injective (Block.info r) := by
  intro b d h
  have hFree : b.isFree = d.isFree := by rw [← isFree_info (r := r), h, isFree_info]
  obtain ⟨o, n, f⟩ := b
  obtain ⟨o', n', f'⟩ := d
  obtain rfl : o = o' := congrArg ChunkInfo.offset h
  obtain rfl : n = n' := congrArg ChunkInfo.size h
  obtain rfl : f = f' := hFree
  rfl

/-- A free chunk is determined by where it begins and stops. -/
theorem eq_of_free (ha : a ∈ t.chunks r) (hb : b ∈ t'.chunks r) (haFree : a.isFree = true)
    (hbFree : b.isFree = true) (hOffset : a.offset = b.offset) (hStop : a.stop = b.stop) :
    a = b := by
  -- boundaries are not free
  have hBlock : ∀ {t : Tiling} {a : ChunkInfo}, a ∈ t.chunks r → a.isFree = true →
      a = Block.info r ⟨a.offset, a.size, true⟩ := by
    intro t a ha hFree
    rcases mem_chunks.mp ha with rfl | ⟨d, -, rfl⟩ | rfl
    · exact absurd hFree (by simp [isFree_boundary])
    · rw [isFree_info] at hFree
      obtain ⟨o, n, f⟩ := d
      obtain rfl : f = true := hFree
      rfl
    · exact absurd hFree (by simp [isFree_boundary])
  have hSize : a.size = b.size := by
    unfold ChunkInfo.stop at hStop
    omega
  rw [hBlock ha haFree, hBlock hb hbFree, hOffset, hSize]

theorem mem_chunks_of_kept (h : Paved (t.chunks r)) (h' : Paved (t'.chunks r))
    (hKept : (t.chunks r).filter (!·.isFree) = (t'.chunks r).filter (!·.isFree))
    (ha : a ∈ t.chunks r) : a ∈ t'.chunks r := by
  cases hFree : a.isFree with
  | false =>
    have hMem := mem_kept.mpr ⟨ha, hFree⟩
    rw [hKept] at hMem
    exact (mem_kept.mp hMem).1
  | true =>
    have hGap := h.isGap_of_free ha hFree
    rw [hKept] at hGap
    obtain ⟨b, hb, hbFree, hOffset, hStop⟩ := h'.exists_free_of_isGap hGap
    rw [eq_of_free ha hb hFree hbFree hOffset.symm hStop.symm]
    exact hb

/-- **The used blocks determine the free ones.** -/
theorem blocks_eq_of_used (hTiled : Tiled headerSize t.blocks r.tail)
    (hCoalesced : Coalesced t.blocks) (hTiled' : Tiled headerSize t'.blocks r.tail)
    (hCoalesced' : Coalesced t'.blocks) (hUsed : t.used = t'.used) : t.blocks = t'.blocks := by
  have h := paved hTiled hCoalesced
  have h' := paved hTiled' hCoalesced'
  have hKept : (t.chunks r).filter (!·.isFree) = (t'.chunks r).filter (!·.isFree) := by
    rw [filter_kept_chunks, filter_kept_chunks, hUsed]
  have hNodup : ∀ {chain : List ChunkInfo}, Paved chain → chain.Nodup := fun hPaved =>
    hPaved.sorted.imp fun {a b} hab hEq => by
      have := a.offset_lt_stop
      rw [hEq] at hab this
      omega
  -- both walks have the same chunks, in ascending order
  have hChunks : t.chunks r = t'.chunks r := by
    refine List.Perm.eq_of_pairwise (fun a b _ _ hab hba => ?_) h.sorted h'.sorted
      ((List.perm_ext_iff_of_nodup (hNodup h) (hNodup h')).mpr fun a =>
        ⟨mem_chunks_of_kept h h' hKept, mem_chunks_of_kept h' h hKept.symm⟩)
    have := a.offset_lt_stop
    have := b.offset_lt_stop
    omega
  have hTail := (List.cons.inj hChunks).2
  exact info_injective.list_map (List.append_cancel_right hTail)

end Tiling

end RegionHeap
