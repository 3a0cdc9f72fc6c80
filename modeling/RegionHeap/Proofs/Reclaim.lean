import RegionHeap.Proofs.Gaps
import RegionHeap.Proofs.Leases

/-!
# Blocks that are given back

Whatever happened since a block was handed out, giving it back frees the chunk that it lies in,
and when all blocks are back the region is one free chunk again.

* `Tiling.blocks_eq_whole`: a tiling in which nothing is used is the initial one.
* `Program.Backed.reclaims`: giving a block back frees its chunk, without a word.
* `program_run_reclaims`: both hold in every state that a correct program can bring about.
-/

namespace RegionHeap

variable {r : Region} {t : Tiling} {s s' : Store} {p : Program} {heap : SharedHeap} {l : Lease}

/-- The pointers of the used chunks. -/
def usedPointers (chain : List ChunkInfo) : List Nat :=
  (chain.filter (·.mark = some .used)).map (·.address)

/-- The chunks of a region in which nothing is used. -/
def Region.unused (r : Region) : List ChunkInfo :=
  [ { offset := 0, address := r.payload 0, size := 0, mark := some .sentinel },
    { offset := headerSize
      address := r.payload headerSize
      size := r.size - 3 * headerSize
      mark := some .free },
    { offset := r.tail, address := r.payload r.tail, size := 0, mark := some .sentinel } ]

/-- Giving the block `l` back frees the chunk at `l.raw`, whoever listens: the heap accepts
that pointer, nothing is reported, and afterwards the chunk and no other is no longer used. -/
structure Program.Reclaims (p : Program) (l : Lease) (s' : Store) : Prop where
  accepted : p.heap.store.free l.raw = .ok (.ok (), s')
  quiet : ∀ logger, p.heap.dealloc logger l.address l.layout = .ok { p.heap with store := s' }
  freed : ∃ chain chain', p.heap.store.chunks = .ok chain ∧ s'.chunks = .ok chain' ∧
    (usedPointers chain).Perm (l.raw :: usedPointers chain')

-- ---------------------------------------------------------------------------
-- One block
-- ---------------------------------------------------------------------------

theorem Tiling.usedPointers_chunks :
    usedPointers (t.chunks r) = t.used.map fun b => r.payload b.offset := by
  unfold usedPointers
  rw [Tiling.filter_used_chunks, List.map_map]
  rfl

/-- **Giving a block back** frees the chunk that it lies in. -/
theorem Program.Backed.reclaims (h : p.Backed r t) (hl : l ∈ p.leases) :
    ∃ s', p.Reclaims l s' := by
  obtain ⟨b, s', hb, hRaw, hFree, -, hPerm, hFreed, -⟩ := h.dealloc hl .silent
  refine ⟨s', hFree, fun logger => ?_, t.chunks r, (t.free b.offset).chunks r,
    h.represents.chunks_eq, hFreed.represents.chunks_eq, ?_⟩
  · -- what is freed does not depend on who listens
    obtain ⟨_, s'', _, _, hFree', hDealloc, _⟩ := h.dealloc hl logger
    obtain ⟨-, rfl⟩ := Prod.mk.inj (Except.ok.inj (hFree.symm.trans hFree'))
    exact hDealloc
  · rw [Tiling.usedPointers_chunks, Tiling.usedPointers_chunks, hRaw]
    exact hPerm.map fun b => r.payload b.offset

-- ---------------------------------------------------------------------------
-- All blocks
-- ---------------------------------------------------------------------------

/-- A tiling in which nothing is used, and no two neighbours are free, has one block. -/
theorem Tiling.blocks_eq_whole (hTiled : Tiled headerSize t.blocks r.tail)
    (hCoalesced : Coalesced t.blocks) (hUnused : t.used = []) :
    t.blocks = [Store.whole r] := by
  have hWhole : t.blocks = (Tiling.mk [Store.whole r] t.stack).blocks :=
    blocks_eq_of_used hTiled hCoalesced (Store.tiled_whole r) (List.isChain_singleton _) hUnused
  exact hWhole

/-- **A heap whose blocks are all back** is one free chunk between its boundaries. -/
theorem Program.Backed.unused (h : p.Backed r t) (hLeases : p.leases = []) :
    p.heap.store.chunks = .ok r.unused ∧ p.heap.store.heap.counters.usedBytes = 0 := by
  have hUnused : t.used = [] := by
    have hLive := h.tracks.live
    have hNil : p.client.live = [] := by
      unfold Program.client
      rw [hLeases]
      rfl
    rw [hNil] at hLive
    exact List.map_eq_nil_iff.mp hLive.nil_eq.symm
  have hWhole := Tiling.blocks_eq_whole h.represents.holds.tiled h.represents.coalesced hUnused
  constructor
  · rw [h.represents.chunks_eq]
    unfold Tiling.chunks
    rw [hWhole]
    rfl
  · rw [h.represents.holds.usedBytes, hWhole]
    rfl

/-- **In every run of a correct program blocks are reclaimed**: giving one back frees the chunk
that it lies in, whatever came between, and when none is held the region is one free chunk. -/
theorem program_run_reclaims {start stop : Nat} {config : Config} {log : List Demand}
    (hInit : s.init start stop config = .ok (.ok (), heap.store))
    (hRun : Program.Run (.fresh heap) log p) :
    ∃ r, Region.ofBounds? start stop = .ok r ∧
      (∀ l ∈ p.leases, ∃ s', p.Reclaims l s') ∧
      (p.leases = [] → p.heap.store.chunks = .ok r.unused ∧
        p.heap.store.heap.counters.usedBytes = 0) := by
  obtain ⟨r, hBounds, hLaidOut⟩ := Store.laidOut_of_init hInit
  obtain ⟨⟨t, hBacked⟩, -⟩ := Program.Run.backed hLaidOut hRun
  exact ⟨r, hBounds, fun l hl => hBacked.reclaims hl, hBacked.unused⟩

/-- Two of three blocks are back, and the third, which is strictly inside its payload, frees that
payload. -/
theorem program_run_reclaims_over_aligned :
    ∃ log p s', Store.init ⟨Heap.empty, Memory.blank⟩ 65536 66560 .hardened =
        .ok (.ok (), (SharedHeap.kibibyte .hardened).store) ∧
      Program.Run (.fresh (.kibibyte .hardened)) log p ∧
      log = [.alloc ⟨24, 8⟩, .allocZeroed ⟨100, 64⟩, .alloc ⟨40, 8⟩, .dealloc 65600 ⟨24, 8⟩,
        .dealloc 65872 ⟨40, 8⟩] ∧
      p.leases = [⟨65728, ⟨100, 64⟩, 65664⟩] ∧ p.Reclaims ⟨65728, ⟨100, 64⟩, 65664⟩ s' := by
  have hPlay : ((Program.fresh (.kibibyte .hardened)).play [.alloc ⟨24, 8⟩,
      .allocZeroed ⟨100, 64⟩, .alloc ⟨40, 8⟩, .dealloc 65600 ⟨24, 8⟩,
      .dealloc 65872 ⟨40, 8⟩]).map (·.leases) = some [⟨65728, ⟨100, 64⟩, 65664⟩] := by
    decide +kernel
  obtain ⟨p, hp, hLeases⟩ := Option.map_eq_some_iff.mp hPlay
  have hInit := SharedHeap.init_kibibyte .hardened
  have hRun := Program.Run.play _ .start hp
  obtain ⟨r, -, hReclaims, -⟩ := program_run_reclaims hInit hRun
  obtain ⟨s', hReclaimed⟩ := hReclaims ⟨65728, ⟨100, 64⟩, 65664⟩ (by simp [hLeases])
  exact ⟨_, p, s', hInit, hRun, rfl, hLeases, hReclaimed⟩

end RegionHeap
