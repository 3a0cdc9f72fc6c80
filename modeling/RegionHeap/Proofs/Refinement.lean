import RegionHeap.Proofs.Client
import RegionHeap.Proofs.Walk

/-!
# A heap is a tiling

A heap finds classes with a bit scan, keeps its stacks as rings inside freed payloads and
reads sizes off neighbouring headers. None of this shows: to its clients it is a tiling,
which has no memory.

* `Client.Simulates`: chain and rings of a client's store are blocks and stacks of a tiling.
* `correct_run_refines_tiling`: after every correct run they are those of the tiling that was
  given the same calls, and so were all answers.
-/

namespace RegionHeap

variable {r : Region} {s s' : Store} {t : Tiling} {c : Client}

/-- Chain and rings of the store are the blocks and stacks of the tiling. -/
structure Client.Simulates (c : Client) (r : Region) (t : Tiling) : Prop where
  /-- The blocks lie side by side between the boundaries. -/
  tiled : Tiled headerSize t.blocks r.tail
  /-- The stacks hold the free blocks. -/
  binned : Binned t.blocks t.stack
  chunks : c.store.chunks = .ok (t.chunks r)
  rings : ∀ k, c.store.heap.bins.ring r c.store.memory k = .ok (t.stack k)
  heads : ∀ k, c.store.heap.bins.head k = (t.stack k).head?
  count : c.store.heap.bins.count = stacked t.stack
  freeBytes : c.store.heap.counters.freeBytes = RegionHeap.freeBytes t.blocks
  usedBytes : c.store.heap.counters.usedBytes = RegionHeap.usedBytes t.blocks
  /-- The used blocks are those that the client holds. -/
  live : ∀ p, p ∈ c.live ↔ ∃ b ∈ t.used, r.payload b.offset = p

theorem Client.Tracks.simulates (h : c.Tracks r t) : c.Simulates r t where
  tiled := h.represents.holds.tiled
  binned := h.represents.holds.binned
  chunks := h.represents.chunks_eq
  rings := h.represents.ring_eq
  heads := h.represents.holds.filed.head
  count := h.represents.holds.filed.count
  freeBytes := h.represents.holds.freeBytes
  usedBytes := h.represents.holds.usedBytes
  live _ := h.live.mem_iff.trans List.mem_map

/-- **A heap refines a tiling**: along every correct run all answers are those of a tiling that
is given the same calls, and chain and rings are its blocks and stacks; every next call
returns, with the tiling's next answer. -/
theorem correct_run_refines_tiling {start stop : Nat} {config : Config} {log : List Exchange}
    (hInit : s.init start stop config = .ok (.ok (), s'))
    (hRun : Client.Run .correct ⟨s', []⟩ log c) :
    ∃ r, Region.ofBounds? start stop = .ok r ∧
      log.map (·.answer) = (Tiling.initial r.size).answers r (requests log) ∧
      c.Simulates r (Tiling.replay r log) ∧
      ∀ request, Protocol.correct.allows c request → log.length + 1 < Word.limit →
        ∃ c', c.perform request = .ok (((Tiling.replay r log).serve r request).1, c') ∧
          c'.Simulates r ((Tiling.replay r log).serve r request).2 := by
  obtain ⟨r, hBounds, hLaidOut⟩ := Store.laidOut_of_init hInit
  obtain ⟨hTracks, hAnswers, -⟩ := Client.Run.tracks hLaidOut hRun
  refine ⟨r, hBounds, hAnswers, hTracks.simulates, fun request hAllowed hCalls => ?_⟩
  obtain ⟨c', hCall⟩ := Client.Run.progress hLaidOut hRun hAllowed hCalls
  obtain ⟨c'', hCall', hTracks', -⟩ := hTracks.perform hAllowed (hTracks.hasRoom_of_perform hCall)
  exact ⟨c'', hCall', hTracks'.simulates⟩

/-- The block that was freed last is used first, and a request that fits nowhere is refused. -/
theorem correct_run_refines_tiling_last_freed :
    ∃ s' log c, Store.init ⟨Heap.empty, Memory.blank⟩ 65536 66560 .hardened =
        .ok (.ok (), s') ∧
      Client.Run .correct ⟨s', []⟩ log c ∧
      log.map (·.answer) =
        [.allocated (.ok 65600), .allocated (.ok 65664), .allocated (.ok 65728),
          .allocated (.ok 65792), .freed (.ok ()), .freed (.ok ()), .allocated (.ok 65728),
          .allocated (.error (.outOfMemory 1024))] ∧
      c.Simulates .kibibyte (.replay .kibibyte log) := by
  obtain ⟨s', hInit, hLaidOut⟩ := Store.init_kibibyte .hardened
  obtain ⟨log, c, hRun, hRequests⟩ := Client.Run.extend hLaidOut
    [.allocate 24, .allocate 24, .allocate 24, .allocate 24, .free 65600, .free 65728,
      .allocate 24, .allocate 1024]
    (.start trivial) (by decide) (by decide)
  obtain ⟨r, hBounds, hAnswers, hSimulates, -⟩ := correct_run_refines_tiling hInit hRun
  obtain rfl : r = .kibibyte := (Except.ok.inj hBounds).symm
  rw [hRequests] at hAnswers
  exact ⟨s', log, c, hInit, hRun, hAnswers, hSimulates⟩

end RegionHeap
