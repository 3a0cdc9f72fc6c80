import RegionHeap.Proofs.Admission
import RegionHeap.Proofs.Undo

/-!
# Freeing never hurts

A block that is freed takes in its free neighbours and leaves all others alone. So every block that
was free lies within one that is free now, the largest one among them, and a request that could be
served still can be. An allocation is undone by freeing what it returned, so it goes the other way.

* `Block.Within`: a block lies within another one.
* `Tiling.Widens`: what is free in one tiling is free in another one, in pieces no smaller.
* `Represents.widens_free`: freeing widens.
* `Tracks.granted_of_widens`: what was granted is granted where more is free.
* `Tracks.widens_of_granted`: allocating narrows.
* `correct_run_widens`: in every state that a correct client can bring about.
-/

namespace RegionHeap

variable {r : Region} {a b d : Block} {pre post : List Block} {start stop size : Nat}
variable {stack : SizeClass → List Nat} {s s' : Store} {t t' : Tiling} {c c' : Client}

-- ---------------------------------------------------------------------------
-- Blocks within blocks
-- ---------------------------------------------------------------------------

/-- All of `b` lies within `d`, its header included. -/
structure Block.Within (b d : Block) : Prop where
  offset_le : d.offset ≤ b.offset
  stop_le : b.stop ≤ d.stop

namespace Block.Within

theorem refl (b : Block) : b.Within b := ⟨Nat.le_refl _, Nat.le_refl _⟩

theorem trans (h : a.Within b) (h' : b.Within d) : a.Within d :=
  ⟨h'.offset_le.trans h.offset_le, h.stop_le.trans h'.stop_le⟩

/-- What lies within a block is no larger. -/
theorem size_le (h : b.Within d) : b.size ≤ d.size := by
  have hOffset := h.offset_le
  have hStop := h.stop_le
  unfold Block.stop at hStop
  omega

theorem join_left (a b : Block) : a.Within (a.join b) where
  offset_le := Nat.le_refl _
  stop_le := by
    unfold Block.stop Block.join
    simp only
    omega

theorem join_right (hAdjacent : a.stop = b.offset) : b.Within (a.join b) where
  offset_le := by
    rw [← hAdjacent]
    exact a.offset_lt_stop.le
  stop_le := by
    unfold Block.stop Block.join at *
    simp only
    omega

end Block.Within

-- ---------------------------------------------------------------------------
-- Merging with neighbours
-- ---------------------------------------------------------------------------

/-- `b` became `b'` when it was merged with some of the blocks on one of its sides, and `side'` is
left of them: nothing that is free was lost. -/
structure Absorbs (b : Block) (side : List Block) (b' : Block) (side' : List Block) : Prop where
  own : b.Within b'
  others : ∀ d ∈ side, d.isFree = true → d.Within b' ∨ d ∈ side'
  freeBytes_le : b.size + freeBytes side ≤ b'.size + freeBytes side'

theorem Absorbs.nothing (b : Block) (side : List Block) : Absorbs b side b side :=
  ⟨.refl b, fun _ hd _ => Or.inr hd, Nat.le_refl _⟩

/-- Two merges, on either side, are a merge with both sides. -/
theorem Absorbs.both {b₁ b₂ : Block} {pre₂ post₁ : List Block} (hNext : Absorbs b post b₁ post₁)
    (hPrevious : Absorbs b₁ pre b₂ pre₂) : Absorbs b (pre ++ post) b₂ (pre₂ ++ post₁) where
  own := hNext.own.trans hPrevious.own
  others d hd hFree := by
    rcases List.mem_append.mp hd with hd | hd
    · rcases hPrevious.others d hd hFree with hWithin | hd
      · exact Or.inl hWithin
      · exact Or.inr (List.mem_append_left _ hd)
    · rcases hNext.others d hd hFree with hWithin | hd
      · exact Or.inl (hWithin.trans hPrevious.own)
      · exact Or.inr (List.mem_append_right _ hd)
  freeBytes_le := by
    have := hNext.freeBytes_le
    have := hPrevious.freeBytes_le
    rw [freeBytes_append, freeBytes_append]
    omega

theorem mergeNext_absorbs (stack : SizeClass → List Nat) (h : Tiled b.stop post stop) :
    Absorbs b post (mergeNext stack b post).2.1 (mergeNext stack b post).2.2 := by
  rcases free_or_usedFirst post with ⟨next, rest, rfl, hNext⟩ | hNext
  · obtain ⟨hOffset, -⟩ := h
    rw [mergeNext_free hNext]
    refine ⟨.join_left b next, ?_, ?_⟩
    · intro d hd _
      rcases List.mem_cons.mp hd with rfl | hd
      · exact Or.inl (.join_right hOffset.symm)
      · exact Or.inr hd
    · rw [freeBytes_cons, if_pos hNext]
      unfold Block.join
      simp only
      omega
  · rw [mergeNext_used hNext]
    exact .nothing b post

theorem mergePrevious_absorbs (stack : SizeClass → List Nat) (h : Tiled start pre b.offset) :
    Absorbs b pre (mergePrevious stack pre b).2.2 (mergePrevious stack pre b).2.1 := by
  rcases free_or_usedLast pre with ⟨front, previous, rfl, hPrevious⟩ | hPrevious
  · obtain ⟨_, -, -, -, -, hAdjacent⟩ := tiled_append.mp h
    rw [mergePrevious_free hPrevious]
    refine ⟨.join_right hAdjacent, ?_, ?_⟩
    · intro d hd _
      rcases List.mem_append.mp hd with hd | hd
      · exact Or.inr hd
      · rw [List.mem_singleton.mp hd]
        exact Or.inl (.join_left previous b)
    · rw [freeBytes_append, freeBytes_cons, if_pos hPrevious, freeBytes_nil]
      unfold Block.join
      simp only
      omega
  · rw [mergePrevious_used hPrevious]
    exact .nothing b pre

-- ---------------------------------------------------------------------------
-- Tilings
-- ---------------------------------------------------------------------------

namespace Tiling

/-- What is free in `t` is free in `t'`: every free block lies within one of `t'`, and `t'` has no
fewer free bytes. -/
structure Widens (t t' : Tiling) : Prop where
  within : ∀ b ∈ t.blocks, b.isFree = true → ∃ d ∈ t'.blocks, d.isFree = true ∧ b.Within d
  freeBytes_le : freeBytes t.blocks ≤ freeBytes t'.blocks

/-- The largest free block does not shrink. -/
theorem Widens.largestFree_le (h : t.Widens t') : t.largestFree ≤ t'.largestFree := by
  by_cases hPos : 0 < t.largestFree
  · obtain ⟨b, hb, hFree, hSize⟩ := exists_largest hPos
    obtain ⟨d, hd, hdFree, hWithin⟩ := h.within b hb hFree
    calc t.largestFree = b.size := hSize.symm
      _ ≤ d.size := hWithin.size_le
      _ ≤ t'.largestFree := size_le_largestFree hd hdFree
  · omega

/-- **What becomes of the blocks** when `b` is freed: it is merged with free neighbours, and no
block begins where none began before. -/
theorem freed_absorbs (stack : SizeClass → List Nat)
    (hTiled : Tiled start (pre ++ b :: post) stop) :
    ∃ pre' b' post', (freed stack pre b post).blocks = pre' ++ b' :: post' ∧ b'.isFree = true ∧
      Absorbs b (pre ++ post) b' (pre' ++ post') ∧
      (pre' ++ b' :: post').map Block.offset ⊆ (pre ++ b :: post).map Block.offset := by
  obtain ⟨_, hPre, rfl, -, -, hPost⟩ := tiled_append.mp hTiled
  -- the successor is merged first, then the predecessor, and the result is marked
  have hNext := mergeNext_absorbs stack hPost
  have hNextSubset := mergeNext_subset stack b post
  have hNextOffset := mergeNext_offset stack b post
  rw [← hNextOffset] at hPre
  unfold freed
  generalize mergeNext stack b post = next at *
  obtain ⟨stack₁, b₁, post₁⟩ := next
  simp only at hNext hNextSubset hNextOffset hPre ⊢
  have hPrevious := mergePrevious_absorbs stack₁ hPre
  have hPreviousSubset := mergePrevious_subset stack₁ pre b₁
  have hOffset := mergePrevious_offset stack₁ pre b₁
  rw [hNextOffset] at hOffset
  generalize mergePrevious stack₁ pre b₁ = previous at *
  obtain ⟨stack₂, pre₂, b₂⟩ := previous
  simp only at hPrevious hPreviousSubset hOffset ⊢
  obtain ⟨hOwn, hOthers, hBytes⟩ := hNext.both hPrevious
  refine ⟨pre₂, _, post₁, rfl, rfl, ⟨⟨hOwn.offset_le, hOwn.stop_le⟩, ?_, hBytes⟩, ?_⟩
  · intro d hd hFree
    exact (hOthers d hd hFree).imp_left fun hWithin => ⟨hWithin.offset_le, hWithin.stop_le⟩
  · intro x hx
    obtain ⟨d, hd, rfl⟩ := List.mem_map.mp hx
    refine List.mem_map.mpr ?_
    rcases List.mem_append.mp hd with hd | hd
    · exact ⟨d, List.mem_append_left _ (hPreviousSubset hd), rfl⟩
    · rcases List.mem_cons.mp hd with rfl | hd
      · rcases hOffset with hOwn | ⟨a, ha, hOffset⟩
        · exact ⟨b, by simp, hOwn.symm⟩
        · exact ⟨a, List.mem_append_left _ ha, hOffset⟩
      · exact ⟨d, List.mem_append_right _ (List.mem_cons_of_mem _ (hNextSubset hd)), rfl⟩

/-- A used block that is freed makes room, and takes none. -/
theorem widens_freed (hBlocks : t.blocks = pre ++ b :: post)
    (hTiled : Tiled start (pre ++ b :: post) stop) (hUsed : b.isFree = false) :
    t.Widens (freed stack pre b post) := by
  obtain ⟨pre', b', post', hFreed, hFree', hAbsorbs, -⟩ := freed_absorbs stack hTiled
  constructor
  · intro d hd hFree
    rw [hBlocks, List.perm_middle.mem_iff] at hd
    rw [hFreed]
    rcases List.mem_cons.mp hd with rfl | hd
    · exact absurd (hUsed.symm.trans hFree) (by decide)
    · rcases hAbsorbs.others d hd hFree with hWithin | hd
      · exact ⟨b', List.mem_append_right _ List.mem_cons_self, hFree', hWithin⟩
      · exact ⟨d, List.perm_middle.mem_iff.mpr (List.mem_cons_of_mem _ hd), hFree, .refl d⟩
  · have hBytes := hAbsorbs.freeBytes_le
    rw [hBlocks, hFreed]
    simp only [freeBytes_append, freeBytes_cons, hUsed, hFree', Bool.false_eq_true, if_false,
      if_true] at hBytes ⊢
    omega

end Tiling

/-- Where a request is refused, it is refused with less. -/
theorem Stats.Refuses.of_largestFree_le {stats stats' : Stats} (h : stats'.Refuses size)
    (hLe : stats.largestFree ≤ stats'.largestFree) : stats.Refuses size := by
  rcases h with hPadded | hClass | hLargest
  · exact Or.inl hPadded
  · exact Or.inr (Or.inl hClass)
  · exact Or.inr (Or.inr (hLe.trans_lt hLargest))

namespace Store.Represents

/-- **Freeing widens.** -/
theorem widens_free (h : s.Represents r t) (hb : b ∈ t.used) : t.Widens (t.free b.offset) := by
  obtain ⟨-, hUsed⟩ := Tiling.mem_used.mp hb
  obtain ⟨pre, post, hBlocks, hFreed⟩ := Tiling.exists_free_eq_freed h.holds.distinct hb
  have hTiled := h.holds.tiled
  rw [hBlocks] at hTiled
  rw [hFreed]
  exact Tiling.widens_freed hBlocks hTiled hUsed

/-- **A request that can be served** can be served wherever more is free. -/
theorem allocate_of_widens (h : s.Represents r t) (h' : s'.Represents r t') (hWidens : t.Widens t')
    (hSome : t.allocate size ≠ none) : t'.allocate size ≠ none := by
  intro hNone
  have hRefuses : (t'.stats 0 0 0 0).Refuses size := (h'.allocate_eq_none_iff rfl).mp hNone
  have hRefused : (t.stats 0 0 0 0).Refuses size :=
    hRefuses.of_largestFree_le hWidens.largestFree_le
  exact hSome ((h.allocate_eq_none_iff rfl).mpr hRefused)

end Store.Represents

-- ---------------------------------------------------------------------------
-- Clients
-- ---------------------------------------------------------------------------

namespace Client.Tracks

variable {request : Call} {c₁ : Client} {p q : Nat}

/-- **Freeing a live pointer** is accepted and widens. -/
theorem free_widens (h : c.Tracks r t) (hp : p ∈ c.live) :
    ∃ c' t', c.perform (.free p) = .ok (.freed (.ok ()), c') ∧ c'.Tracks r t' ∧ t.Widens t' ∧
      c'.store.heap.counters.allocations = c.store.heap.counters.allocations := by
  have hAllowed : Protocol.correct.allows c (.free p) := hp
  obtain ⟨b, hb, rfl⟩ := h.exists_used hp
  obtain ⟨c', hCall, hTracks, -, hCounted⟩ := h.perform_counted hAllowed trivial
  refine ⟨c', _, hCall, hTracks, ?_, hCounted.allocations⟩
  show t.Widens (t.free (r.payload b.offset - r.payload 0))
  rw [payload_sub]
  exact h.represents.widens_free hb

/-- **What was granted** is granted wherever more is free and no more allocations were counted. -/
theorem granted_of_widens (h : c.Tracks r t) (h' : c'.Tracks r t') (hWidens : t.Widens t')
    (hCount : c'.store.heap.counters.allocations = c.store.heap.counters.allocations)
    (hCall : c.perform request = .ok (.allocated (.ok q), c₁)) :
    ∃ q' c₂, c'.perform request = .ok (.allocated (.ok q'), c₂) := by
  obtain ⟨size, o, t₁, hSize, hAllocate, -, hTracks₁, -, hCounted⟩ := h.granted hCall
  have hSome : t.allocate size ≠ none := by
    rw [hAllocate]
    exact Option.some_ne_none _
  obtain ⟨⟨o', t₂⟩, hAllocate'⟩ :=
    Option.ne_none_iff_exists'.mp (h.represents.allocate_of_widens h'.represents hWidens hSome)
  have hServe := Tiling.serve_of_allocate (r := r) hSize hAllocate'
  -- the first client could count the allocation, so the other one can
  have hRoom : c'.HasRoom t' request := by
    apply HasRoom.of_answer (r := r)
    · intro _
      rw [hCount]
      exact hCounted.allocations ▸ hTracks₁.allocations_lt
    · intro hRefused
      rw [hServe] at hRefused
      exact absurd hRefused Bool.false_ne_true
  obtain ⟨c₂, hCall', -⟩ := h'.perform (allows_of_size hSize) hRoom
  rw [hServe] at hCall'
  exact ⟨_, c₂, hCall'⟩

/-- **An allocation narrows**: freeing what it returned undoes it. -/
theorem widens_of_granted (h : c.Tracks r t)
    (hCall : c.perform request = .ok (.allocated (.ok q), c')) :
    ∃ t', c'.Tracks r t' ∧ t'.Widens t := by
  obtain ⟨-, hLive⟩ := live_of_granted hCall
  obtain ⟨size, o, t', -, hAllocate, rfl, hTracks, -⟩ := h.granted hCall
  have hMem : r.payload o ∈ c'.live := by
    rw [hLive]
    exact List.mem_cons_self
  obtain ⟨b, hb, hOffset⟩ := hTracks.exists_used hMem
  obtain rfl := payload_injective r hOffset
  refine ⟨t', hTracks, ?_⟩
  have hWidens := hTracks.represents.widens_free hb
  rwa [h.represents.free_allocate hAllocate] at hWidens

end Client.Tracks

/-- **Freeing never hurts**, in every state that a correct client can bring about: every live
pointer is freed, the largest free chunk does not shrink, and a request that would have been granted
just before is granted just after. Allocations go the other way: neither the largest free chunk nor
the number of free bytes grows. -/
theorem correct_run_widens {start stop : Nat} {config : Config} {log : List Exchange}
    (hInit : s.init start stop config = .ok (.ok (), s'))
    (hRun : Client.Run .correct ⟨s', []⟩ log c) :
    ∃ stats, c.store.stats = .ok stats ∧
      (∀ p ∈ c.live, ∃ c' stats', c.perform (.free p) = .ok (.freed (.ok ()), c') ∧
        c'.store.stats = .ok stats' ∧ stats.largestFree ≤ stats'.largestFree ∧
        ∀ request q c₁, c.perform request = .ok (.allocated (.ok q), c₁) →
          ∃ q' c₂, c'.perform request = .ok (.allocated (.ok q'), c₂)) ∧
      ∀ request q c', c.perform request = .ok (.allocated (.ok q), c') →
        ∃ stats', c'.store.stats = .ok stats' ∧ stats'.largestFree ≤ stats.largestFree ∧
          stats'.freeBytes ≤ stats.freeBytes := by
  obtain ⟨r, -, hLaidOut⟩ := Store.laidOut_of_init hInit
  obtain ⟨hTracks, -⟩ := Client.Run.tracks hLaidOut hRun
  refine ⟨_, hTracks.represents.stats_eq, ?_, ?_⟩
  · intro p hp
    obtain ⟨c', t', hFree, hTracks', hWidens, hCount⟩ := hTracks.free_widens hp
    refine ⟨c', _, hFree, hTracks'.represents.stats_eq, hWidens.largestFree_le, ?_⟩
    intro request q c₁ hCall
    exact hTracks.granted_of_widens hTracks' hWidens hCount hCall
  · intro request q c' hCall
    obtain ⟨t', hTracks', hWidens⟩ := hTracks.widens_of_granted hCall
    exact ⟨_, hTracks'.represents.stats_eq, hWidens.largestFree_le, hWidens.freeBytes_le⟩

/-- The chunk that 400 bytes would be taken from is merged into the one before it, and they are
granted from there. -/
theorem correct_run_widens_merged :
    ∃ s log c c' q c₂ stats stats', Store.init ⟨Heap.empty, Memory.blank⟩ 65536 66560 .hardened =
        .ok (.ok (), s) ∧
      Client.Run .correct ⟨s, []⟩ log c ∧ requests log = [.allocate 24, .allocate 100] ∧
      c.perform (.free 65664) = .ok (.freed (.ok ()), c') ∧
      c.store.stats = .ok stats ∧ c'.store.stats = .ok stats' ∧
      stats.largestFree ≤ stats'.largestFree ∧
      c'.perform (.allocate 400) = .ok (.allocated (.ok q), c₂) := by
  obtain ⟨s, hInit, hLaidOut⟩ := Store.init_kibibyte .hardened
  obtain ⟨log, c, hRun, hRequests⟩ := Client.Run.extend hLaidOut [.allocate 24, .allocate 100]
    (.start trivial) (by decide) (by decide)
  have hTracks := (Client.Run.tracks hLaidOut hRun).1
  have hLength : log.length + 1 < Word.limit := by
    rw [← length_requests, hRequests]
    decide
  have hAllowed : Protocol.correct.allows c (.allocate 400) := trivial
  obtain ⟨c₁, hCall⟩ := Client.Run.progress hLaidOut hRun hAllowed hLength
  rw [Tiling.replay, hRequests] at hCall hTracks
  have hLive : 65664 ∈ c.live := hTracks.live.mem_iff.mpr (by decide)
  obtain ⟨stats, hStats, hFrees, -⟩ := correct_run_widens hInit hRun
  obtain ⟨c', stats', hFree, hStats', hLargest, hServes⟩ := hFrees 65664 hLive
  obtain ⟨q, c₂, hGranted⟩ := hServes (.allocate 400) 65808 c₁ hCall
  exact ⟨s, log, c, c', q, c₂, stats, stats', hInit, hRun, hRequests, hFree, hStats, hStats',
    hLargest, hGranted⟩

end RegionHeap
