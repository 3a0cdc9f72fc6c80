import RegionHeap.Proofs.Renewal
import RegionHeap.Proofs.Separation

/-!
# Allocations that are taken back

Freeing what was just allocated undoes the allocation. The rest that was split off is still the
newest of its class and the only free neighbour, so it leaves its stack from the top, both parts
make the old block again, and that goes back to the place from where it was popped.

* `stackErase_push`, `stackPush_erase`: filing and popping undo each other.
* `Tiling.free_take`: so do using a block and freeing it.
* `Tracks.takes_back`: a store that allocates and frees shows what it showed before.
* `correct_run_takes_back`: in every state that a correct client can bring about.
-/

namespace RegionHeap

variable {r : Region} {b : Block} {pre post : List Block} {need o size : Nat}
variable {stack : SizeClass → List Nat} {s s' : Store} {t t' : Tiling} {c c₁ : Client}

-- ---------------------------------------------------------------------------
-- Stacks
-- ---------------------------------------------------------------------------

/-- What was pushed last can be taken out again. -/
theorem stackErase_push : stackErase (stackPush stack b) b = stack := by
  funext k
  unfold stackErase stackPush restack
  split
  · exact List.erase_cons_head _ _
  · rfl

/-- What was on top can be put back. -/
theorem stackPush_erase {rest : List Nat}
    (h : stack (SizeClass.ofSize b.size) = b.offset :: rest) :
    stackPush (stackErase stack b) b = stack := by
  funext k
  unfold stackErase stackPush restack
  split
  · next hk =>
    rw [hk, h]
    exact congrArg (b.offset :: ·) (List.erase_cons_head _ _)
  · rfl

-- ---------------------------------------------------------------------------
-- Tilings
-- ---------------------------------------------------------------------------

/-- The two parts of a block make the block. -/
theorem Block.join_cut (h : need + headerSize < b.size) :
    Block.join { (b.cut need).1 with isFree := false } (b.cut need).2 =
      { b with isFree := false } := by
  unfold Block.join Block.cut
  simp only [Block.mk.injEq, and_true, true_and]
  omega

namespace Tiling

/-- Between used neighbours, freeing a block is marking and filing it. -/
theorem freed_alone (hPre : UsedLast pre) (hPost : UsedFirst post) :
    freed stack pre b post =
      { blocks := pre ++ { b with isFree := true } :: post
        stack := stackPush stack { b with isFree := true } } := by
  unfold freed
  simp only [mergeNext_used hPost, mergePrevious_used hPre]

/-- **Using a block and freeing it** undo each other, if the block was on top of its stack and
has no free neighbours. -/
theorem free_take {rest : List Nat} (hFree : b.isFree = true) (hPre : UsedLast pre)
    (hPost : UsedFirst post) (hStack : stack (SizeClass.ofSize b.size) = b.offset :: rest)
    (hDistinct : ((pre ++ b.take need ++ post).map Block.offset).Nodup) :
    free { blocks := pre ++ b.take need ++ post, stack := stackTake stack b need } b.offset =
      { blocks := pre ++ b :: post, stack := stack } := by
  -- freeing all of the block marks it and puts it back on top
  have hWhole : freed (stackErase stack b) pre { b with isFree := false } post =
      { blocks := pre ++ b :: post, stack := stack } := by
    have hMark : { b with isFree := true } = b := by rw [← hFree]
    rw [freed_alone hPre hPost]
    simp only [hMark, stackPush_erase hStack]
  rw [List.append_assoc] at hDistinct ⊢
  by_cases hLe : b.size ≤ need + headerSize
  · rw [Block.take_whole hLe] at hDistinct ⊢
    rw [stackTake, if_pos hLe]
    exact (free_eq hDistinct).trans hWhole
  · -- the rest is merged into it first
    have hCut : need + headerSize < b.size := by omega
    rw [Block.take_cut hCut] at hDistinct ⊢
    rw [stackTake, if_neg hLe]
    refine (free_eq hDistinct).trans (Eq.trans ?_ hWhole)
    show freed _ pre _ ((b.cut need).2 :: post) = _
    unfold freed
    rw [mergeNext_free rfl, stackErase_push, Block.join_cut hCut, mergeNext_used hPost]

end Tiling

/-- **In a tiling, freeing what was just allocated undoes the allocation.** -/
theorem Store.Represents.free_allocate (h : s.Represents r t)
    (hAllocate : t.allocate size = some (o, t')) : t'.free o = t := by
  -- the blocks of the tiling after the allocation are distinct
  rcases h.takeChunk size with ⟨hNone, -⟩ | ⟨o₁, t₁, s₁, hSome, -, hAfter, -⟩
  · exact absurd (hNone.symm.trans hAllocate) (by simp)
  obtain ⟨rfl, rfl⟩ := Prod.mk.inj (Option.some.inj (hSome.symm.trans hAllocate))
  obtain ⟨need, pre, b, post, rest, -, hBlocks, hFree, rfl, -, hStack, rfl⟩ := h.takes hAllocate
  have hTiling : t = { blocks := pre ++ b :: post, stack := t.stack } := by rw [← hBlocks]
  have hCoalesced := h.coalesced
  rw [hBlocks] at hCoalesced
  obtain ⟨-, -, hNeighbours⟩ := coalesced_append_cons.mp hCoalesced
  obtain ⟨hPre, hPost⟩ := hNeighbours hFree
  rw [hTiling]
  exact Tiling.free_take hFree hPre hPost hStack hAfter.holds.distinct

-- ---------------------------------------------------------------------------
-- Clients
-- ---------------------------------------------------------------------------

namespace Client

variable {request : Call} {m : Memory} {p : Nat}

/-- Freeing `p` leads from `c₁` to `c₂`, where everything is as it was for `c` but for one
allocation and one release more. -/
structure TakesBack (c : Client) (r : Region) (p : Nat) (c₁ c₂ : Client) : Prop where
  freed : c₁.perform (.free p) = .ok (.freed (.ok ()), c₂)
  resembles : c.store.Resembles r c₂.store
  live : c₂.live = c.live
  allocations : c₂.store.heap.counters.allocations = c.store.heap.counters.allocations + 1
  frees : c₂.store.heap.counters.frees = c.store.heap.counters.frees + 1
  failedAllocations :
    c₂.store.heap.counters.failedAllocations = c.store.heap.counters.failedAllocations

/-- **Taking an allocation back.** The client ends where it was, in step with the same tiling. -/
theorem Tracks.takes_back (h : c.Tracks r t)
    (hCall : c.perform request = .ok (.allocated (.ok p), c₁))
    (hWrites : ∀ x, ¬c₁.Owns x → m.byte x = c₁.store.memory.byte x) :
    ∃ c₂, c.TakesBack r p (c₁.write m) c₂ ∧ c₂.Tracks r t := by
  obtain ⟨-, hLive₁⟩ := live_of_granted hCall
  obtain ⟨size, o, t₁, -, hAllocate, rfl, hTracks₁, hConducted₁, hCounted₁⟩ := h.granted hCall
  -- the pointer is live, so it is freed, and that undoes the allocation
  have hLive : Protocol.correct.allows (c₁.write m) (.free (r.payload o)) := by
    show r.payload o ∈ c₁.live
    rw [hLive₁]
    exact List.mem_cons_self
  obtain ⟨c₂, hFree, hTracks₂, hConducted₂, hCounted₂⟩ :=
    (hTracks₁.write hWrites).perform_counted hLive trivial
  have hUndone : (t₁.serve r (.free (r.payload o))).2 = t := by
    show t₁.free (r.payload o - r.payload 0) = t
    rw [payload_sub]
    exact h.represents.free_allocate hAllocate
  rw [hUndone] at hTracks₂
  refine ⟨c₂, ⟨hFree, ?_, ?_, ?_, ?_, ?_⟩, hTracks₂⟩
  · exact h.represents.resembles hTracks₂.represents
      (hConducted₂.config_eq.trans hConducted₁.config_eq).symm
  · rw [live_of_freed hFree]
    show c₁.live.erase (r.payload o) = c.live
    rw [hLive₁, List.erase_cons_head]
  · exact hCounted₂.allocations.trans hCounted₁.allocations
  · exact hCounted₂.frees.trans (congrArg (· + 1) hCounted₁.frees)
  · exact hCounted₂.failedAllocations.trans hCounted₁.failedAllocations

end Client

/-- **Freeing what was just allocated undoes the allocation**, in every state that a correct
client can bring about and whatever it wrote into its payloads in between: the free succeeds,
chain, rings, bins and byte counters are what they were, one more allocation and one more release
are counted, and the same request is granted the same pointer again. -/
theorem correct_run_takes_back {start stop : Nat} {config : Config} {log : List Exchange}
    {request : Call} {p : Nat} {m : Memory}
    (hInit : s.init start stop config = .ok (.ok (), s'))
    (hRun : Client.Run .correct ⟨s', []⟩ log c)
    (hCall : c.perform request = .ok (.allocated (.ok p), c₁))
    (hWrites : ∀ x, ¬c₁.Owns x → m.byte x = c₁.store.memory.byte x) :
    ∃ r c₂, Region.ofBounds? start stop = .ok r ∧ c.TakesBack r p (c₁.write m) c₂ ∧
      (log.length + 2 < Word.limit →
        ∃ c₃, c₂.perform request = .ok (.allocated (.ok p), c₃)) := by
  obtain ⟨r, hBounds, hLaidOut⟩ := Store.laidOut_of_init hInit
  obtain ⟨hTracks, -, -, hAllocations, hFailed⟩ := Client.Run.tracks hLaidOut hRun
  obtain ⟨c₂, hTakesBack, hTracks₂⟩ := hTracks.takes_back hCall hWrites
  refine ⟨r, c₂, hBounds, hTakesBack, fun hCalls => ?_⟩
  -- the tiling is the one that granted `p` before
  obtain ⟨hAllowed, -⟩ := Client.live_of_granted hCall
  obtain ⟨_, hCall', -⟩ := hTracks.perform hAllowed (hTracks.hasRoom_of_perform hCall)
  obtain ⟨hAnswer, -⟩ := Prod.mk.inj (Except.ok.inj (hCall'.symm.trans hCall))
  have hCount := hTakesBack.allocations
  have hCountFailed := hTakesBack.failedAllocations
  obtain ⟨c₃, hAgain, -⟩ := hTracks₂.perform
    ((hTracks₂.allows_iff request).mpr ((hTracks.allows_iff request).mp hAllowed))
    (.of_counters (by omega) (by omega))
  rw [hAnswer] at hAgain
  exact ⟨c₃, hAgain⟩

/-- The last chunk is split, the payload is written to, and the two parts become one again. Two
free chunks of one class lie before it. -/
theorem correct_run_takes_back_split :
    ∃ s log c c₁ c₂, Store.init ⟨Heap.empty, Memory.blank⟩ 65536 66560 .hardened =
        .ok (.ok (), s) ∧
      Client.Run .correct ⟨s, []⟩ log c ∧
      requests log = [.allocate 24, .allocate 100, .allocate 24, .allocate 24, .free 65600,
        .free 65808] ∧
      c.perform (.allocateZeroed 300) = .ok (.allocated (.ok 65936), c₁) ∧
      c.TakesBack .kibibyte 65936 (c₁.write (c₁.store.memory.fill 65936 300 0xFF)) c₂ := by
  obtain ⟨s, hInit, hLaidOut⟩ := Store.init_kibibyte .hardened
  obtain ⟨log, c, hRun, hRequests⟩ := Client.Run.extend hLaidOut
    [.allocate 24, .allocate 100, .allocate 24, .allocate 24, .free 65600, .free 65808]
    (.start trivial) (by decide) (by decide)
  have hTracks := (Client.Run.tracks hLaidOut hRun).1
  have hLength : log.length + 1 < Word.limit := by
    rw [← List.length_map (·.request), show log.map (·.request) = _ from hRequests]
    decide
  have hAllowed : Protocol.correct.allows c (.allocateZeroed 300) := trivial
  obtain ⟨c₁, hCall⟩ := Client.Run.progress hLaidOut hRun hAllowed hLength
  rw [Tiling.replay, hRequests] at hCall
  obtain ⟨hGrants, -⟩ := hTracks.grants_allocateZeroed hCall
  obtain ⟨n, hRoom, hUsable⟩ := hGrants.room
  obtain ⟨r, c₂, hBounds, hTakesBack, -⟩ := correct_run_takes_back hInit hRun hCall
    (m := c₁.store.memory.fill 65936 300 0xFF) fun x hx => by
      rw [Memory.byte_fill, if_neg]
      rintro ⟨hLow, hHigh⟩
      refine hx ⟨65936, ?_, n, hUsable, hLow, by omega⟩
      rw [hGrants.live]
      exact List.mem_cons_self
  obtain rfl : Region.kibibyte = r := Except.ok.inj hBounds
  exact ⟨s, log, c, c₁, c₂, hInit, hRun, hRequests, hCall, hTakesBack⟩

end RegionHeap
