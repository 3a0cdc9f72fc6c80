import RegionHeap.Proofs.Client
import RegionHeap.Proofs.Gaps
import RegionHeap.Proofs.Totals

/-!
# The order of frees does not matter

On the way, frees in two orders merge other chunks and file them elsewhere. In the end the same
chunks are used, no two neighbours are free, and so the free chunks are the gaps between the used
ones, whichever way they came about.

* `Store.freeAll`: frees one pointer after the other.
* `Tiling.used_free`: a free gives one block back and leaves the others as they are.
* `Represents.freeAll`: all frees of live pointers are accepted.
* `correct_run_frees_commute`: two orders end with the same chunks and the same totals.
-/

namespace RegionHeap

variable {r : Region} {b : Block} {s s' s₁ s₂ : Store} {t t' t₁ t₂ : Tiling} {c : Client}
variable {F F' : List Nat}

/-- Frees one pointer after the other, up to the first that is refused. -/
def Store.freeAll (s : Store) : List Nat → Checked (Outcome Unit)
  | [] => return (.ok (), s)
  | p :: rest => do
    match ← s.free p with
    | (.ok (), s') => s'.freeAll rest
    | (.error e, s') => return (.error e, s')

-- ---------------------------------------------------------------------------
-- One free
-- ---------------------------------------------------------------------------

/-- A free gives one block back and leaves the others as they are. -/
theorem Tiling.used_free (hDistinct : (t.blocks.map Block.offset).Nodup) (hb : b ∈ t.used) :
    (t.free b.offset).used = t.used.filter (·.offset ≠ b.offset) := by
  obtain ⟨-, hUsed⟩ := mem_used.mp hb
  obtain ⟨pre, post, hBlocks, hFreed⟩ := exists_free_eq_freed hDistinct hb
  rw [hBlocks] at hDistinct
  have hOthers : ∀ l : List Block, (∀ d ∈ l, d ∈ pre ++ post) →
      (l.filter (!·.isFree)).filter (·.offset ≠ b.offset) = l.filter (!·.isFree) := by
    intro l hl
    refine List.filter_eq_self.mpr fun d hd => ?_
    have hne := offset_ne_of_distinct hDistinct (hl d (List.mem_of_mem_filter hd))
    exact decide_eq_true hne
  rw [hFreed, used_freed, used, hBlocks, List.filter_append, List.filter_append,
    List.filter_append, List.filter_cons_of_pos (by simp [hUsed]),
    List.filter_cons_of_neg (by simp), hOthers pre fun d hd => List.mem_append_left _ hd,
    hOthers post fun d hd => List.mem_append_right _ hd]

-- ---------------------------------------------------------------------------
-- One free after the other
-- ---------------------------------------------------------------------------

namespace Store

/-- What freeing all pointers of a list leaves. -/
structure FreedAll (r : Region) (t t' : Tiling) (F : List Nat) (s s' : Store) : Prop where
  represents : s'.Represents r t'
  used : t'.used = t.used.filter fun b => r.payload b.offset ∉ F
  allocations : s'.heap.counters.allocations = s.heap.counters.allocations
  frees : s'.heap.counters.frees = s.heap.counters.frees + F.length
  failedAllocations : s'.heap.counters.failedAllocations = s.heap.counters.failedAllocations

/-- **Freeing all pointers of a list** succeeds if they are those of used blocks, each once. -/
theorem Represents.freeAll (F : List Nat) : ∀ {s : Store} {t : Tiling}, s.Represents r t →
    F.Nodup → (∀ p ∈ F, ∃ b ∈ t.used, r.payload b.offset = p) →
    s.heap.counters.frees + F.length < Word.limit →
      ∃ s' t', s.freeAll F = .ok (.ok (), s') ∧ FreedAll r t t' F s s' := by
  induction F with
  | nil =>
    intro s t h _ _ _
    exact ⟨s, t, rfl, h, by simp, rfl, rfl, rfl⟩
  | cons p rest ih =>
    intro s t h hNodup hUsed hFrees
    rw [List.length_cons] at hFrees
    obtain ⟨hFresh, hNodup'⟩ := List.nodup_cons.mp hNodup
    obtain ⟨b, hb, rfl⟩ := hUsed p List.mem_cons_self
    obtain ⟨s₁, hFree, -, hFreed⟩ := h.free hb (by omega)
    have hUsed₁ := Tiling.used_free h.holds.distinct hb
    -- the pointers that are left are those of other blocks
    have hLeft : ∀ q ∈ rest, ∃ d ∈ (t.free b.offset).used, r.payload d.offset = q := by
      intro q hq
      obtain ⟨d, hd, rfl⟩ := hUsed q (List.mem_cons_of_mem _ hq)
      have hne : d.offset ≠ b.offset := by
        intro hOffset
        rw [hOffset] at hq
        exact hFresh hq
      refine ⟨d, ?_, rfl⟩
      rw [hUsed₁]
      exact List.mem_filter.mpr ⟨hd, decide_eq_true hne⟩
    have hCount := hFreed.frees
    obtain ⟨s', t', hRest, hAll⟩ := ih hFreed.represents hNodup' hLeft (by omega)
    refine ⟨s', t', ?_, hAll.represents, ?_, hAll.allocations.trans hFreed.allocations, ?_,
      hAll.failedAllocations.trans hFreed.failedAllocations⟩
    · unfold Store.freeAll
      rw [hFree, ok_bind]
      exact hRest
    · rw [hAll.used, hUsed₁, List.filter_filter]
      refine List.filter_congr fun d _ => ?_
      have hSame : r.payload d.offset = r.payload b.offset ↔ d.offset = b.offset :=
        (Client.payload_injective r).eq_iff
      simp [hSame, Bool.and_comm]
    · rw [hAll.frees, hCount, List.length_cons]
      omega

/-- The chunks that are kept are those that were used and not freed, and the boundaries. -/
theorem FreedAll.filter_kept (h : FreedAll r t t' F s s') (hRep : s.Represents r t)
    (hUsed : ∀ p ∈ F, ∃ b ∈ t.used, r.payload b.offset = p) :
    (t'.chunks r).filter (!·.isFree) =
      (t.chunks r).filter fun a => decide (a.address ∉ F) && !a.isFree := by
  -- no boundary is freed
  let spared : ChunkInfo → Bool := fun a => decide (a.address ∉ F)
  have hBoundary : ∀ o, o = 0 ∨ o = r.tail → spared (r.boundary o) = true := by
    intro o ho
    refine decide_eq_true fun hMem => ?_
    obtain ⟨b, hb, hAddress⟩ := hUsed _ hMem
    have hOffset : b.offset = o := Client.payload_injective r hAddress
    have hBounds := hRep.holds.tiled.bounds (Tiling.mem_used.mp hb).1
    have := b.offset_lt_stop
    have := sizes_eq
    omega
  have hComp : spared ∘ Block.info r = fun b => decide (r.payload b.offset ∉ F) := rfl
  show _ = (t.chunks r).filter fun a => spared a && !a.isFree
  rw [← List.filter_filter, Tiling.filter_kept_chunks, Tiling.filter_kept_chunks, h.used,
    List.filter_cons_of_pos (hBoundary 0 (Or.inl rfl)), List.filter_append, List.filter_map, hComp,
    List.filter_cons_of_pos (hBoundary r.tail (Or.inr rfl)), List.filter_nil]

end Store

/-- **Freeing live pointers**, each once. -/
theorem Client.Tracks.freeAll (h : c.Tracks r t) (hNodup : F.Nodup) (hLive : ∀ p ∈ F, p ∈ c.live) :
    ∃ s' t', c.store.freeAll F = .ok (.ok (), s') ∧ Store.FreedAll r t t' F c.store s' := by
  have hLength : F.length ≤ c.live.length := (hNodup.subperm hLive).length_le
  have hCount := h.allocations
  have hLimit := h.allocations_lt
  exact Store.Represents.freeAll F h.represents hNodup (fun p hp => h.exists_used (hLive p hp))
    (by omega)

-- ---------------------------------------------------------------------------
-- Two orders
-- ---------------------------------------------------------------------------

/-- Two orders leave the same blocks. -/
theorem Store.FreedAll.blocks_eq (h₁ : Store.FreedAll r t t₁ F s s₁)
    (h₂ : Store.FreedAll r t t₂ F' s s₂) (hPerm : F.Perm F') : t₁.blocks = t₂.blocks := by
  refine Tiling.blocks_eq_of_used h₁.represents.holds.tiled h₁.represents.coalesced
    h₂.represents.holds.tiled h₂.represents.coalesced ?_
  rw [h₁.used, h₂.used]
  refine List.filter_congr fun b _ => ?_
  rw [decide_eq_decide, hPerm.mem_iff]

/-- Two orders leave the same totals. -/
theorem Store.FreedAll.stats_eq (h₁ : Store.FreedAll r t t₁ F s s₁)
    (h₂ : Store.FreedAll r t t₂ F' s s₂) (hPerm : F.Perm F') : s₁.stats = s₂.stats := by
  rw [h₁.represents.stats_eq, h₂.represents.stats_eq, h₁.allocations, h₂.allocations, h₁.frees,
    h₂.frees, h₁.failedAllocations, h₂.failedAllocations, hPerm.length_eq,
    Tiling.stats_congr (h₁.blocks_eq h₂ hPerm)]

/-- **Frees commute**, in every state that a correct client can bring about: two orders of freeing
the same live pointers succeed and end with the same chunks, the same byte counters and the same
totals. The chunks that are not free are those that were not free before, without the freed ones,
and the free chunks are exactly the gaps between them. -/
theorem correct_run_frees_commute {start stop : Nat} {config : Config} {log : List Exchange}
    (hInit : s.init start stop config = .ok (.ok (), s'))
    (hRun : Client.Run .correct ⟨s', []⟩ log c) (hNodup : F.Nodup) (hLive : ∀ p ∈ F, p ∈ c.live)
    (hPerm : F.Perm F') :
    ∃ before after stats s₁ s₂, c.store.chunks = .ok before ∧
      c.store.freeAll F = .ok (.ok (), s₁) ∧ c.store.freeAll F' = .ok (.ok (), s₂) ∧
      s₁.chunks = .ok after ∧ s₂.chunks = .ok after ∧
      s₁.stats = .ok stats ∧ s₂.stats = .ok stats ∧
      after.filter (!·.isFree) = before.filter (fun a => decide (a.address ∉ F) && !a.isFree) ∧
      ∀ x y, IsGap (after.filter (!·.isFree)) x y ↔
        ∃ a ∈ after, a.isFree = true ∧ a.offset = x ∧ a.stop = y := by
  obtain ⟨r, -, hLaidOut⟩ := Store.laidOut_of_init hInit
  obtain ⟨hTracks, -⟩ := Client.Run.tracks hLaidOut hRun
  obtain ⟨s₁, t₁, hFree₁, hAll₁⟩ := hTracks.freeAll hNodup hLive
  obtain ⟨s₂, t₂, hFree₂, hAll₂⟩ :=
    hTracks.freeAll (hPerm.nodup_iff.mp hNodup) fun p hp => hLive p (hPerm.mem_iff.mpr hp)
  have hStats₁ := hAll₁.represents.stats_eq
  have hStats₂ := (hAll₁.stats_eq hAll₂ hPerm).symm.trans hStats₁
  have hChunks₂ : s₂.chunks = .ok (t₁.chunks r) := by
    rw [hAll₂.represents.chunks_eq, Tiling.chunks, ← hAll₁.blocks_eq hAll₂ hPerm]
    rfl
  have hPaved := Tiling.paved hAll₁.represents.holds.tiled hAll₁.represents.coalesced
  exact ⟨_, _, _, s₁, s₂, hTracks.represents.chunks_eq, hFree₁, hFree₂,
    hAll₁.represents.chunks_eq, hChunks₂, hStats₁, hStats₂,
    hAll₁.filter_kept hTracks.represents fun p hp => hTracks.exists_used (hLive p hp),
    fun x y => hPaved.isGap_iff⟩

/-- Three neighbours are freed from the first one on, and with the one between the others last. What
is left is one free chunk in their place. -/
theorem correct_run_frees_commute_three :
    ∃ s log c after stats s₁ s₂, Store.init ⟨Heap.empty, Memory.blank⟩ 65536 66560 .hardened =
        .ok (.ok (), s) ∧
      Client.Run .correct ⟨s, []⟩ log c ∧
      requests log = [.allocate 24, .allocate 100, .allocate 40, .allocate 24] ∧
      c.store.freeAll [65600, 65664, 65808] = .ok (.ok (), s₁) ∧
      c.store.freeAll [65600, 65808, 65664] = .ok (.ok (), s₂) ∧
      s₁.chunks = .ok after ∧ s₂.chunks = .ok after ∧
      s₁.stats = .ok stats ∧ s₂.stats = .ok stats ∧
      ∃ a ∈ after, a.isFree = true ∧ a.offset = 32 ∧ a.stop = 320 := by
  obtain ⟨s, hInit, hLaidOut⟩ := Store.init_kibibyte .hardened
  obtain ⟨log, c, hRun, hRequests⟩ := Client.Run.extend hLaidOut
    [.allocate 24, .allocate 100, .allocate 40, .allocate 24] (.start trivial) (by decide)
    (by decide)
  have hTracks := (Client.Run.tracks hLaidOut hRun).1
  rw [Tiling.replay, hRequests] at hTracks
  have hLive : ∀ p ∈ [65600, 65664, 65808], p ∈ c.live := fun p hp =>
    hTracks.live.mem_iff.mpr
      ((by decide : ∀ p ∈ [65600, 65664, 65808], p ∈ [65600, 65664, 65808, 65888]) p hp)
  obtain ⟨before, after, stats, s₁, s₂, hBefore, hFree₁, hFree₂, hChunks₁, hChunks₂, hStats₁,
    hStats₂, hKept, hGaps⟩ :=
    correct_run_frees_commute hInit hRun (by decide) hLive
      (by decide : [65600, 65664, 65808].Perm [65600, 65808, 65664])
  obtain rfl := Except.ok.inj (hTracks.represents.chunks_eq.symm.trans hBefore)
  refine ⟨s, log, c, after, stats, s₁, s₂, hInit, hRun, hRequests, hFree₁, hFree₂, hChunks₁,
    hChunks₂, hStats₁, hStats₂, (hGaps 32 320).mp ?_⟩
  rw [hKept]
  exact ⟨by decide, by decide, by decide, by decide⟩

end RegionHeap
