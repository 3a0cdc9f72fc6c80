import RegionHeap.Proofs.Reclaim
import RegionHeap.Proofs.Totals

/-!
# Heaps that are as good as new

A heap whose allocations are all freed is in the state in which it was set up, but for the numbers
of calls and for bytes that it does not look at. Nothing of its history is left that could show in
what it answers from then on.

* `Store.Resembles`: two stores agree on headers, rings, bins and byte counters.
* `Represents.resembles`: the tiling determines all of these.
* `Tiling.eq_initial`: there is one tiling in which nothing is used.
* `correct_run_renews`: a correct run after which nothing is live ends in a heap that cannot be
  told from a new one.
-/

namespace RegionHeap

variable {r : Region} {m m' : Memory} {blocks : List Block} {stack : SizeClass → List Nat}
variable {bins bins' : Bins} {s s' : Store} {t : Tiling} {c c' : Client}

-- ---------------------------------------------------------------------------
-- Stores with the same state
-- ---------------------------------------------------------------------------

/-- Both memories hold the same value in a field. -/
def Region.SameField (r : Region) (m m' : Memory) (offset : Nat) (f : Field) : Prop :=
  ∃ v, r.read m offset f = .ok v ∧ r.read m' offset f = .ok v

/-- Two stores that differ in the numbers of calls at most, and in bytes that belong to no header
and to no ring. -/
structure Store.Resembles (r : Region) (s s' : Store) : Prop where
  region : s.heap.region = some r ∧ s'.heap.region = some r
  config : s.heap.config = s'.heap.config
  bins : s.heap.bins = s'.heap.bins
  freeBytes : s.heap.counters.freeBytes = s'.heap.counters.freeBytes
  usedBytes : s.heap.counters.usedBytes = s'.heap.counters.usedBytes
  metaBytes : s.heap.counters.metaBytes = s'.heap.counters.metaBytes
  chain : ∃ chain, s.chunks = .ok chain ∧ s'.chunks = .ok chain ∧
    ∀ chunk ∈ chain, ∀ f : Field, f.reach = headerSize →
      r.SameField s.memory s'.memory chunk.offset f
  rings : ∀ k, ∃ ring, s.heap.bins.ring r s.memory k = .ok ring ∧
    s'.heap.bins.ring r s'.memory k = .ok ring ∧
    ∀ o ∈ ring, ∀ f : Field, f.reach = headerSize + minPayload →
      r.SameField s.memory s'.memory o f

/-- The blocks of a chain determine all of its headers. -/
theorem Region.Chained.sameField {o : Nat} {f : Field} (h : r.Chained m blocks)
    (h' : r.Chained m' blocks) (ho : o ∈ r.headers blocks) (hf : f.reach = headerSize) :
    r.SameField m m' o f := by
  have hLinks := h.circle.unique h'.circle ho
  have hTag : r.content m .tag o = r.content m' .tag o := by
    rcases mem_headers.mp ho with rfl | ⟨b, hb, rfl⟩ | rfl
    · rw [h.head_tag, h'.head_tag]
    · rw [h.tag b hb, h'.tag b hb]
    · rw [h.tail_tag, h'.tail_tag]
  have hContent : r.content m f o = r.content m' f o := by
    cases f with
    | previous => exact hLinks.2
    | next => exact hLinks.1
    | tag => exact hTag
    | canary => rw [h.canary o ho, h'.canary o ho]
    | ringPrevious | ringNext => exact absurd hf (by decide)
  exact ⟨_, h.read_header ho hf, by rw [h'.read_header ho hf, hContent]⟩

namespace Bins.Filed

/-- The stacks determine the ring links of their members. -/
theorem sameField {k : SizeClass} {o : Nat} {f : Field} (h : bins.Filed r m stack)
    (h' : bins'.Filed r m' stack) (hPlaced : r.Placed stack) (ho : o ∈ stack k)
    (hf : f.reach = headerSize + minPayload) : r.SameField m m' o f := by
  have hLinks := (h.circle k).unique (h'.circle k) ho
  have hRead : ∀ m, r.read m o f = .ok (r.content m f o) := fun m =>
    Region.read_eq_content (hPlaced.accessible ho hf)
  have hContent : r.content m f o = r.content m' f o := by
    cases f with
    | previous | next | tag | canary => exact absurd hf (by decide)
    | ringPrevious => exact hLinks.2
    | ringNext => exact hLinks.1
  exact ⟨_, hRead m, by rw [hRead m', hContent]⟩

/-- The stacks determine the bins. -/
theorem bins_eq (h : bins.Filed r m stack) (h' : bins'.Filed r m' stack) : bins = bins' := by
  obtain ⟨heads, occupied, count⟩ := bins
  obtain ⟨heads', occupied', count'⟩ := bins'
  have hHeads : heads = heads' := by
    refine Vector.ext fun k hk => ?_
    exact (h.head ⟨k, hk⟩).trans (h'.head ⟨k, hk⟩).symm
  have hOccupied : occupied = occupied' := by
    refine BitVec.eq_of_getLsbD_eq fun k hk => ?_
    exact (h.occupied ⟨k, hk⟩).trans (h'.occupied ⟨k, hk⟩).symm
  have hCount : count = count' := h.count.trans h'.count.symm
  rw [hHeads, hOccupied, hCount]

end Bins.Filed

/-- **The tiling is the state**: stores that represent the same one resemble each other. -/
theorem Store.Represents.resembles (h : s.Represents r t) (h' : s'.Represents r t)
    (hConfig : s.heap.config = s'.heap.config) : s.Resembles r s' where
  region := ⟨h.holds.region, h'.holds.region⟩
  config := hConfig
  bins := h.holds.filed.bins_eq h'.holds.filed
  freeBytes := h.holds.freeBytes.trans h'.holds.freeBytes.symm
  usedBytes := h.holds.usedBytes.trans h'.holds.usedBytes.symm
  metaBytes := h.holds.metaBytes.trans h'.holds.metaBytes.symm
  chain := ⟨_, h.chunks_eq, h'.chunks_eq, fun _ hChunk _ hf =>
    h.holds.chained.sameField h'.holds.chained (Tiling.offset_mem_headers hChunk) hf⟩
  rings k := ⟨_, h.ring_eq k, h'.ring_eq k, fun _ ho _ hf =>
    h.holds.filed.sameField h'.holds.filed h.holds.placed ho hf⟩

-- ---------------------------------------------------------------------------
-- Nothing is used
-- ---------------------------------------------------------------------------

/-- Stacks of the same blocks that hold one block at most are the same. -/
theorem Binned.stack_eq {stack' : SizeClass → List Nat} {k : SizeClass} {b : Block}
    (h : Binned [b] stack) (h' : Binned [b] stack') : stack k = stack' k := by
  have hPerm : (stack k).Perm (stack' k) :=
    (List.perm_ext_iff_of_nodup (h.nodup k) (h'.nodup k)).mpr fun o =>
      (h.mem_iff k o).trans (h'.mem_iff k o).symm
  have hLength : (stack' k).length ≤ 1 := by
    have hOne := List.length_filter_le (·.isFree) [b]
    rw [← h'.stacked_eq (by simp)] at hOne
    exact Nat.le_trans (length_le_stacked stack' k) hOne
  match hStack : stack' k with
  | [] =>
    rw [hStack] at hPerm
    exact List.perm_nil.mp hPerm
  | [o] =>
    rw [hStack] at hPerm
    exact List.perm_singleton.mp hPerm
  | _ :: _ :: _ =>
    rw [hStack, List.length_cons, List.length_cons] at hLength
    omega

/-- **There is one tiling in which nothing is used.** -/
theorem Tiling.eq_initial (hTiled : Tiled headerSize t.blocks r.tail)
    (hCoalesced : Coalesced t.blocks) (hBinned : Binned t.blocks t.stack) (hUnused : t.used = []) :
    t = Tiling.initial r.size := by
  have hBlocks := blocks_eq_whole hTiled hCoalesced hUnused
  rw [hBlocks] at hBinned
  have hEmpty : Binned ([] ++ []) fun _ => [] := ⟨fun _ => List.nodup_nil, fun k o => by simp⟩
  have hInitial : Binned ([] ++ Store.whole r :: []) (Tiling.initial r.size).stack :=
    hEmpty.push (by simp) rfl
  obtain ⟨blocks, stack⟩ := t
  obtain rfl : blocks = [Store.whole r] := hBlocks
  exact congrArg (Tiling.mk [Store.whole r]) (funext fun k => hBinned.stack_eq hInitial)

namespace Client

variable {start start' : Client} {log : List Exchange}

/-- A client that holds nothing tracks the initial tiling. -/
theorem Tracks.tracks_initial (h : c.Tracks r t) (hLive : c.live = []) :
    c.Tracks r (Tiling.initial r.size) := by
  have hUnused : t.used = [] := by
    have hPerm := h.live
    rw [hLive] at hPerm
    exact List.map_eq_nil_iff.mp hPerm.nil_eq.symm
  have hHolds := h.represents.holds
  rwa [Tiling.eq_initial hHolds.tiled h.represents.coalesced hHolds.binned hUnused] at h

-- ---------------------------------------------------------------------------
-- Runs that begin anew
-- ---------------------------------------------------------------------------

/-- A client goes on from `c` as it would from `fresh`: it can make the same calls, has the same
answers and ends in the same state. Only the numbers of calls go on from those of `c`. -/
structure GoesOnAs (r : Region) (c fresh : Client) : Prop where
  forth : ∀ {log c'}, Run .correct c log c' → ∃ c'', Run .correct fresh log c''
  back : ∀ {log c''}, Run .correct fresh log c'' →
    c.store.heap.counters.allocations + tally Answer.isGranted log < Word.limit →
    c.store.heap.counters.failedAllocations + tally Answer.isRefused log < Word.limit →
      ∃ c', Run .correct c log c'
  resembles : ∀ {log c' c''}, Run .correct c log c' → Run .correct fresh log c'' →
    c'.store.Resembles r c''.store
  counters : ∀ {log c' c''}, Run .correct c log c' → Run .correct fresh log c'' →
    c'.store.heap.counters.allocations =
      c.store.heap.counters.allocations + c''.store.heap.counters.allocations ∧
    c'.store.heap.counters.frees =
      c.store.heap.counters.frees + c''.store.heap.counters.frees ∧
    c'.store.heap.counters.failedAllocations =
      c.store.heap.counters.failedAllocations + c''.store.heap.counters.failedAllocations

/-- **Whatever tracks the initial tiling** goes on as a heap that was just set up. -/
theorem Tracks.goesOnAs {config : Config} (h : c.Tracks r (Tiling.initial r.size))
    (hFresh : Store.LaidOut r config s s') (hConfig : c.store.heap.config = config) :
    c.GoesOnAs r ⟨s', []⟩ := by
  have hFreshTracks := tracks_of_laidOut hFresh
  refine ⟨fun {log c'} hRun => ?_, fun {log c''} hRun hAllocations hFailed => ?_,
    fun hRun hRun' => ?_, fun {log c' c''} hRun hRun' => ?_⟩
  · refine hRun.transfer h hFreshTracks ?_ ?_
    · have hLt := (hRun.continues h).tracks.allocations_lt
      have hCount := (hRun.continues h).allocations
      show s'.heap.counters.allocations + _ < _
      rw [hFresh.allocations]
      omega
    · have hLt := hRun.refusals_lt h
      show s'.heap.counters.failedAllocations + _ < _
      rw [hFresh.failedAllocations]
      omega
  · exact hRun.transfer hFreshTracks h hAllocations hFailed
  · have hThere := hRun.continues h
    have hHere := hRun'.continues hFreshTracks
    exact hThere.tracks.represents.resembles hHere.tracks.represents
      ((hThere.config.trans hConfig).trans (hHere.config.trans hFresh.config).symm)
  · have hThere := hRun.continues h
    have hHere := hRun'.continues hFreshTracks
    rw [hThere.allocations, hThere.frees, hThere.failedAllocations, hHere.allocations, hHere.frees,
      hHere.failedAllocations, hFresh.allocations, hFresh.frees, hFresh.failedAllocations,
      Nat.zero_add, Nat.zero_add, Nat.zero_add]
    exact ⟨rfl, rfl, rfl⟩

end Client

/-- **A heap whose allocations are all freed is as good as new**: after a correct run that ends
with nothing live, the chain, the rings, the bins and the byte counters are those right after it
was set up, with one free chunk, and the heap goes on as any heap that is set up in the same
region with the same configuration. -/
theorem correct_run_renews {start stop : Nat} {config : Config} {log : List Exchange}
    (hInit : s.init start stop config = .ok (.ok (), s'))
    (hRun : Client.Run .correct ⟨s', []⟩ log c) (hLive : c.live = []) :
    ∃ r, Region.ofBounds? start stop = .ok r ∧ c.store.Resembles r s' ∧
      c.store.chunks = .ok r.unused ∧
      c.store.heap.counters.freeBytes = r.size - 3 * headerSize ∧
      ∀ {blank fresh : Store}, blank.init start stop config = .ok (.ok (), fresh) →
        c.store.Resembles r fresh ∧ c.GoesOnAs r ⟨fresh, []⟩ := by
  obtain ⟨r, hBounds, hLaidOut⟩ := Store.laidOut_of_init hInit
  have hContinues := hRun.continues (Client.tracks_of_laidOut hLaidOut)
  have hTracks := hContinues.tracks.tracks_initial hLive
  have hConfig : c.store.heap.config = config := hContinues.config.trans hLaidOut.config
  have hResembles : ∀ {blank fresh : Store}, Store.LaidOut r config blank fresh →
      c.store.Resembles r fresh := fun hFresh =>
    hTracks.represents.resembles hFresh.represents (hConfig.trans hFresh.config.symm)
  refine ⟨r, hBounds, hResembles hLaidOut, hTracks.represents.chunks_eq, ?_,
    fun {blank fresh} hInit' => ?_⟩
  · rw [hTracks.represents.holds.freeBytes]
    simp [Tiling.initial, Tiling.file, Tiling.modifyStack]
  · obtain ⟨_, hBounds', hFresh⟩ := Store.laidOut_of_init hInit'
    obtain rfl := Except.ok.inj (hBounds.symm.trans hBounds')
    exact ⟨hResembles hFresh, hTracks.goesOnAs hFresh hConfig⟩

/-- Three blocks are freed, the one between the others first. -/
theorem correct_run_renews_three_freed :
    ∃ s log c, Store.init ⟨Heap.empty, Memory.blank⟩ 65536 66560 .hardened = .ok (.ok (), s) ∧
      Client.Run .correct ⟨s, []⟩ log c ∧ requests log = [.allocate 24, .allocateZeroed 100,
        .allocate 40, .free 65664, .free 65600, .free 65808] ∧ c.live = [] ∧
      c.store.Resembles .kibibyte s ∧ c.store.heap.counters.freeBytes = 928 ∧
      c.GoesOnAs .kibibyte ⟨s, []⟩ := by
  obtain ⟨s, hInit, hLaidOut⟩ := Store.init_kibibyte .hardened
  obtain ⟨log, c, hRun, hRequests⟩ := Client.Run.extend hLaidOut [.allocate 24,
    .allocateZeroed 100, .allocate 40, .free 65664, .free 65600, .free 65808] (.start trivial)
    (by decide +kernel) (by decide)
  have hLive : c.live = [] := by
    have hPerm := (Client.Run.tracks hLaidOut hRun).1.live
    rw [Tiling.replay, hRequests] at hPerm
    exact List.Perm.eq_nil hPerm
  obtain ⟨r, hBounds, hResembles, -, hFreeBytes, hFresh⟩ := correct_run_renews hInit hRun hLive
  obtain rfl : Region.kibibyte = r := Except.ok.inj hBounds
  exact ⟨s, log, c, hInit, hRun, hRequests, hLive, hResembles, hFreeBytes, (hFresh hInit).2⟩

end RegionHeap
