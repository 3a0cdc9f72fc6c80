import RegionHeap.Proofs.Boot
import RegionHeap.Proofs.Snapshot

/-!
# A heap at the outset

Any pair of words is accepted as the bounds of a heap, or refused for one of three reasons, of
which the first that applies is given: the heap has a region already, the bounds are out of order
or the lower one cannot be rounded up, or too little is left between them once both are rounded.
A refusal changes nothing. A heap that accepts them is intact whatever memory and heap held before,
and no address in it is more than a word, even where its region ends with the address space.

* `Span.Ordered`: bounds that can be rounded.
* `Store.Founded`: what can be read off a heap that was just set up.
* `LaidOut.counters_eq`, `LaidOut.stats_eq`, `LaidOut.ring_eq`: its counters, totals and rings.
* `LaidOut.founded`: all of it.
* `init_decides`: which bounds are accepted, and what becomes of the heap.
-/

namespace RegionHeap

variable {span : Span} {r : Region} {config : Config} {s s' : Store}

-- ---------------------------------------------------------------------------
-- The one free chunk
-- ---------------------------------------------------------------------------

namespace Region

/-- The size of the chunk that fills a region. -/
def wholeSize (r : Region) : Nat := r.size - 3 * headerSize

/-- The chunks of a region in which nothing is used, as a walk sees them. -/
def wholeChain (r : Region) : List ChunkInfo :=
  [r.boundary 0,
    { offset := headerSize, address := r.payload headerSize, size := r.wholeSize,
      mark := some .free },
    r.boundary r.tail]

theorem wholeSize_add (r : Region) : r.wholeSize + 3 * headerSize = r.size := by
  have := r.minRegionSize_le
  have := sizes_eq
  unfold wholeSize
  omega

theorem minPayload_le_wholeSize (r : Region) : minPayload ≤ r.wholeSize := by
  have := r.wholeSize_add
  have := r.minRegionSize_le
  have := sizes_eq
  omega

/-- No payload begins behind the region, and so none is out of the address space. -/
theorem address_lt_of_mem_wholeChain {chunk : ChunkInfo} (h : chunk ∈ r.wholeChain) :
    chunk.address = r.base + chunk.offset + headerSize ∧ chunk.address < Word.limit := by
  have hTail := r.tail_add_headerSize
  have hWhole := r.wholeSize_add
  have hStop := r.stop_lt
  have hSizes := sizes_eq
  have hAddress : chunk.address = r.base + chunk.offset + headerSize ∧
      (chunk.offset = 0 ∨ chunk.offset = headerSize ∨ chunk.offset = r.tail) := by
    rcases List.mem_cons.mp h with rfl | h
    · exact ⟨rfl, Or.inl rfl⟩
    · rcases List.mem_cons.mp h with rfl | h
      · exact ⟨rfl, Or.inr (Or.inl rfl)⟩
      · obtain rfl := List.mem_singleton.mp h
        exact ⟨rfl, Or.inr (Or.inr rfl)⟩
  obtain ⟨hEq, hOffset⟩ := hAddress
  refine ⟨hEq, ?_⟩
  rcases hOffset with hOffset | hOffset | hOffset
  all_goals rw [hEq, hOffset]; omega

end Region

-- ---------------------------------------------------------------------------
-- A heap that was just set up
-- ---------------------------------------------------------------------------

/-- What can be read off a heap that was set up in a region. -/
structure Store.Founded (r : Region) (config : Config) (s s' : Store) : Prop where
  bounds : s'.heap.bounds = some (r.base, r.stop)
  stop_lt : r.stop < Word.limit
  config : s'.heap.config = config
  /-- Nothing was written outside the region. -/
  outside : ∀ x, x < r.base ∨ r.stop ≤ x → s'.memory.byte x = s.memory.byte x
  /-- Two boundaries, and one free chunk between them. -/
  chunks : s'.chunks = .ok r.wholeChain
  addresses : ∀ chunk ∈ r.wholeChain,
    chunk.address = r.base + chunk.offset + headerSize ∧ chunk.address < Word.limit
  minPayload_le : minPayload ≤ r.wholeSize
  /-- The chunk is filed in its class, and no other class has any. -/
  ring : ∀ k : SizeClass, s'.heap.bins.ring r s'.memory k =
    .ok (if k.val = r.wholeSize.log2 then [headerSize] else [])
  /-- Chain, rings, occupancy bits and counters agree. -/
  intact : s'.Intact r r.wholeChain
  counters : s'.heap.counters =
    { Counters.zero with freeBytes := r.wholeSize, metaBytes := headerSize }
  sum : r.wholeSize + headerSize + 2 * headerSize = r.size
  stats : s'.stats = .ok
    { regionSize := r.size, freeBytes := r.wholeSize, usedBytes := 0, metaBytes := headerSize,
      sentinelBytes := 2 * headerSize, allocations := 0, frees := 0, failedAllocations := 0,
      freeChunks := 1, largestFree := r.wholeSize }

namespace Store.LaidOut

theorem counters_eq (h : LaidOut r config s s') : s'.heap.counters =
    { Counters.zero with freeBytes := r.wholeSize, metaBytes := headerSize } := by
  have hFree := h.represents.holds.freeBytes
  have hUsed := h.represents.holds.usedBytes
  have hMeta := h.represents.holds.metaBytes
  have hAllocations := h.allocations
  have hFrees := h.frees
  have hFailed := h.failedAllocations
  generalize s'.heap.counters = counters at *
  obtain ⟨freeBytes, usedBytes, metaBytes, allocations, frees, failedAllocations⟩ := counters
  simp only at hFree hUsed hMeta hAllocations hFrees hFailed
  rw [hFree, hUsed, hMeta, hAllocations, hFrees, hFailed]
  rfl

theorem stats_eq (h : LaidOut r config s s') : s'.stats = .ok
    { regionSize := r.size, freeBytes := r.wholeSize, usedBytes := 0, metaBytes := headerSize,
      sentinelBytes := 2 * headerSize, allocations := 0, frees := 0, failedAllocations := 0,
      freeChunks := 1, largestFree := r.wholeSize } := by
  have hLargest : (Tiling.initial r.size).largestFree = r.wholeSize := Nat.zero_max _
  rw [h.represents.stats_eq, h.allocations, h.frees, h.failedAllocations]
  unfold Tiling.stats
  rw [hLargest]
  rfl

theorem ring_eq (h : LaidOut r config s s') (k : SizeClass) :
    s'.heap.bins.ring r s'.memory k =
      .ok (if k.val = r.wholeSize.log2 then [headerSize] else []) := by
  have hWhole := r.wholeSize_add
  have hLimit := r.size_lt_limit
  have hClass : (SizeClass.ofSize r.wholeSize).val = r.wholeSize.log2 :=
    SizeClass.val_ofSize (by omega)
  rw [h.represents.ring_eq k]
  show Except.ok (if k = SizeClass.ofSize r.wholeSize then [headerSize] else []) = _
  by_cases hk : k.val = r.wholeSize.log2
  · rw [if_pos hk, if_pos (Fin.ext (hk.trans hClass.symm))]
  · rw [if_neg hk, if_neg fun hSame => hk (by rw [hSame, hClass])]

/-- **A heap that was just set up** is intact, with one free chunk in it. -/
theorem founded (h : LaidOut r config s s') : Founded r config s s' where
  bounds := by
    unfold Heap.bounds
    rw [h.represents.holds.region]
    rfl
  stop_lt := r.stop_lt
  config := h.config
  outside x hx := h.edits.byte_outside hx
  chunks := h.represents.chunks_eq
  addresses _ hChunk := r.address_lt_of_mem_wholeChain hChunk
  minPayload_le := r.minPayload_le_wholeSize
  ring := h.ring_eq
  intact := h.represents.intact
  counters := h.counters_eq
  sum := by
    have := r.wholeSize_add
    omega
  stats := h.stats_eq

end Store.LaidOut

-- ---------------------------------------------------------------------------
-- Setting a heap up
-- ---------------------------------------------------------------------------

/-- Bounds are ordered unless they are reversed or their start is one of the last fifteen words. -/
theorem Span.not_ordered_iff : ¬span.Ordered ↔
    span.stop < span.start ∨ Word.limit - Word.alignment < span.start := by
  unfold Span.Ordered Word.limit Word.alignment
  omega

/-- **Which bounds a heap accepts.** Whatever the heap, its memory, the bounds and the
configuration are, setting it up comes to an end. It is refused exactly for the reason given, and
then nothing changes; or the heap gets the largest aligned region inside the bounds. -/
theorem init_decides (hStop : span.stop < Word.limit) (s : Store) (config : Config) :
    ∃ answer s', s.init span.start span.stop config = .ok (answer, s') ∧
      (answer = .error .alreadyInitialized ↔ s.heap.isInitialized = true) ∧
      (answer = .error (.invalidRegion span.start span.stop) ↔ s.heap.isInitialized = false ∧
        (span.stop < span.start ∨ Word.limit - Word.alignment < span.start)) ∧
      (answer = .error (.regionTooSmall span.room 112) ↔ s.heap.isInitialized = false ∧
        ¬(span.stop < span.start ∨ Word.limit - Word.alignment < span.start) ∧ span.room < 112) ∧
      (answer = .ok () ↔ s.heap.isInitialized = false ∧
        ¬(span.stop < span.start ∨ Word.limit - Word.alignment < span.start) ∧ 112 ≤ span.room) ∧
      (answer ≠ .ok () → s' = s) ∧
      (answer = .ok () → ∃ r, Word.alignUp? span.start = some r.base ∧
        r.stop = Word.alignDown span.stop ∧ span.start ≤ r.base ∧ r.stop ≤ span.stop ∧
        Store.Founded r config s s') := by
  have hMin : minRegionSize = 112 := rfl
  have hInitialized : s.heap.isInitialized = s.heap.region.isSome := rfl
  rw [← Span.not_ordered_iff]
  cases hRegion : s.heap.region with
  | some r =>
    rw [hRegion, Option.isSome_some] at hInitialized
    refine ⟨_, _, Store.init_initialized _ _ config hRegion, ?_⟩
    simp [hInitialized]
  | none =>
    rw [hRegion, Option.isSome_none] at hInitialized
    by_cases hOrdered : span.Ordered
    · obtain ⟨hFits, hTooSmall⟩ := Span.ofBounds?_ordered hOrdered hStop
      rw [hMin] at hFits hTooSmall
      rcases Nat.lt_or_ge span.room 112 with hRoom | hRoom
      · refine ⟨_, _, Store.init_refused config hRegion (hTooSmall hRoom), ?_⟩
        simp [hInitialized, hOrdered, hRoom]
      · obtain ⟨r, hBounds⟩ := hFits hRoom
        obtain ⟨s', hInit, hLaidOut⟩ := Store.init_spec config hRegion hBounds
        obtain ⟨hUp, hDown⟩ := Region.rounded_of_ofBounds? hBounds
        obtain ⟨hLow, hHigh⟩ := Region.ofBounds?_inside hBounds
        have hEnough : ¬span.room < 112 := Nat.not_lt.mpr hRoom
        exact ⟨_, _, hInit, by simp [hInitialized], by simp [hOrdered], by simp [hEnough],
          by simp [hInitialized, hOrdered, hRoom], fun hRefused => absurd rfl hRefused,
          fun _ => ⟨r, hUp, hDown, hLow, hHigh, hLaidOut.founded⟩⟩
    · refine ⟨_, _, Store.init_refused config hRegion (Span.ofBounds?_invalid hOrdered), ?_⟩
      simp [hInitialized, hOrdered]

/-- A heap in the last thousand bytes of the address space, of which both ends are rounded. -/
theorem init_decides_last_bytes :
    ∃ s', Store.init ⟨Heap.empty, Memory.blank⟩ 0xFFFFFFFFFFFFFC18 0xFFFFFFFFFFFFFFFF .hardened =
        .ok (.ok (), s') ∧
      s'.heap.bounds = some (0xFFFFFFFFFFFFFC20, 0xFFFFFFFFFFFFFFF0) ∧
      s'.heap.counters = { Counters.zero with freeBytes := 880, metaBytes := 32 } ∧
      s'.chunks = .ok [⟨0, 0xFFFFFFFFFFFFFC40, 0, some .sentinel⟩,
        ⟨32, 0xFFFFFFFFFFFFFC60, 880, some .free⟩,
        ⟨944, 0xFFFFFFFFFFFFFFF0, 0, some .sentinel⟩] := by
  let span : Span := ⟨0xFFFFFFFFFFFFFC18, 0xFFFFFFFFFFFFFFFF⟩
  have hStop : span.stop < Word.limit := by decide
  obtain ⟨answer, s', hInit, -, -, -, hAccepted, -, hFounded⟩ :=
    init_decides hStop ⟨Heap.empty, Memory.blank⟩ .hardened
  obtain rfl := hAccepted.mpr ⟨rfl, by decide, by decide⟩
  obtain ⟨r, hUp, hDown, -, -, hFounded⟩ := hFounded rfl
  have hRounded : Word.alignUp? span.start = some 0xFFFFFFFFFFFFFC20 ∧
      Word.alignDown span.stop = 0xFFFFFFFFFFFFFFF0 := by
    decide
  have hBase : r.base = 0xFFFFFFFFFFFFFC20 := Option.some.inj (hUp.symm.trans hRounded.1)
  have hLimit : r.stop = 0xFFFFFFFFFFFFFFF0 := hDown.trans hRounded.2
  have hSize : r.size = 976 := by
    unfold Region.stop at hLimit
    omega
  refine ⟨s', hInit, ?_, ?_, ?_⟩
  · rw [hFounded.bounds, hLimit, hBase]
  · rw [hFounded.counters]
    unfold Region.wholeSize
    rw [hSize]
    rfl
  · rw [hFounded.chunks]
    unfold Region.wholeChain Region.boundary Region.payload Region.wholeSize Region.tail
    rw [hSize, hBase]
    rfl

end RegionHeap
