import RegionHeap.Proofs.Represents
import RegionHeap.Proofs.Validation

/-!
# One call

What each call does to a store that represents a tiling: the answer is the one that the
tiling gives, the store represents what the tiling becomes, and what was written is
discreet.

* `Represents.allocate`, `Represents.allocateZeroed`: with the effects `Allocated`, or
  `Refused` if there is no block.
* `Represents.free`: with the effects `Freed`. Pointers of used blocks are accepted whether
  they are validated or trusted.
* `Represents.usableSize`: the size of a used block.
-/

namespace RegionHeap

variable {r : Region} {b : Block} {o size need : Nat} {k : SizeClass}
variable {s s' : Store} {t t' : Tiling}

namespace Store

-- ---------------------------------------------------------------------------
-- Allocation
-- ---------------------------------------------------------------------------

/-- What an allocation of `size` bytes that was served with the block at `o` leaves. -/
structure Allocated (r : Region) (t t' : Tiling) (o size : Nat) (s s' : Store) : Prop where
  represents : s'.Represents r t'
  used : ∃ c : Block, c.offset = o ∧ size ≤ c.size ∧ t'.used.Perm (c :: t.used)
  edits : ∃ m, r.Edits (Region.Discreet t.used [o]) s.memory m ∧
    ∀ x, x < r.payload o ∨ r.payload o + size ≤ x → s'.memory.byte x = m.byte x
  config : s'.heap.config = s.heap.config
  allocations : s'.heap.counters.allocations = s.heap.counters.allocations + 1
  frees : s'.heap.counters.frees = s.heap.counters.frees
  failedAllocations : s'.heap.counters.failedAllocations = s.heap.counters.failedAllocations

/-- What an allocation for which there is no block leaves. -/
structure Refused (r : Region) (t : Tiling) (s s' : Store) : Prop where
  represents : s'.Represents r t
  memory : s'.memory = s.memory
  config : s'.heap.config = s.heap.config
  allocations : s'.heap.counters.allocations = s.heap.counters.allocations
  frees : s'.heap.counters.frees = s.heap.counters.frees
  failedAllocations : s'.heap.counters.failedAllocations = s.heap.counters.failedAllocations + 1

/-- There is room in the counter that an allocation counts itself in. -/
def HasRoom (s : Store) (t : Tiling) (size : Nat) : Prop :=
  (t.allocate size ≠ none → s.heap.counters.allocations + 1 < Word.limit) ∧
    (t.allocate size = none → s.heap.counters.failedAllocations + 1 < Word.limit)

/-- The new payload can be written to. -/
theorem Allocated.of_payload (h : Allocated r t t' o size s s') {m : Memory}
    (hm : ∀ x, x < r.payload o ∨ r.payload o + size ≤ x → m.byte x = s'.memory.byte x) :
    Allocated r t t' o size s { s' with memory := m } := by
  obtain ⟨c, rfl, hSize, hPerm⟩ := h.used
  obtain ⟨m', hEdits, hSame⟩ := h.edits
  have hc : c ∈ t'.used := hPerm.mem_iff.mpr List.mem_cons_self
  refine ⟨h.represents.of_payloads fun x hx => ?_, h.used,
    ⟨m', hEdits, fun x hx => (hm x hx).trans (hSame x hx)⟩, h.config, h.allocations, h.frees,
    h.failedAllocations⟩
  have := hx c hc
  exact hm x (by omega)

/-- The new payload can be filled. -/
theorem Allocated.fill (h : Allocated r t t' o size s s') (byte : UInt8) :
    Allocated r t t' o size s
      { s' with memory := s'.memory.fill (r.payload o) size byte } :=
  h.of_payload fun _ hx => Memory.byte_fill_of_outside hx

namespace Represents

/-- Heap and tiling look for a block in the same class. -/
theorem servingClass?_eq (h : s.Represents r t) (size : Nat) :
    s.servingClass? size =
      (payloadNeed? size).bind fun need => (t.servingClass? need).map fun k => (need, k) := by
  unfold Store.servingClass?
  refine Option.bind_congr fun need _ => ?_
  have hFirst : ((SizeClass.admitting? need).bind fun k => s.heap.bins.firstOccupied? k) =
      t.servingClass? need := by
    unfold Tiling.servingClass?
    cases hAdmitting : SizeClass.admitting? need with
    | none =>
      have hNone := SizeClass.admitting?_eq_none_iff.mp hAdmitting
      refine (List.find?_eq_none.mpr fun k _ => ?_).symm
      simp [hNone k]
    | some start =>
      have hIff := SizeClass.admitting?_eq_some_iff.mp hAdmitting
      show s.heap.bins.firstOccupied? start = _
      rw [h.holds.filed.firstOccupied?_eq]
      congr 1
      funext k
      rw [decide_eq_decide.mpr (hIff k)]
  rw [← hFirst]
  cases SizeClass.admitting? need with
  | none => rfl
  | some start =>
    show (s.heap.bins.firstOccupied? start).bind (fun k => some (need, k)) =
      (s.heap.bins.firstOccupied? start).map fun k => (need, k)
    exact Option.map_eq_bind.symm

/-- **The block that an allocation takes** is free, on top of its stack and large enough; what is
needed of it becomes used. -/
theorem takes (h : s.Represents r t) (hAllocate : t.allocate size = some (o, t')) :
    ∃ need pre b post rest, payloadNeed? size = some need ∧ t.blocks = pre ++ b :: post ∧
      b.isFree = true ∧ b.offset = o ∧ need ≤ b.size ∧
      t.stack (SizeClass.ofSize b.size) = o :: rest ∧
      t' = { blocks := pre ++ b.take need ++ post, stack := stackTake t.stack b need } := by
  obtain ⟨need, k, rest, hNeed, hClass, hStack, rfl⟩ := Tiling.allocate_inv hAllocate
  obtain ⟨hCovers, -, -⟩ := Tiling.servingClass?_spec hClass
  obtain ⟨b, hb, hFree, rfl, rfl⟩ := h.holds.exists_free (k := k) (o := o) (by simp [hStack])
  obtain ⟨pre, post, hBlocks⟩ := List.append_of_mem hb
  have hSize : need ≤ b.size := by
    have hMin := (h.holds.tiled.payload hb).1
    have hPower := SizeClass.two_pow_le_of_ofSize_eq (n := b.size)
      (by have := sizes_eq; omega) rfl
    omega
  exact ⟨need, pre, b, post, rest, hNeed, hBlocks, hFree, rfl, hSize, hStack,
    Tiling.use_eq h.holds.distinct hBlocks need⟩

/-- **Taking a chunk** does what allocating in the tiling does. -/
theorem takeChunk (h : s.Represents r t) (size : Nat) :
    (t.allocate size = none ∧ s.takeChunk r size = .ok (none, s)) ∨
    ∃ o t' s', t.allocate size = some (o, t') ∧ s.takeChunk r size = .ok (some o, s') ∧
      s'.Represents r t' ∧
      (∃ c : Block, c.offset = o ∧ size ≤ c.size ∧ t'.used.Perm (c :: t.used)) ∧
      Tidy r t.used [o] s s' := by
  unfold Store.takeChunk
  rw [h.servingClass?_eq]
  cases hNeed : payloadNeed? size with
  | none => exact Or.inl ⟨by simp [Tiling.allocate, hNeed], rfl⟩
  | some need =>
    cases hClass : t.servingClass? need with
    | none =>
      refine Or.inl ⟨by simp [Tiling.allocate, hNeed, hClass], ?_⟩
      simp only [Option.bind_some, hClass, Option.map_none]
      rfl
    | some k =>
      obtain ⟨hSize, hMin, hMod⟩ := payloadNeed?_spec hNeed
      -- the class that was found has a block on top, which covers the request
      obtain ⟨hCovers, hSome, -⟩ := Tiling.servingClass?_spec hClass
      obtain ⟨o, rest, hStack⟩ := List.exists_cons_of_ne_nil hSome
      obtain ⟨pre, b, post, s', hBlocks, rfl, hFree, hLe, hTake, hHolds, hTidy⟩ :=
        h.holds.takeFrom hStack hMin hMod hCovers
      have hUse := Tiling.use_eq h.holds.distinct hBlocks need
      obtain ⟨c, hOffset, -, hNeedLe, hPerm⟩ := Tiling.used_take hBlocks hFree hLe
      refine Or.inr ⟨b.offset, t.use b.offset need, s', ?_, ?_, ⟨?_, ?_⟩,
        ⟨c, hOffset, by omega, ?_⟩, hTidy⟩
      · simp [Tiling.allocate, hNeed, hClass, hStack]
      · simpa only [Option.bind_some, hClass, Option.map_some] using hTake
      · rw [hUse]
        exact hHolds
      · rw [hUse]
        have hCoalesced := h.coalesced
        rw [hBlocks] at hCoalesced
        exact hCoalesced.take hFree
      · rw [hUse]
        exact hPerm

/-- **Allocating.** -/
theorem allocate (h : s.Represents r t) (hRoom : s.HasRoom t size) :
    (t.allocate size = none ∧
      ∃ s', s.allocate size = .ok (.error (.outOfMemory size), s') ∧ Refused r t s s') ∨
    ∃ o t' s', t.allocate size = some (o, t') ∧
      s.allocate size = .ok (.ok (r.payload o), s') ∧ Allocated r t t' o size s s' ∧
      ∀ byte, s.heap.config.fillByte = some byte →
        ∀ x, r.payload o ≤ x → x < r.payload o + size → s'.memory.byte x = byte := by
  unfold Store.allocate
  simp only [h.holds.region]
  rcases h.takeChunk size with ⟨hTiling, hTake⟩ | ⟨o, t', s₁, hTiling, hTake, hRep, hUsed, hTidy⟩
  · left
    rw [hTake, ok_bind]
    simp only
    rw [Word.add_eq_ok_iff.mpr ⟨rfl, hRoom.2 hTiling⟩, ok_bind]
    refine ⟨hTiling, _, rfl, ⟨h.holds.of_counters _ _ _, h.coalesced⟩, rfl, rfl, rfl, rfl, rfl⟩
  · right
    rw [hTake, ok_bind]
    simp only
    have hCount : s₁.heap.counters.allocations + 1 < Word.limit := by
      rw [hTidy.allocations]
      exact hRoom.1 (by simp [hTiling])
    rw [Word.add_eq_ok_iff.mpr ⟨rfl, hCount⟩, ok_bind]
    -- counting the call leaves what the store represents as it is
    have hCounted : ∀ failed frees, Store.Represents { s₁ with heap := { s₁.heap with counters :=
        { s₁.heap.counters with
          allocations := s₁.heap.counters.allocations + 1
          frees := frees
          failedAllocations := failed } } } r t' :=
      fun _ _ => ⟨hRep.holds.of_counters _ _ _, hRep.coalesced⟩
    have hAllocated : Allocated r t t' o size s { s₁ with heap := { s₁.heap with counters :=
        { s₁.heap.counters with allocations := s₁.heap.counters.allocations + 1 } } } :=
      ⟨hCounted _ _, hUsed, ⟨s₁.memory, hTidy.edits, fun _ _ => rfl⟩, hTidy.config,
        by rw [← hTidy.allocations], hTidy.frees, hTidy.failedAllocations⟩
    refine ⟨o, t', _, hTiling, rfl, ?_⟩
    rw [← hTidy.config]
    cases s₁.heap.config.fillByte with
    | none => exact ⟨hAllocated, fun byte hByte => absurd hByte (by simp)⟩
    | some byte =>
      refine ⟨hAllocated.fill byte, fun byte' hByte x hLow hHigh => ?_⟩
      obtain rfl := Option.some.inj hByte
      exact (Memory.byte_fill _ _ _ _ _).trans (if_pos ⟨hLow, hHigh⟩)

/-- An allocation that returned had room in its counter. -/
theorem hasRoom_of_allocate {outcome : Outcome Nat} (h : s.Represents r t)
    (hCall : s.allocate size = .ok outcome) : s.HasRoom t size := by
  unfold Store.allocate at hCall
  simp only [h.holds.region] at hCall
  rcases h.takeChunk size with ⟨hTiling, hTake⟩ | ⟨o, t', s₁, hTiling, hTake, -, -, hTidy⟩
  · rw [hTake, ok_bind] at hCall
    obtain ⟨failed, hAdd, -⟩ := bind_eq_ok_iff.mp hCall
    obtain ⟨rfl, hLt⟩ := Word.add_eq_ok_iff.mp hAdd
    exact ⟨fun hSome => absurd hTiling hSome, fun _ => hLt⟩
  · rw [hTake, ok_bind] at hCall
    obtain ⟨allocations, hAdd, -⟩ := bind_eq_ok_iff.mp hCall
    obtain ⟨rfl, hLt⟩ := Word.add_eq_ok_iff.mp hAdd
    rw [hTidy.allocations] at hLt
    exact ⟨fun _ => hLt, fun hNone => absurd hNone (by simp [hTiling])⟩

/-- **Allocating zeroed memory**, whatever the configuration fills fresh payloads with. -/
theorem allocateZeroed (h : s.Represents r t) (hRoom : s.HasRoom t size) :
    (t.allocate size = none ∧
      ∃ s', s.allocateZeroed size = .ok (.error (.outOfMemory size), s') ∧ Refused r t s s') ∨
    ∃ o t' s', t.allocate size = some (o, t') ∧
      s.allocateZeroed size = .ok (.ok (r.payload o), s') ∧ Allocated r t t' o size s s' ∧
      ∀ x, r.payload o ≤ x → x < r.payload o + size → s'.memory.byte x = 0 := by
  unfold Store.allocateZeroed
  rcases h.allocate hRoom with
    ⟨hTiling, s', hCall, hRefused⟩ | ⟨o, t', s', hTiling, hCall, hAllocated, -⟩
  · rw [hCall, ok_bind]
    exact Or.inl ⟨hTiling, s', rfl, hRefused⟩
  · rw [hCall, ok_bind]
    refine Or.inr ⟨o, t', _, hTiling, rfl, hAllocated.fill 0, fun x hLow hHigh => ?_⟩
    exact (Memory.byte_fill _ _ _ _ _).trans (if_pos ⟨hLow, hHigh⟩)

end Represents

-- ---------------------------------------------------------------------------
-- Pointers of used blocks
-- ---------------------------------------------------------------------------

namespace Represents

/-- The header of a used block passes every check. -/
theorem passes (h : s.Represents r t) (hb : b ∈ t.used) : r.PassesAsUsed s.memory b.offset := by
  obtain ⟨hMem, hUsed⟩ := Tiling.mem_used.mp hb
  have hChained := h.holds.chained
  have hHeader := Region.offset_mem_headers (r := r) hMem
  have hPrevious := hChained.circle.next_previous hHeader
  have hNext := hChained.circle.previous_next hHeader
  have hBounds := h.holds.tiled.bounds hMem
  have hStop := b.offset_lt_stop
  have hAfter := hChained.next_eq hMem
  have := sizes_eq
  exact {
    aligned := h.holds.tiled.aligned rfl hMem
    inside := by omega
    canary := hChained.canary _ hHeader
    tag := by
      rw [hChained.tag b hMem]
      unfold Block.mark
      rw [hUsed]
      rfl
    previous_aligned := Region.header_aligned h.holds.tiled hPrevious.1
    next_aligned := Region.header_aligned h.holds.tiled hNext.1
    previous_lt := hChained.previous_lt hMem
    lt_next := by rw [hAfter]; exact hStop
    next_le := by rw [hAfter]; exact hBounds.2
    next_previous := hPrevious.2
    previous_next := hNext.2 }

/-- **Validation** accepts the pointers of used blocks. -/
theorem validate_eq (h : s.Represents r t) (hb : b ∈ t.used) :
    validate r s.memory (r.payload b.offset) = .ok (.ok b.offset) :=
  validate_of_passes (h.passes hb)

theorem payload_aligned (h : s.Represents r t) (hb : b ∈ t.used) :
    r.payload b.offset % Word.alignment = 0 :=
  (r.payload_mod_alignment b.offset).trans
    (h.holds.tiled.aligned rfl (Tiling.mem_used.mp hb).1)

theorem trust_payload (r : Region) (o : Nat) : trust r (r.payload o) = .ok o := by
  unfold trust Region.payload
  rw [Word.sub_eq_ok_iff.mpr ⟨by omega, rfl⟩, ok_bind, Word.sub_eq_ok_iff]
  omega

/-- The usable size of a used block is its size. -/
theorem usableSize (h : s.Represents r t) (hb : b ∈ t.used) :
    s.usableSize (r.payload b.offset) = .ok (.ok b.size) := by
  unfold Store.usableSize
  simp only [h.holds.region]
  rw [h.validate_eq hb, ok_bind]
  simp only
  rw [h.holds.chained.chunkSize_eq (Tiling.mem_used.mp hb).1, ok_bind]
  rfl

end Represents

-- ---------------------------------------------------------------------------
-- Freeing
-- ---------------------------------------------------------------------------

/-- What freeing the used block at `o` leaves. -/
structure Freed (r : Region) (t : Tiling) (o : Nat) (s s' : Store) : Prop where
  represents : s'.Represents r (t.free o)
  edits : r.Edits (Region.Discreet (t.free o).used []) s.memory s'.memory
  tag : r.content s'.memory .tag o ≠ Mark.used.tag
  config : s'.heap.config = s.heap.config
  allocations : s'.heap.counters.allocations = s.heap.counters.allocations
  frees : s'.heap.counters.frees = s.heap.counters.frees + 1
  failedAllocations : s'.heap.counters.failedAllocations = s.heap.counters.failedAllocations

/-- A pointer to a header that passes is resolved to it, whether pointers are validated or
trusted. -/
theorem resolve_of_passes (h : r.PassesAsUsed s.memory o) :
    s.resolve r (r.payload o) = .ok (.ok o) := by
  unfold resolve
  split
  · exact validate_of_passes h
  · rw [Represents.trust_payload, ok_bind]
    rfl

/-- The steps of freeing a pointer that is accepted. -/
theorem free_of_release {p : Nat} (hRegion : s.heap.region = some r)
    (hResolve : s.resolve r p = .ok (.ok o)) (hRelease : s.release r o = .ok s') :
    s.free p = .ok (.ok (), s') := by
  unfold Store.free
  simp only [hRegion]
  rw [hResolve, ok_bind]
  simp only
  rw [hRelease, ok_bind]
  rfl

/-- **Freeing** a used block does what it does in the tiling. -/
theorem Represents.free (h : s.Represents r t) (hb : b ∈ t.used)
    (hFrees : s.heap.counters.frees + 1 < Word.limit) :
    ∃ s', s.free (r.payload b.offset) = .ok (.ok (), s') ∧
      t.used.Perm (b :: (t.free b.offset).used) ∧ Freed r t b.offset s s' := by
  obtain ⟨-, hUsed⟩ := Tiling.mem_used.mp hb
  obtain ⟨pre, post, hBlocks, hFreed⟩ := Tiling.exists_free_eq_freed h.holds.distinct hb
  have hHolds := h.holds
  have hCoalesced := h.coalesced
  rw [hBlocks] at hHolds hCoalesced
  -- what stays used is what callers keep
  have hKept : ∀ c ∈ (Tiling.freed t.stack pre b post).used,
      c ∈ pre ++ post ∧ c.isFree = false := by
    intro c hc
    rw [Tiling.used_freed] at hc
    obtain ⟨hMem, hNotFree⟩ := List.mem_filter.mp hc
    exact ⟨hMem, by simpa using hNotFree⟩
  obtain ⟨s', hRelease, hHolds', hTag, hEdits, hConfig, hAllocations, hFrees', hFailed⟩ :=
    hHolds.release hUsed hFrees hKept
  refine ⟨s', free_of_release h.holds.region (resolve_of_passes (h.passes hb)) hRelease, ?_, ?_⟩
  · rw [hFreed, Tiling.used_freed]
    have hPerm : (Tiling.used { blocks := pre ++ b :: post, stack := t.stack }).Perm _ :=
      Tiling.used_append_cons hUsed
    rwa [← hBlocks] at hPerm
  · rw [← hFreed] at hHolds' hEdits
    refine ⟨⟨hHolds', ?_⟩, hEdits, hTag, hConfig, hAllocations, hFrees', hFailed⟩
    rw [hFreed]
    exact hCoalesced.freed

end Store

end RegionHeap
