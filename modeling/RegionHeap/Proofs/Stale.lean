import RegionHeap.Proofs.Hardening
import RegionHeap.Proofs.Reports

/-!
# Stale back-references

A block that was given back may by mistake be given back once more. If it is a payload, its header
says that it was freed. If it lies inside one, its payload is found through its back-reference, and
that is now in a free chunk, where nothing but the ring links is ever written. So it is still there,
unless the block begins where the ring links end. Then the second link may be in its place, which is
no address but the offset of a chunk; and no offset leads to a payload, unless the region begins
below its own length.

* `Lodged.rawAddress_cases`: what is found below a block when its payload was freed.
* `Store.Misleads`: it is a link, and all the same a pointer to a chunk that passes as used.
* `SharedHeap.Rejects`: a block is not taken back, and this is reported.
* `second_dealloc_rejected`: what becomes of a block that is given back twice.
* `second_dealloc_not_rejected`: two ways for it to leave a trace in the heap.
-/

namespace RegionHeap

variable {r : Region} {m m' : Memory} {s s' : Store} {t : Tiling}
variable {b : Block} {blocks : List Block} {l : Lease}
variable {layout : Layout} {address : Nat} {heap : SharedHeap} {event : Event}
variable {p : Program} {log : List Errand} {known : Nat → Option UInt8}

-- ---------------------------------------------------------------------------
-- What is found below a block
-- ---------------------------------------------------------------------------

namespace Region.Edits

/-- Behind the ring links of a block nothing is written. -/
theorem load_behind {start width : Nat} (h : r.Edits (r.Imprints blocks) m m')
    (hTiled : Tiled headerSize blocks r.tail) (hb : b ∈ blocks)
    (hLow : r.payload b.offset + minPayload ≤ start) (hHigh : start + width ≤ r.base + b.stop) :
    m'.load start width = m.load start width := by
  refine h.load_eq fun o f v hx _ => ?_
  have hSizes := sizes_eq
  have hBounds := hTiled.bounds hb
  have hReach := f.reach_le
  have hWidth := f.position_add_width_le_reach
  unfold payload at hLow
  rcases hx.1.cases hTiled with ⟨rfl, hf⟩ | ⟨d, hd, rfl, hf⟩ | ⟨rfl, hf⟩
  · omega
  · rcases hTiled.apart hd hb with rfl | hBelow | hAbove
    · omega
    · omega
    · omega
  · omega

/-- The second ring link of a block is what it was, or leads to a block. -/
theorem ringNext_cases (h : r.Edits (r.Imprints blocks) m m')
    (hTiled : Tiled headerSize blocks r.tail) (hb : b ∈ blocks) :
    r.content m' .ringNext b.offset = r.content m .ringNext b.offset ∨
      r.content m' .ringNext b.offset ∈ blocks.map Block.offset := by
  refine h.content_cases (Q := (· ∈ blocks.map Block.offset))
    (fun o f v hx => hx.1.clear hTiled (sited_block hb)) fun v hx => ?_
  obtain ⟨-, hLeads⟩ : r.Sited blocks .ringNext v := by simpa using hx.2.2
  obtain ⟨d, hd, rfl⟩ := hLeads.resolve_left (by decide)
  refine ⟨?_, List.mem_map_of_mem hd⟩
  have hBounds := hTiled.bounds hd
  have hStop := d.offset_lt_stop
  have hTail := r.tail_add_headerSize
  have hLimit := r.stop_lt
  have hWord : Word.limit = 256 ^ Field.ringNext.width := by decide
  omega

end Region.Edits

/-- **When the payload was freed**, its pointer is still found below the block, or what is found is
the offset of a chunk, and the block begins where the ring links of its own chunk end. -/
theorem Lease.Lodged.rawAddress_cases (h : l.Lodged b r s known)
    (hTiled : Tiled headerSize blocks r.tail) (hb : b ∈ blocks)
    (hEdits : r.Edits (r.Imprints blocks) s.memory s'.memory) :
    s'.rawAddress l.address l.layout = l.raw ∨
      l.layout.fitsPayload = false ∧ l.address = l.raw + minPayload ∧
        s'.rawAddress l.address l.layout ∈ blocks.map Block.offset := by
  cases hFits : l.layout.fitsPayload with
  | true =>
    left
    rw [← h.found]
    refine Store.rawAddress_congr h.placed fun x hRaw hAddress => ?_
    have := h.placed.whole hFits
    omega
  | false =>
    obtain ⟨hLow, hHigh⟩ := h.inside
    have hSlot := h.placed.slot hFits
    have hEven := h.placed.even
    have hAligned : l.raw % Word.alignment = 0 := by
      rw [h.raw, r.payload_mod_alignment]
      exact hTiled.aligned rfl hb
    have hFound := h.found
    rw [Store.rawAddress_eq h.placed hFits] at hFound ⊢
    unfold backReferenceSize Word.alignment at *
    by_cases hLowest : l.address = l.raw + minPayload
    · -- the back-reference is where the chunk has its second ring link
      have hField : l.address - 8 = r.base + b.offset + Field.ringNext.position := by
        rw [hLowest, h.raw]
        rfl
      rw [hField] at hFound ⊢
      rcases hEdits.ringNext_cases hTiled hb with hSame | hLink
      · exact Or.inl (hSame.trans hFound)
      · exact Or.inr ⟨rfl, hLowest, hLink⟩
    · left
      rw [hEdits.load_behind hTiled hb ?_ ?_, hFound]
      · rw [← h.raw]
        unfold minPayload at *
        omega
      · unfold Block.stop Region.payload at *
        omega

/-- What is found below the block `l`, which begins where the ring links of a chunk end, is less
than the length of the region, and all the same the pointer to a chunk that passes as used. -/
structure Store.Misleads (s : Store) (r : Region) (l : Lease) : Prop where
  inside : l.layout.fitsPayload = false
  lowest : l.address = l.raw + minPayload
  offset : s.rawAddress l.address l.layout < r.size
  passes : ∃ o, s.rawAddress l.address l.layout = r.payload o ∧ r.PassesAsUsed s.memory o

/-- No offset is the address of a payload in a region that begins above its own length. -/
theorem Store.Misleads.base_lt (h : s.Misleads r l) : r.base + headerSize < r.size := by
  obtain ⟨o, hPayload, hPasses⟩ := h.passes
  have hOffset := h.offset
  have hInside := hPasses.inside
  rw [hPayload] at hOffset
  unfold Region.payload at hOffset
  omega

-- ---------------------------------------------------------------------------
-- Blocks that are not taken back
-- ---------------------------------------------------------------------------

namespace SharedHeap

/-- The heap does not take a block back. It stays as it is, and unless a report is going on already
it reports `event`, and then serves the calls that the logger makes on it. -/
structure Rejects (heap : SharedHeap) (address : Nat) (layout : Layout) (event : Event) : Prop where
  attempt : heap.store.attempt (.dealloc address layout) = .ok ⟨null, some event, heap.store⟩
  unheard : heap.reporting = true → ∀ logger, heap.dealloc logger address layout = .ok heap
  reported : heap.reporting = false → ∀ logger, heap.dealloc logger address layout = (do
    let store ← heap.store.attemptAll (logger event)
    return { store := store, reporting := false, journal := heap.journal ++ [event] })

theorem rejects_of_attempt
    (hAttempt : heap.store.attempt (.dealloc address layout) =
      .ok ⟨null, some event, heap.store⟩) : heap.Rejects address layout event where
  attempt := hAttempt
  unheard hReporting logger := by
    unfold dealloc
    rw [serve_reporting logger nestingLimit hReporting hAttempt]
    rfl
  reported hQuiet logger := by
    unfold dealloc nestingLimit
    rw [serve_eq logger 0 hQuiet, hAttempt, ok_bind]
    simp only [bind_assoc, pure_bind]
    rfl

end SharedHeap

-- ---------------------------------------------------------------------------
-- Giving a block back twice
-- ---------------------------------------------------------------------------

/-- **A block that was given back** is not taken back again, unless what is found below it
misleads. -/
theorem Program.Backed.dealloc_again (h : p.Backed r t) (hl : l ∈ p.leases)
    (hValidate : p.heap.store.heap.config.validateFrees = true) :
    ∃ s', p.heap.store.attempt (.dealloc l.address l.layout) = .ok ⟨null, none, s'⟩ ∧
      s'.heap.region = some r ∧
      (s'.Misleads r l ∨ ∃ raw defect, s'.attempt (.dealloc l.address l.layout) =
        .ok ⟨null, some (.freeRejected raw l.layout.size (.corruption raw defect)), s'⟩) := by
  have hAddress := h.address_ne_null hl
  obtain ⟨b, s', hb, hRaw, hFree, -, -, hFreed, -⟩ := h.dealloc hl .silent
  obtain ⟨d, hd, hLodged⟩ := h.lodged l hl
  obtain rfl : d = b := h.represents.eq_of_offset hd hb
    (Client.payload_injective r (hLodged.raw.symm.trans hRaw))
  have hNull : l.raw ≠ null := by
    rw [hRaw]
    exact r.payload_ne_null d.offset
  have hRegion := hFreed.represents.holds.region
  have hValidate' : s'.heap.config.validateFrees = true := by rw [hFreed.config, hValidate]
  refine ⟨s', Store.attempt_dealloc_freed hAddress hLodged.found hNull hFree, hRegion, ?_⟩
  rw [hRaw] at hFree
  have hTiled := h.represents.holds.tiled
  rcases hLodged.rawAddress_cases hTiled (Tiling.mem_used.mp hb).1
    (h.represents.free_edits hb hFree) with hFound | ⟨hFits, hLowest, hLink⟩
  · -- the pointer is found, and its header says that it was freed
    obtain ⟨hRefused, -⟩ := (h.represents.remembers_freed hb hFree hFreed).refuses
      hFreed.represents hValidate'
    rw [← hRaw] at hRefused
    exact Or.inr ⟨_, _, Store.attempt_dealloc_refused hAddress hFound hNull hRefused⟩
  · -- a link is found, and the heap judges it as any pointer
    obtain ⟨c, hc, hOffset⟩ := List.mem_map.mp hLink
    have hSizes := sizes_eq
    have hBounds := hTiled.bounds hc
    have hStop := c.offset_lt_stop
    have hTail := r.tail_add_headerSize
    cases Store.judges hRegion hValidate' (s'.rawAddress l.address l.layout) with
    | refuses defect hRefused =>
      have hNull' : s'.rawAddress l.address l.layout ≠ null := by
        unfold null
        omega
      exact Or.inr ⟨_, defect, Store.attempt_dealloc_refused hAddress rfl hNull' hRefused⟩
    | accepts o hPayload hPasses _ =>
      exact Or.inl ⟨hFits, hLowest, by omega, o, hPayload, hPasses⟩

/-- **A block that is given back twice** is taken back once. The second time it is rejected,
whatever it was asked for with and whoever listens, unless what is found below it misleads; and for
that the region must begin below its own length. -/
theorem second_dealloc_rejected (hReached : p.Reached log) (hl : l ∈ p.leases)
    (hStore : heap.store = p.heap.store) :
    ∃ r s', s'.heap.region = some r ∧
      (∀ logger, heap.dealloc logger l.address l.layout = .ok { heap with store := s' }) ∧
      (s'.Misleads r l ∧ r.base + headerSize < r.size ∨
        ∃ raw defect, SharedHeap.Rejects { heap with store := s' } l.address l.layout
          (.freeRejected raw l.layout.size (.corruption raw defect))) := by
  rcases hReached.idle_or_backed with hIdle | ⟨hValidate, r, t, hBacked⟩
  · rw [hIdle.leases] at hl
    exact absurd hl List.not_mem_nil
  · obtain ⟨s', hAttempt, hRegion, hAgain⟩ := hBacked.dealloc_again hl hValidate
    rw [← hStore] at hAttempt
    refine ⟨r, s', hRegion, fun logger => SharedHeap.dealloc_quiet logger hAttempt, ?_⟩
    refine hAgain.imp (fun hMisleads => ⟨hMisleads, hMisleads.base_lt⟩) ?_
    rintro ⟨raw, defect, hRejected⟩
    exact ⟨raw, defect, SharedHeap.rejects_of_attempt hRejected⟩

/-- The block begins where the ring links of its chunk end, and the second time a link is found
below it. In a region that begins far above its own length that link is no pointer. -/
theorem second_dealloc_rejected_link :
    ∃ p s', Program.Reached [.block (.alloc ⟨16, 8⟩), .block (.alloc ⟨16, 32⟩)] p ∧
      p.leases = [⟨65664, ⟨16, 32⟩, 65648⟩, ⟨65600, ⟨16, 8⟩, 65600⟩] ∧
      p.heap.dealloc .silent 65664 ⟨16, 32⟩ = .ok { p.heap with store := s' } ∧
      SharedHeap.Rejects { p.heap with store := s' } 65664 ⟨16, 32⟩
        (.freeRejected 80 16 (.corruption 80 .outOfRange)) := by
  obtain ⟨p, hp⟩ : ∃ p, (Program.fresh (.kibibyte .hardened)).servedAll
      [.alloc ⟨16, 8⟩, .alloc ⟨16, 32⟩] = p := ⟨_, rfl⟩
  have hReached := Program.Reached.replay (SharedHeap.init_kibibyte .hardened) rfl
    [.alloc ⟨16, 8⟩, .alloc ⟨16, 32⟩] (by decide +kernel) (by decide)
  rw [hp] at hReached
  have hLeases : p.leases = [⟨65664, ⟨16, 32⟩, 65648⟩, ⟨65600, ⟨16, 8⟩, 65600⟩] := by
    rw [← hp]
    decide +kernel
  have hLink : (do
      let heap ← p.heap.dealloc .silent 65664 ⟨16, 32⟩
      let a ← heap.store.attempt (.dealloc 65664 ⟨16, 32⟩)
      return (a.complaint, heap.store.heap.region.map fun r => (r.base, r.size)) : Checked _) =
      .ok (some (.freeRejected 80 16 (.corruption 80 .outOfRange)), some (65536, 1024)) := by
    rw [← hp]
    decide +kernel
  obtain ⟨heap, hFirst, hLink⟩ := bind_eq_ok_iff.mp hLink
  obtain ⟨a, hAttempt, hLink⟩ := bind_eq_ok_iff.mp hLink
  obtain ⟨hComplaint, hPlace⟩ := Prod.mk.inj (Except.ok.inj hLink)
  obtain ⟨r, s', hRegion, hDealloc, hAgain⟩ :=
    second_dealloc_rejected (l := ⟨65664, ⟨16, 32⟩, 65648⟩) hReached (by simp [hLeases]) rfl
  obtain rfl := Except.ok.inj (hFirst.symm.trans (hDealloc .silent))
  rcases hAgain with ⟨-, hLow⟩ | ⟨raw, defect, hRejects⟩
  · simp only [hRegion, Option.map_some, Option.some.injEq, Prod.mk.injEq] at hPlace
    omega
  · obtain rfl := Except.ok.inj (hAttempt.symm.trans hRejects.attempt)
    rw [← Option.some.inj hComplaint]
    exact ⟨p, s', hReached, hLeases, hFirst, hRejects⟩

/-- In a region that begins below its own length the link may be a pointer: here it is that of a
block which is held, and which is freed without a word. And wherever the region is, a logger that
asks for a block is counted. -/
theorem second_dealloc_not_rejected :
    (∃ p heap heap', Program.Reached [.block (.alloc ⟨16, 8⟩), .block (.alloc ⟨16, 8⟩),
        .block (.alloc ⟨16, 32⟩)] p ∧
      p.leases = [⟨192, ⟨16, 32⟩, 176⟩, ⟨128, ⟨16, 8⟩, 128⟩, ⟨80, ⟨16, 8⟩, 80⟩] ∧
      p.heap.dealloc .silent 192 ⟨16, 32⟩ = .ok heap ∧ heap.reporting = false ∧
      heap.store.usableSize 128 = .ok (.ok 16) ∧
      heap.dealloc .silent 192 ⟨16, 32⟩ = .ok heap' ∧ heap'.journal = heap.journal ∧
      heap'.store.usableSize 128 = .ok (.error (.corruption 128 .doubleFree))) ∧
    ∃ p heap heap', Program.Reached [.block (.alloc ⟨16, 8⟩), .block (.alloc ⟨16, 32⟩)] p ∧
      p.leases = [⟨65664, ⟨16, 32⟩, 65648⟩, ⟨65600, ⟨16, 8⟩, 65600⟩] ∧
      p.heap.dealloc .silent 65664 ⟨16, 32⟩ = .ok heap ∧ heap.reporting = false ∧
      heap.store.heap.counters.failedAllocations = 0 ∧
      heap.dealloc (fun _ => [.alloc ⟨1 <<< 40, 8⟩]) 65664 ⟨16, 32⟩ = .ok heap' ∧
      heap'.store.heap.counters.failedAllocations = 1 := by
  constructor
  · have hReturns : (do
        let ready ← Store.init ⟨Heap.empty, Memory.blank⟩ 16 1040 .hardened
        let start := Program.fresh ⟨ready.2, false, []⟩
        let p := start.servedAll [.alloc ⟨16, 8⟩, .alloc ⟨16, 8⟩, .alloc ⟨16, 32⟩]
        let heap ← p.heap.dealloc .silent 192 ⟨16, 32⟩
        let size ← heap.store.usableSize 128
        let heap' ← heap.dealloc .silent 192 ⟨16, 32⟩
        let size' ← heap'.store.usableSize 128
        return (p.leases, size, size', decide (ready.1 = .ok () ∧
          start.AllowsAll [.alloc ⟨16, 8⟩, .alloc ⟨16, 8⟩, .alloc ⟨16, 32⟩] ∧
            heap.reporting = false ∧ heap'.journal = heap.journal)) : Checked _) =
        .ok ([⟨192, ⟨16, 32⟩, 176⟩, ⟨128, ⟨16, 8⟩, 128⟩, ⟨80, ⟨16, 8⟩, 80⟩], .ok 16,
          .error (.corruption 128 .doubleFree), true) := by
      decide +kernel
    obtain ⟨⟨answer, s'⟩, hInit, hReturns⟩ := bind_eq_ok_iff.mp hReturns
    obtain ⟨heap, hFirst, hReturns⟩ := bind_eq_ok_iff.mp hReturns
    obtain ⟨size, hSize, hReturns⟩ := bind_eq_ok_iff.mp hReturns
    obtain ⟨heap', hSecond, hReturns⟩ := bind_eq_ok_iff.mp hReturns
    obtain ⟨size', hSize', hReturns⟩ := bind_eq_ok_iff.mp hReturns
    have hValues := Except.ok.inj hReturns
    simp only [Prod.mk.injEq, decide_eq_true_eq] at hValues
    obtain ⟨hLeases, rfl, rfl, rfl, hAllows, hQuiet, hJournal⟩ := hValues
    have hStart : Program.Reached [] (.fresh ⟨s', false, []⟩) := .laidOut hInit rfl .start
    obtain ⟨-, hReached⟩ := hStart.serveAll _ hAllows (by decide)
    exact ⟨_, heap, heap', hReached, hLeases, hFirst, hQuiet, hSize, hSecond, hJournal, hSize'⟩
  · have hReturns : (do
        let p := (Program.fresh (.kibibyte .hardened)).servedAll [.alloc ⟨16, 8⟩, .alloc ⟨16, 32⟩]
        let heap ← p.heap.dealloc .silent 65664 ⟨16, 32⟩
        let heap' ← heap.dealloc (fun _ => [.alloc ⟨1 <<< 40, 8⟩]) 65664 ⟨16, 32⟩
        return (p.leases, heap.reporting, heap.store.heap.counters.failedAllocations,
          heap'.store.heap.counters.failedAllocations) : Checked _) =
        .ok ([⟨65664, ⟨16, 32⟩, 65648⟩, ⟨65600, ⟨16, 8⟩, 65600⟩], false, 0, 1) := by
      decide +kernel
    obtain ⟨heap, hFirst, hReturns⟩ := bind_eq_ok_iff.mp hReturns
    obtain ⟨heap', hSecond, hReturns⟩ := bind_eq_ok_iff.mp hReturns
    have hValues := Except.ok.inj hReturns
    simp only [Prod.mk.injEq] at hValues
    obtain ⟨hLeases, hQuiet, hBefore, hAfter⟩ := hValues
    have hReached := Program.Reached.replay (SharedHeap.init_kibibyte .hardened) rfl
      [.alloc ⟨16, 8⟩, .alloc ⟨16, 32⟩] (by decide +kernel) (by decide)
    exact ⟨_, heap, heap', hReached, hLeases, hFirst, hQuiet, hBefore, hSecond, hAfter⟩

end RegionHeap
