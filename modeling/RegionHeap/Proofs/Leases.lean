import RegionHeap.Proofs.Program

/-!
# Blocks that are held

Every block that a program holds lies in the payload of a used chunk of its own, from where the
chunk can be found again, and holds what its owner knows. `Program.Backed` says so, together
with what is known of the store; each request and each write keeps it.

* `Backed.alloc`, `Backed.write`, `Backed.dealloc`: the steps. Clearing a fresh block is a
  write, and moving one is to allocate, to write and to give back.
* `Store.Steps`: no step counts more than one allocation, writes outside the region or changes the
  configuration.
* `Backed.perform`: one request.
* `Program.Run.backed`: any run.
-/

namespace RegionHeap

variable {r : Region} {s s' : Store} {t t' : Tiling} {b d : Block} {l k : Lease}
variable {layout : Layout} {address newSize o : Nat} {heap : SharedHeap} {p p' : Program}
variable {known known' : Nat → Option UInt8}

-- ---------------------------------------------------------------------------
-- The invariant
-- ---------------------------------------------------------------------------

/-- The block lies in the payload of `b`, which its address leads to, and holds what is known
of it. -/
structure Lease.Lodged (l : Lease) (b : Block) (r : Region) (s : Store)
    (known : Nat → Option UInt8) : Prop where
  raw : l.raw = r.payload b.offset
  room : l.layout.request ≤ b.size
  placed : l.layout.Placed l.raw l.address
  found : s.rawAddress l.address l.layout = l.raw
  contents : ∀ x, l.Covers x → ∀ byte, known x = some byte → s.memory.byte x = byte

/-- No payload is at address zero. -/
theorem Region.payload_ne_null (r : Region) (o : Nat) : r.payload o ≠ null := by
  have := sizes_eq
  unfold Region.payload null
  omega

namespace Lease.Lodged

/-- The block lies inside the payload. -/
theorem inside (h : l.Lodged b r s known) :
    r.payload b.offset ≤ l.address ∧
      l.address + l.layout.size ≤ r.payload b.offset + b.size := by
  have hLow := h.placed.low
  have hHigh := h.placed.high
  have hRoom := h.room
  rw [h.raw] at hLow hHigh
  omega

/-- Only the bytes of the payload matter, and less may be known of them. -/
theorem of_payload (h : l.Lodged b r s known)
    (hByte : ∀ x, r.payload b.offset ≤ x → x < r.payload b.offset + b.size →
      s'.memory.byte x = s.memory.byte x)
    (hKnown : ∀ x, l.Covers x → ∀ byte, known' x = some byte → known x = some byte) :
    l.Lodged b r s' known' := by
  obtain ⟨hLow, hHigh⟩ := h.inside
  refine ⟨h.raw, h.room, h.placed, ?_, fun x hx byte hKnows => ?_⟩
  · rw [← h.found]
    refine Store.rawAddress_congr h.placed fun x hRaw hAddress => hByte x ?_ ?_
    · rw [← h.raw]
      exact hRaw
    · omega
  · obtain ⟨hFrom, hTo⟩ := hx
    rw [hByte x (by omega) (by omega)]
    exact h.contents x ⟨hFrom, hTo⟩ byte (hKnown x ⟨hFrom, hTo⟩ byte hKnows)

end Lease.Lodged

/-- No more than one allocation was counted. -/
def Store.CountsOne (s s' : Store) : Prop :=
  s'.heap.counters.allocations ≤ s.heap.counters.allocations + 1 ∧
    s'.heap.counters.failedAllocations ≤ s.heap.counters.failedAllocations + 1

/-- No more than one allocation was counted, nothing was written outside the region, and the
configuration is the same. -/
structure Store.Steps (r : Region) (s s' : Store) : Prop where
  counts : s.CountsOne s'
  outside : ∀ x, x < r.base ∨ r.stop ≤ x → s'.memory.byte x = s.memory.byte x
  config : s'.heap.config = s.heap.config

theorem Conducted.steps (h : Conducted r t t' s s') : Store.Steps r s s' :=
  ⟨h.counters_le, fun _ hx => h.byte_outside hx, h.config_eq⟩

namespace Store.Steps

/-- More can be written into the region. -/
theorem write {m : Memory} (h : Steps r s s')
    (hSame : ∀ x, x < r.base ∨ r.stop ≤ x → m.byte x = s'.memory.byte x) :
    Steps r s { s' with memory := m } :=
  ⟨h.counts, fun x hx => (hSame x hx).trans (h.outside x hx), h.config⟩

/-- Nothing is allocated by giving something back. -/
theorem freed {s'' : Store} (h : Steps r s s') (hFreed : Store.Freed r t o s' s'') :
    Steps r s s'' := by
  refine ⟨?_, fun x hx => (hFreed.edits.byte_outside hx).trans (h.outside x hx),
    hFreed.config.trans h.config⟩
  obtain ⟨hAllocations, hFailed⟩ := h.counts
  unfold CountsOne
  rw [hFreed.allocations, hFreed.failedAllocations]
  exact ⟨hAllocations, hFailed⟩

end Store.Steps

namespace Program

/-- To the heap, a program is a client that holds the payloads of its blocks. -/
def client (p : Program) : Client := { store := p.heap.store, live := p.leases.map Lease.raw }

/-- The store represents the tiling, the used blocks are those that blocks of the program lie
in, and these hold what is known of them. -/
structure Backed (p : Program) (r : Region) (t : Tiling) : Prop where
  tracks : p.client.Tracks r t
  lodged : ∀ l ∈ p.leases, ∃ b ∈ t.used, l.Lodged b r p.heap.store p.known

/-- What is in no block is not written. -/
theorem Writes.byte_of_not_holds {m : Memory} {written : Nat → Option UInt8} {x : Nat}
    (h : p.Writes m written) (hx : ¬p.Holds x) : m.byte x = p.memory.byte x := by
  rw [h.byte x]
  cases hWritten : written x with
  | none => rfl
  | some byte => exact absurd (h.held x (by simp [hWritten])) hx

namespace Backed

/-- A program that holds nothing yet is backed by a heap that was just set up. -/
theorem fresh {config : Config} (h : Store.LaidOut r config s heap.store) :
    (Program.fresh heap).Backed r (Tiling.initial r.size) :=
  ⟨Client.tracks_of_laidOut h, fun _ hl => absurd hl List.not_mem_nil⟩

theorem represents (h : p.Backed r t) : p.heap.store.Represents r t := h.tracks.represents

/-- Every block lies inside the region. -/
theorem inside (h : p.Backed r t) (hl : l ∈ p.leases) :
    r.base ≤ l.address ∧ l.address + l.layout.size ≤ r.stop := by
  obtain ⟨b, hb, hLodged⟩ := h.lodged l hl
  have hBlock := h.represents.payload_inside hb
  have hLease := hLodged.inside
  omega

/-- No two blocks lie in the same payload. -/
theorem raw_injective (h : p.Backed r t) (hl : l ∈ p.leases) (hk : k ∈ p.leases)
    (hRaw : l.raw = k.raw) : l = k :=
  List.inj_on_of_nodup_map h.tracks.nodup hl hk hRaw

/-- Between two blocks there is room for a header. -/
theorem gap (h : p.Backed r t) (hl : l ∈ p.leases) (hk : k ∈ p.leases) (hne : l ≠ k) :
    l.address + l.layout.size + headerSize ≤ k.address ∨
      k.address + k.layout.size + headerSize ≤ l.address := by
  obtain ⟨b, hb, hLodged⟩ := h.lodged l hl
  obtain ⟨d, hd, hLodged'⟩ := h.lodged k hk
  obtain ⟨hLow, hHigh⟩ := hLodged.inside
  obtain ⟨hLow', hHigh'⟩ := hLodged'.inside
  have hOffset : b.offset ≠ d.offset := by
    intro hSame
    refine hne (h.raw_injective hl hk ?_)
    rw [hLodged.raw, hLodged'.raw, hSame]
  rcases h.represents.payload_gap hb hd hOffset with hGap | hGap
  · left
    omega
  · right
    omega

/-- No two blocks have the same address. -/
theorem address_injective (h : p.Backed r t) (hl : l ∈ p.leases) (hk : k ∈ p.leases)
    (hAddress : l.address = k.address) : l = k := by
  by_contra hne
  have := h.gap hl hk hne
  have := sizes_eq
  omega

theorem address_ne_null (h : p.Backed r t) (hl : l ∈ p.leases) : l.address ≠ null := by
  obtain ⟨b, -, hLodged⟩ := h.lodged l hl
  have hRaw := r.payload_ne_null b.offset
  have hInside := hLodged.inside
  unfold null at *
  omega

/-- Giving up one block leaves the others. -/
theorem perm_lose (h : p.Backed r t) (hl : l ∈ p.leases) :
    p.leases.Perm (l :: p.leases.filter (·.address ≠ l.address)) := by
  have hNodup : p.leases.Nodup := h.tracks.nodup.of_map Lease.raw
  have hFilter : p.leases.filter (·.address ≠ l.address) = p.leases.erase l := by
    rw [hNodup.erase_eq_filter]
    refine List.filter_congr fun k hk => ?_
    rw [Bool.eq_iff_iff, decide_eq_true_eq, bne_iff_ne]
    refine not_congr ⟨fun hAddress => h.address_injective hk hl hAddress, ?_⟩
    rintro rfl
    rfl
  rw [hFilter]
  exact List.perm_cons_erase hl

-- ---------------------------------------------------------------------------
-- Steps
-- ---------------------------------------------------------------------------

/-- A heap that refuses a block keeps those that are held. -/
theorem refused (h : p.Backed r t) (hRefused : Store.Refused r t p.heap.store heap.store) :
    Backed { p with heap := heap } r t := by
  refine ⟨h.tracks.of_refused (e := .notInitialized) hRefused, fun l hl => ?_⟩
  obtain ⟨b, hb, hLodged⟩ := h.lodged l hl
  exact ⟨b, hb, hLodged.of_payload (fun x _ _ => by rw [hRefused.memory]) fun _ _ _ hx => hx⟩

theorem gain_eq (hNull : address ≠ null) (bytes : Nat → Option UInt8) :
    p.gain heap layout address bytes =
      p.hold heap ⟨address, layout, p.heap.store.rawFor layout⟩ bytes :=
  if_neg hNull

theorem known_hold (heap : SharedHeap) {bytes : Nat → Option UInt8} {i : Nat}
    (hi : i < l.layout.size) :
    (p.hold heap l bytes).known (l.address + i) = bytes i := by
  have hCovers : l.Covers (l.address + i) := ⟨Nat.le_add_right _ _, Nat.add_lt_add_left hi _⟩
  refine (if_pos hCovers).trans ?_
  rw [Nat.add_sub_cancel_left]

/-- A new block is in no other's way, if there is room for it in the payload that was handed
out. -/
theorem held {size : Nat} (h : p.Backed r t)
    (hAllocated : Store.Allocated r t t' o size p.heap.store heap.store)
    (hCount : heap.store.heap.counters.allocations < Word.limit) (hRaw : l.raw = r.payload o)
    (hRoom : ∀ d ∈ t'.used, d.offset = o → size ≤ d.size → l.layout.request ≤ d.size)
    (hPlaced : l.layout.Placed l.raw l.address)
    (hFound : heap.store.rawAddress l.address l.layout = l.raw) :
    (p.hold heap l fun _ => none).Backed r t' := by
  have hConducted : Conducted r t t' p.heap.store heap.store := .allocated o _ hAllocated
  obtain ⟨d, rfl, hSize, hPerm⟩ := hAllocated.used
  refine ⟨?_, fun k hk => ?_⟩
  · rw [hAllocated.allocations] at hCount
    have hTracks := h.tracks.of_allocated hAllocated hCount
    rw [← hRaw] at hTracks
    exact hTracks
  · rcases List.mem_cons.mp hk with rfl | hk
    · have hd : d ∈ t'.used := hPerm.mem_iff.mpr List.mem_cons_self
      refine ⟨d, hd, hRaw, hRoom d hd rfl hSize, hPlaced, hFound, ?_⟩
      intro x hx byte hKnows
      simp [hold, hx] at hKnows
    · obtain ⟨b, hb, hLodged⟩ := h.lodged k hk
      have hb' : b ∈ t'.used := hPerm.mem_iff.mpr (List.mem_cons_of_mem _ hb)
      refine ⟨b, hb', hLodged.of_payload (fun x => hConducted.byte_kept hb hb') ?_⟩
      intro x _ byte hKnows
      simp only [hold] at hKnows
      split at hKnows
      · exact absurd hKnows (by simp)
      · exact hKnows

/-- **Allocating** a block: there is none and nothing changes, or it is in no other's way. -/
theorem alloc (h : p.Backed r t) (hValid : layout.Valid)
    (hRoom : p.heap.store.HasRoom t layout.request) :
    ∃ address heap, p.heap.alloc .silent layout = .ok (address, heap) ∧
      ((address = null ∧ Store.Refused r t p.heap.store heap.store) ∨
      ∃ o t', address ≠ null ∧ Store.Allocated r t t' o layout.request p.heap.store heap.store ∧
        (p.gain heap layout address fun _ => none).Backed r t') := by
  rcases h.represents.attempt_alloc hValid hRoom with
    ⟨a, hAttempt, hNull, hRefused⟩ |
    ⟨o, t', s', address, hAttempt, hRaw, hAllocated, hCount, hPlaced, hFound⟩
  · obtain ⟨heap, hServe, hStore⟩ := SharedHeap.serve_silent hAttempt
    rw [← hStore] at hRefused
    exact ⟨a.address, heap, hServe, Or.inl ⟨hNull, hRefused⟩⟩
  · have hServe := SharedHeap.serve_quiet .silent SharedHeap.nestingLimit hAttempt rfl
    have hNull : address ≠ null := by
      have hRaw := r.payload_ne_null o
      have hLow := hPlaced.low
      unfold null at *
      omega
    refine ⟨address, _, hServe, Or.inr ⟨o, t', hNull, hAllocated, ?_⟩⟩
    rw [← hRaw] at hPlaced hFound
    rw [gain_eq hNull]
    exact h.held hAllocated hCount hRaw (fun _ _ _ hSize => hSize) hPlaced hFound

/-- **Writing** into blocks: back-references are in no block, and other blocks stay. -/
theorem write {m : Memory} (h : p.Backed r t)
    (hSame : ∀ x, ¬p.Holds x → m.byte x = p.memory.byte x)
    (hKnown : ∀ x, p.Holds x → ∀ byte, known x = some byte → m.byte x = byte) :
    (p.write m known).Backed r t := by
  have hOwns : ∀ x, p.Holds x → p.client.Owns x := by
    rintro x ⟨l, hl, hFrom, hTo⟩
    obtain ⟨b, hb, hLodged⟩ := h.lodged l hl
    obtain ⟨hLow, hHigh⟩ := hLodged.inside
    exact h.tracks.owns_iff.mpr ⟨b, hb, by omega, by omega⟩
  refine ⟨h.tracks.write fun x hx => hSame x fun hHolds => hx (hOwns x hHolds), fun l hl => ?_⟩
  obtain ⟨b, hb, hLodged⟩ := h.lodged l hl
  refine ⟨b, hb, hLodged.raw, hLodged.room, hLodged.placed, ?_, ?_⟩
  · rw [← hLodged.found]
    refine Store.rawAddress_congr hLodged.placed fun x hRaw hAddress => hSame x ?_
    -- a held byte is in a block, and the back-reference is below its own block
    rintro ⟨k, hk, hFrom, hTo⟩
    obtain ⟨d, hd, hLodged'⟩ := h.lodged k hk
    obtain ⟨hLow, hHigh⟩ := hLodged.inside
    obtain ⟨hLow', hHigh'⟩ := hLodged'.inside
    rw [hLodged.raw] at hRaw
    by_cases hOffset : b.offset = d.offset
    · obtain rfl : l = k := h.raw_injective hl hk (by rw [hLodged.raw, hLodged'.raw, hOffset])
      omega
    · have := h.represents.payload_apart hb hd hOffset
      omega
  · intro x hx byte hKnows
    exact hKnown x ⟨l, hl, hx⟩ byte hKnows

/-- An owner of a block knows what was last written into it. -/
theorem writes {m : Memory} {written : Nat → Option UInt8} (h : p.Backed r t)
    (hWrites : p.Writes m written) :
    (p.write m fun x => (written x).or (p.known x)).Backed r t := by
  refine h.write (fun x hx => hWrites.byte_of_not_holds hx) fun x hx byte hKnows => ?_
  rw [hWrites.byte x]
  cases hWritten : written x with
  | none =>
    rw [hWritten, Option.none_or] at hKnows
    obtain ⟨l, hl, hCovers⟩ := hx
    obtain ⟨b, -, hLodged⟩ := h.lodged l hl
    exact hLodged.contents x hCovers byte hKnows
  | some last =>
    rw [hWritten, Option.some_or] at hKnows
    exact Option.some.inj hKnows

/-- **Giving a block back** frees its payload, whoever listens. -/
theorem dealloc (h : p.Backed r t) (hl : l ∈ p.leases) (logger : Logger) :
    ∃ b s', b ∈ t.used ∧ l.raw = r.payload b.offset ∧
      p.heap.store.free l.raw = .ok (.ok (), s') ∧
      p.heap.dealloc logger l.address l.layout = .ok { p.heap with store := s' } ∧
      t.used.Perm (b :: (t.free b.offset).used) ∧
      Store.Freed r t b.offset p.heap.store s' ∧
      (p.lose { p.heap with store := s' } l.address).Backed r (t.free b.offset) := by
  obtain ⟨b, hb, hLodged⟩ := h.lodged l hl
  have hLive : l.raw ∈ p.client.live := List.mem_map_of_mem hl
  obtain ⟨s', hFree, hPerm, hFreed⟩ := h.represents.free hb (h.tracks.frees_lt hLive)
  rw [← hLodged.raw] at hFree
  have hAttempt : p.heap.store.attempt (.dealloc l.address l.layout) =
      .ok { address := null, complaint := none, store := s' } :=
    Store.attempt_dealloc_freed (h.address_ne_null hl) hLodged.found
      (hLodged.raw ▸ r.payload_ne_null b.offset) hFree
  refine ⟨b, s', hb, hLodged.raw, hFree, SharedHeap.dealloc_quiet logger hAttempt, hPerm, hFreed,
    ?_, fun k hk => ?_⟩
  · rw [hLodged.raw] at hLive
    have hTracks := h.tracks.of_freed hb hPerm hFreed
    refine hTracks.of_perm ?_
    -- what is left of the pointers are those of the blocks that are left
    have hErase := ((h.perm_lose hl).map Lease.raw).erase l.raw
    rw [List.map_cons, List.erase_cons_head, hLodged.raw] at hErase
    exact hErase.symm
  · obtain ⟨hk, hAddress⟩ := List.mem_filter.mp hk
    obtain ⟨d, hd, hLodged'⟩ := h.lodged k hk
    have hd' : d ∈ (t.free b.offset).used := by
      rcases List.mem_cons.mp (hPerm.mem_iff.mp hd) with rfl | hd'
      · obtain rfl : k = l := h.raw_injective hk hl (by rw [hLodged.raw, hLodged'.raw])
        simp at hAddress
      · exact hd'
    have hConducted : Conducted r t (t.free b.offset) p.heap.store s' :=
      .freed b rfl hPerm hFreed
    exact ⟨d, hd', hLodged'.of_payload (fun x => hConducted.byte_kept hd hd') fun _ _ _ hx => hx⟩

/-- A block that was just taken note of lies inside the region. -/
theorem inside_of_gain {bytes : Nat → Option UInt8} (hNull : address ≠ null)
    (h : (p.gain heap layout address bytes).Backed r t) :
    r.base ≤ address ∧ address + layout.size ≤ r.stop := by
  rw [gain_eq hNull] at h
  exact h.inside List.mem_cons_self

/-- A block that was just taken note of is apart from those that were held before. -/
theorem gap_of_hold {bytes : Nat → Option UInt8} (h : (p.hold heap k bytes).Backed r t)
    (hl : l ∈ p.leases) :
    l.address + l.layout.size + headerSize ≤ k.address ∨
      k.address + k.layout.size + headerSize ≤ l.address := by
  have hNodup : (k :: p.leases).Nodup := h.tracks.nodup.of_map Lease.raw
  refine h.gap (List.mem_cons_of_mem _ hl) List.mem_cons_self ?_
  rintro rfl
  exact (List.nodup_cons.mp hNodup).1 hl

/-- What is known of a fresh block is what was written into it. -/
theorem fill {m : Memory} {bytes : Nat → Option UInt8} (hNull : address ≠ null)
    (h : (p.gain heap layout address fun _ => none).Backed r t)
    (hSame : ∀ x, x < address ∨ address + layout.size ≤ x →
      m.byte x = heap.store.memory.byte x)
    (hBytes : ∀ i < layout.size, ∀ byte, bytes i = some byte → m.byte (address + i) = byte) :
    (p.gain (heap.withMemory m) layout address bytes).Backed r t := by
  rw [gain_eq hNull] at h ⊢
  refine h.write (fun x hx => hSame x ?_) ?_
  · by_contra hInside
    have hCovers : address ≤ x ∧ x < address + layout.size := by omega
    exact hx ⟨_, List.mem_cons_self, hCovers⟩
  · rintro x ⟨l, hl, hCovers⟩ byte hKnows
    simp only at hKnows
    split at hKnows
    · rename_i hFresh
      obtain ⟨hLow, hHigh⟩ : address ≤ x ∧ x < address + layout.size := hFresh
      have := hBytes (x - address) (by omega) byte hKnows
      rwa [Nat.add_sub_cancel' hLow] at this
    · rename_i hFresh
      have hOutside : ¬(address ≤ x ∧ x < address + layout.size) := hFresh
      obtain ⟨b, -, hLodged⟩ := h.lodged l hl
      rw [hSame x (by omega)]
      exact hLodged.contents x hCovers byte ((if_neg hFresh).trans hKnows)

/-- Copying a block into a fresh one carries over what is known of it. -/
theorem copy (hNull : address ≠ null) (hl : l ∈ p.leases)
    (h : (p.gain heap (l.layout.resize newSize) address fun _ => none).Backed r t) :
    (p.gain (heap.withMemory
        (heap.store.memory.copy l.address address (min l.layout.size newSize)))
      (l.layout.resize newSize) address (p.carried l.address l.layout newSize)).Backed r t := by
  refine h.fill hNull (fun x hx => ?_) fun i hi byte hKnows => ?_
  · rw [Memory.byte_copy, if_neg]
    have : x < address ∨ address + newSize ≤ x := hx
    omega
  · unfold carried at hKnows
    split at hKnows
    · rename_i hLt
      rw [Memory.byte_copy, if_pos (by omega), Nat.add_sub_cancel_left]
      rw [gain_eq hNull] at h
      obtain ⟨b, -, hLodged⟩ := h.lodged l (List.mem_cons_of_mem _ hl)
      refine hLodged.contents (l.address + i) ⟨by omega, by omega⟩ byte ?_
      -- the fresh block is apart from the one that is copied
      have hGap := h.gap_of_hold hl
      refine (if_neg ?_).trans hKnows
      rintro ⟨hLow, hHigh⟩
      omega
    · exact absurd hKnows (by simp)

/-- **Clearing** a fresh block is writing into it. -/
theorem allocZeroed (h : p.Backed r t) (hValid : layout.Valid)
    (hRoom : p.heap.store.HasRoom t layout.request) :
    ∃ address heap, p.heap.allocZeroed .silent layout = .ok (address, heap) ∧
      ((address = null ∧ Store.Refused r t p.heap.store heap.store) ∨
      ∃ t', address ≠ null ∧ Store.Steps r p.heap.store heap.store ∧
        (p.gain heap layout address fun _ => some 0).Backed r t') := by
  obtain ⟨address, heap, hAlloc, ⟨rfl, hRefused⟩ | ⟨o, t', hNull, hAllocated, hBacked⟩⟩ :=
    h.alloc hValid hRoom
  · refine ⟨null, heap, ?_, Or.inl ⟨rfl, hRefused⟩⟩
    unfold SharedHeap.allocZeroed
    rw [hAlloc, ok_bind]
    rfl
  · have hClear : p.heap.allocZeroed .silent layout = .ok (address,
        heap.withMemory (heap.store.memory.fill address layout.size 0)) := by
      unfold SharedHeap.allocZeroed
      rw [hAlloc, ok_bind]
      simp only
      rw [if_neg hNull]
      rfl
    refine ⟨address, _, hClear, Or.inr ⟨t', hNull, ?_, ?_⟩⟩
    · have hInside := hBacked.inside_of_gain hNull
      refine (Conducted.allocated o _ hAllocated).steps.write fun x hx => ?_
      exact Memory.byte_fill_of_outside (by omega)
    · refine hBacked.fill hNull (fun x hx => Memory.byte_fill_of_outside hx) ?_
      intro i hi byte hKnows
      rw [Memory.byte_fill, if_pos (by omega)]
      exact Option.some.inj hKnows

/-- **Copying** a block into a fresh one, if there is one: what is left of moving it is to give the
first one back. -/
theorem copied (h : p.Backed r t) (hl : l ∈ p.leases) (hValid : (l.layout.resize newSize).Valid)
    (hRoom : p.heap.store.HasRoom t (l.layout.resize newSize).request) :
    (∃ heap, p.heap.realloc .silent l.address l.layout newSize = .ok (null, heap) ∧
      Store.Refused r t p.heap.store heap.store) ∨
    ∃ (fresh : Nat) (copy : Program) (t' : Tiling), fresh ≠ null ∧ fresh ≠ l.address ∧
      l ∈ copy.leases ∧ copy.Backed r t' ∧ Store.Steps r p.heap.store copy.heap.store ∧
      ∀ heap, copy.heap.dealloc .silent l.address l.layout = .ok heap →
        p.heap.realloc .silent l.address l.layout newSize = .ok (fresh, heap) ∧
        (p.gain heap (l.layout.resize newSize) fresh (p.carried l.address l.layout newSize)).lose
          heap l.address = copy.lose heap l.address := by
  obtain ⟨fresh, heap, hAlloc, ⟨rfl, hRefused⟩ | ⟨o, t', hNull, hAllocated, hBacked⟩⟩ :=
    h.alloc hValid hRoom
  · refine Or.inl ⟨heap, ?_, hRefused⟩
    unfold SharedHeap.realloc
    rw [show ({ l.layout with size := newSize } : Layout) = l.layout.resize newSize from rfl,
      hAlloc, ok_bind]
    rfl
  · have hCopied := hBacked.copy hNull hl
    rw [gain_eq hNull] at hCopied
    refine Or.inr ⟨fresh, _, t', hNull, ?_, List.mem_cons_of_mem _ hl, hCopied, ?_, ?_⟩
    · rintro rfl
      have hGap : l.address + l.layout.size + headerSize ≤ l.address ∨
          l.address + newSize + headerSize ≤ l.address := hCopied.gap_of_hold hl
      have := sizes_eq
      omega
    · -- the copy goes to the fresh block
      have hInside : r.base ≤ fresh ∧ fresh + newSize ≤ r.stop := hBacked.inside_of_gain hNull
      refine (Conducted.allocated o _ hAllocated).steps.write fun x hx => ?_
      rw [Memory.byte_copy, if_neg]
      omega
    · intro heap' hDealloc
      refine ⟨?_, ?_⟩
      · unfold SharedHeap.realloc
        rw [show ({ l.layout with size := newSize } : Layout) = l.layout.resize newSize from rfl,
          hAlloc, ok_bind]
        simp only
        rw [if_neg hNull]
        exact (congrArg (· >>= _) hDealloc).trans rfl
      · rw [gain_eq hNull]
        rfl

/-- **Moving** a block is allocating another, copying into it, and giving the first one back. -/
theorem realloc (h : p.Backed r t) (hl : l ∈ p.leases) (hValid : (l.layout.resize newSize).Valid)
    (hRoom : p.heap.store.HasRoom t (l.layout.resize newSize).request) :
    ∃ fresh heap, p.heap.realloc .silent l.address l.layout newSize = .ok (fresh, heap) ∧
      ((fresh = null ∧ Store.Refused r t p.heap.store heap.store) ∨
      ∃ t', fresh ≠ null ∧ fresh ≠ l.address ∧ Store.Steps r p.heap.store heap.store ∧
        ((p.gain heap (l.layout.resize newSize) fresh
          (p.carried l.address l.layout newSize)).lose heap l.address).Backed r t') := by
  rcases h.copied hl hValid hRoom with
    ⟨heap, hCall, hRefused⟩ | ⟨fresh, copy, t', hNull, hne, hl', hCopied, hSteps, hMoves⟩
  · exact ⟨null, heap, hCall, Or.inl ⟨rfl, hRefused⟩⟩
  · obtain ⟨b, s', -, -, -, hDealloc, -, hFreed, hBacked⟩ := hCopied.dealloc hl' .silent
    obtain ⟨hCall, hSame⟩ := hMoves _ hDealloc
    refine ⟨fresh, _, hCall, Or.inr ⟨t'.free b.offset, hNull, hne, hSteps.freed hFreed, ?_⟩⟩
    rw [hSame]
    exact hBacked

/-- A moved block begins as the one that it replaces did. -/
theorem byte_realloc {fresh i : Nat} (h : p.Backed r t) (hl : l ∈ p.leases)
    (hValid : (l.layout.resize newSize).Valid)
    (hRoom : p.heap.store.HasRoom t (l.layout.resize newSize).request)
    (hCall : p.heap.realloc .silent l.address l.layout newSize = .ok (fresh, heap))
    (hNull : fresh ≠ null) (hi : i < min l.layout.size newSize) :
    heap.store.memory.byte (fresh + i) = p.memory.byte (l.address + i) := by
  -- to an owner who knows every byte, what is carried over is what was there
  have hAll : Backed { p with known := fun x => some (p.memory.byte x) } r t :=
    h.write (fun _ _ => rfl) fun _ _ _ hKnows => Option.some.inj hKnows
  obtain ⟨fresh', heap', hCall', ⟨rfl, -⟩ | ⟨t', -, hne, -, hBacked⟩⟩ :=
    hAll.realloc hl hValid hRoom
  · obtain ⟨rfl, -⟩ := Prod.mk.inj (Except.ok.inj (hCall.symm.trans hCall'))
    exact absurd rfl hNull
  · obtain ⟨rfl, rfl⟩ := Prod.mk.inj (Except.ok.inj (hCall.symm.trans hCall'))
    rw [gain_eq hNull] at hBacked
    obtain ⟨b, -, hLodged⟩ := hBacked.lodged ⟨fresh, l.layout.resize newSize, _⟩
      (List.mem_filter.mpr ⟨List.mem_cons_self, by simpa using hne⟩)
    have hLt : i < (l.layout.resize newSize).size := by
      show i < newSize
      omega
    refine hLodged.contents (fresh + i) ⟨Nat.le_add_right _ _, Nat.add_lt_add_left hLt _⟩ _ ?_
    exact (known_hold heap hLt).trans (if_pos hi)

end Backed

-- ---------------------------------------------------------------------------
-- Requests
-- ---------------------------------------------------------------------------

/-- There is room in the counters for a request. -/
def HasRoom (p : Program) (t : Tiling) : Demand → Prop
  | .alloc layout | .allocZeroed layout => p.heap.store.HasRoom t layout.request
  | .realloc _ layout newSize => p.heap.store.HasRoom t (layout.resize newSize).request
  | .dealloc _ _ => True

/-- The blocks that are held, what is in memory and the chain are as they were. -/
structure Spared (p p' : Program) : Prop where
  leases : p'.leases = p.leases
  known : p'.known = p.known
  memory : p'.memory = p.memory
  chunks : p'.heap.store.chunks = p.heap.store.chunks

/-- The program holds a block at `address`, which is as aligned as its layout says. -/
def Granted (p : Program) (address : Nat) (layout : Layout) : Prop :=
  address % layout.align = 0 ∧ p.Owns address layout

/-- What an answer promises. -/
def Answers (p : Program) (address : Nat) (p' : Program) : Demand → Prop
  | .alloc layout =>
    if address = null then p.Spared p'
    else p'.Granted address layout
  | .allocZeroed layout =>
    if address = null then p.Spared p'
    else p'.Granted address layout ∧ ∀ i < layout.size, p'.memory.byte (address + i) = 0
  | .realloc old layout newSize =>
    if address = null then p.Spared p'
    else p'.Granted address (layout.resize newSize) ∧
      ∀ i < min layout.size newSize, p'.memory.byte (address + i) = p.memory.byte (old + i)
  | .dealloc old _ => ∀ l ∈ p'.leases, l.address ≠ old

theorem Backed.granted (h : p.Backed r t) (hl : l ∈ p.leases) :
    p.Granted l.address l.layout := by
  obtain ⟨b, -, hLodged⟩ := h.lodged l hl
  exact ⟨hLodged.placed.aligned, l, hl, rfl, rfl⟩

theorem Backed.spared (h : p.Backed r t)
    (hRefused : Store.Refused r t p.heap.store heap.store) :
    p.Spared { p with heap := heap } where
  leases := rfl
  known := rfl
  memory := hRefused.memory
  chunks := hRefused.represents.chunks_eq.trans h.represents.chunks_eq.symm

/-- A request that returned had room in its counter. -/
theorem Backed.hasRoom {demand : Demand} {result : Nat × Program} (h : p.Backed r t)
    (hAllowed : p.Allows demand) (hCall : p.perform demand = .ok result) :
    p.HasRoom t demand := by
  have hAlloc : ∀ {layout : Layout} {outcome : Nat × SharedHeap}, layout.Valid →
      p.heap.alloc .silent layout = .ok outcome →
      p.heap.store.HasRoom t layout.request := by
    intro layout outcome hValid hAlloc
    obtain ⟨a, hAttempt⟩ := SharedHeap.attempt_of_serve hAlloc
    exact h.represents.hasRoom_of_attempt hValid hAttempt
  cases demand with
  | alloc layout =>
    obtain ⟨outcome, hServed, -⟩ := bind_eq_ok_iff.mp hCall
    exact hAlloc hAllowed hServed
  | allocZeroed layout =>
    obtain ⟨outcome, hCleared, -⟩ := bind_eq_ok_iff.mp hCall
    obtain ⟨outcome, hServed, -⟩ := bind_eq_ok_iff.mp hCleared
    exact hAlloc hAllowed hServed
  | realloc address layout newSize =>
    obtain ⟨outcome, hMoved, -⟩ := bind_eq_ok_iff.mp hCall
    obtain ⟨outcome, hServed, -⟩ := bind_eq_ok_iff.mp hMoved
    exact hAlloc hAllowed.2 hServed
  | dealloc address layout => trivial

theorem HasRoom.of_counters {demand : Demand}
    (hAllocations : p.heap.store.heap.counters.allocations + 1 < Word.limit)
    (hFailed : p.heap.store.heap.counters.failedAllocations + 1 < Word.limit) :
    p.HasRoom t demand := by
  cases demand with
  | alloc layout | allocZeroed layout => exact ⟨fun _ => hAllocations, fun _ => hFailed⟩
  | realloc address layout newSize => exact ⟨fun _ => hAllocations, fun _ => hFailed⟩
  | dealloc address layout => trivial

/-- **A correct request** is answered, keeps its promise, and leaves every block backed. -/
theorem Backed.perform {demand : Demand} (h : p.Backed r t) (hAllowed : p.Allows demand)
    (hRoom : p.HasRoom t demand) :
    ∃ address p', p.perform demand = .ok (address, p') ∧ (∃ t', p'.Backed r t') ∧
      Store.Steps r p.heap.store p'.heap.store ∧ p.Answers address p' demand := by
  cases demand with
  | alloc layout =>
    obtain ⟨address, heap, hCall, ⟨rfl, hRefused⟩ | ⟨o, t', hNull, hAllocated, hBacked⟩⟩ :=
      h.alloc hAllowed hRoom <;>
      unfold Program.perform <;> simp only <;> rw [hCall, ok_bind]
    · exact ⟨null, _, rfl, ⟨t, h.refused hRefused⟩, (Conducted.refused rfl hRefused).steps,
        h.spared hRefused⟩
    · refine ⟨address, _, rfl, ⟨t', hBacked⟩, ?_⟩
      unfold Answers
      simp only
      rw [gain_eq hNull] at hBacked ⊢
      rw [if_neg hNull]
      exact ⟨(Conducted.allocated o _ hAllocated).steps, hBacked.granted List.mem_cons_self⟩
  | allocZeroed layout =>
    obtain ⟨address, heap, hCall, ⟨rfl, hRefused⟩ | ⟨t', hNull, hSteps, hBacked⟩⟩ :=
      h.allocZeroed hAllowed hRoom <;>
      unfold Program.perform <;> simp only <;> rw [hCall, ok_bind]
    · exact ⟨null, _, rfl, ⟨t, h.refused hRefused⟩, (Conducted.refused rfl hRefused).steps,
        h.spared hRefused⟩
    · refine ⟨address, _, rfl, ⟨t', hBacked⟩, ?_⟩
      unfold Answers
      simp only
      rw [gain_eq hNull] at hBacked ⊢
      rw [if_neg hNull]
      refine ⟨hSteps, hBacked.granted List.mem_cons_self, fun i hi => ?_⟩
      obtain ⟨b, -, hLodged⟩ := hBacked.lodged _ List.mem_cons_self
      exact hLodged.contents (address + i)
        ⟨Nat.le_add_right _ _, Nat.add_lt_add_left hi _⟩ 0 (known_hold heap hi)
  | realloc old layout newSize =>
    obtain ⟨⟨l, hl, rfl, rfl⟩, hValid⟩ := hAllowed
    obtain ⟨fresh, heap, hCall, ⟨rfl, hRefused⟩ | ⟨t', hNull, hne, hSteps, hBacked⟩⟩ :=
      h.realloc hl hValid hRoom <;>
      unfold Program.perform <;> simp only <;> rw [hCall, ok_bind]
    · exact ⟨null, _, rfl, ⟨t, h.refused hRefused⟩, (Conducted.refused rfl hRefused).steps,
        h.spared hRefused⟩
    · simp only
      rw [if_neg hNull]
      refine ⟨fresh, _, rfl, ⟨t', hBacked⟩, ?_⟩
      unfold Answers
      simp only
      rw [gain_eq hNull] at hBacked ⊢
      rw [if_neg hNull]
      exact ⟨hSteps,
        hBacked.granted (List.mem_filter.mpr ⟨List.mem_cons_self, by simpa using hne⟩),
        fun i hi => h.byte_realloc hl hValid hRoom hCall hNull hi⟩
  | dealloc old layout =>
    obtain ⟨l, hl, rfl, rfl⟩ := hAllowed
    obtain ⟨b, s', -, -, -, hCall, hPerm, hFreed, hBacked⟩ := h.dealloc hl .silent
    unfold Program.perform
    simp only
    rw [hCall, ok_bind]
    exact ⟨null, _, rfl, ⟨_, hBacked⟩, (Conducted.freed b rfl hPerm hFreed).steps,
      fun k hk => by simpa using (List.mem_filter.mp hk).2⟩

-- ---------------------------------------------------------------------------
-- Runs
-- ---------------------------------------------------------------------------

/-- **In every run of a correct program every block is backed**, and each request was counted
once. -/
theorem Run.backed {config : Config} {log : List Demand}
    (hStart : Store.LaidOut r config s heap.store) (hRun : Run (.fresh heap) log p) :
    (∃ t, p.Backed r t) ∧ p.heap.store.heap.counters.allocations ≤ log.length ∧
      p.heap.store.heap.counters.failedAllocations ≤ log.length := by
  induction hRun with
  | start =>
    exact ⟨⟨_, .fresh hStart⟩, hStart.allocations.le, hStart.failedAllocations.le⟩
  | @call log p p' demand address _ hAllowed hCall ih =>
    obtain ⟨⟨t, hBacked⟩, hAllocations, hFailed⟩ := ih
    obtain ⟨address', p'', hCall', hBacked', ⟨hCounts, -⟩, -⟩ :=
      hBacked.perform hAllowed (hBacked.hasRoom hAllowed hCall)
    obtain ⟨-, rfl⟩ := Prod.mk.inj (Except.ok.inj (hCall.symm.trans hCall'))
    unfold Store.CountsOne at hCounts
    rw [List.length_append, List.length_singleton]
    exact ⟨hBacked', by omega, by omega⟩
  | @write log p m written _ hWrites ih =>
    obtain ⟨⟨t, hBacked⟩, hAllocations, hFailed⟩ := ih
    exact ⟨⟨t, hBacked.writes hWrites⟩, hAllocations, hFailed⟩

/-- **No request is stuck** in a run of fewer requests than a counter can count. -/
theorem Run.progress {config : Config} {log : List Demand} {demand : Demand}
    (hStart : Store.LaidOut r config s heap.store) (hRun : Run (.fresh heap) log p)
    (hAllowed : p.Allows demand) (hCalls : log.length + 1 < Word.limit) :
    ∃ address p', p.perform demand = .ok (address, p') := by
  obtain ⟨⟨t, hBacked⟩, hAllocations, hFailed⟩ := Run.backed hStart hRun
  obtain ⟨address, p', hCall, -⟩ :=
    hBacked.perform hAllowed (HasRoom.of_counters (by omega) (by omega))
  exact ⟨address, p', hCall⟩

end Program

end RegionHeap
