import RegionHeap.Proofs.Client
import RegionHeap.Proofs.Walk

/-!
# Live payloads are apart

The headers, the ring links and the payloads of a heap share one region. They never meet:
what callers hold is apart from every header and from what other callers hold, and no call
changes a byte that its callers keep.

* `Client.Separated`, `Client.Frames`, `Client.Grants`: what this says of one state, of one
  call, and of one allocation.
* `Tracks.separated`, `Conducted.frames`: it holds of whatever is in step with a tiling.
* `correct_run_separated`: it holds in every state that a correct client can bring about,
  and fresh payloads have the contents that were asked for.
-/

namespace RegionHeap

variable {r : Region} {b d : Block} {s s' : Store} {t t' : Tiling} {c c' : Client}

namespace Client

/-- The payloads of the live pointers are aligned, inside the region, apart from each other
and apart from every header of the chain. -/
structure Separated (c : Client) (r : Region) : Prop where
  nodup : c.live.Nodup
  inside : ∀ p ∈ c.live, ∃ n, c.store.usableSize p = .ok (.ok n) ∧
    p % Word.alignment = 0 ∧ n % Word.alignment = 0 ∧ r.base ≤ p ∧ p + n ≤ r.stop
  disjoint : ∀ p ∈ c.live, ∀ q ∈ c.live, p ≠ q → ∀ n k,
    c.store.usableSize p = .ok (.ok n) → c.store.usableSize q = .ok (.ok k) →
      p + n ≤ q ∨ q + k ≤ p
  headers : ∃ chain, c.store.chunks = .ok chain ∧ ∀ p ∈ c.live, ∀ n,
    c.store.usableSize p = .ok (.ok n) → ∀ a ∈ chain,
      p + n ≤ r.base + a.offset ∨ r.base + a.offset + headerSize ≤ p

/-- A call changes nothing outside the region, and nothing in a payload that is live before
and after it. -/
structure Frames (c : Client) (r : Region) (c' : Client) : Prop where
  outside : ∀ x, x < r.base ∨ r.stop ≤ x → c'.store.memory.byte x = c.store.memory.byte x
  kept : ∀ p ∈ c.live, p ∈ c'.live → ∃ n, c.store.usableSize p = .ok (.ok n) ∧
    c'.store.usableSize p = .ok (.ok n) ∧
    ∀ x, p ≤ x → x < p + n → c'.store.memory.byte x = c.store.memory.byte x

/-- An allocation hands out a pointer that was not live, with room for `size` bytes. -/
structure Grants (c : Client) (size p : Nat) (c' : Client) : Prop where
  fresh : p ∉ c.live
  live : c'.live = p :: c.live
  room : ∃ n, size ≤ n ∧ c'.store.usableSize p = .ok (.ok n)

end Client

-- ---------------------------------------------------------------------------
-- Payloads of used blocks
-- ---------------------------------------------------------------------------

namespace Store.Represents

/-- A payload lies inside the region. -/
theorem payload_inside (h : s.Represents r t) (hb : b ∈ t.used) :
    r.base ≤ r.payload b.offset ∧ r.payload b.offset + b.size ≤ r.stop := by
  have hBounds := h.holds.tiled.bounds (Tiling.mem_used.mp hb).1
  have := r.tail_add_headerSize
  unfold Block.stop at hBounds
  unfold Region.payload Region.stop
  omega

/-- Between the payloads of two used blocks there is room for a header. -/
theorem payload_gap (h : s.Represents r t) (hb : b ∈ t.used) (hd : d ∈ t.used)
    (hne : b.offset ≠ d.offset) :
    r.payload b.offset + b.size + headerSize ≤ r.payload d.offset ∨
      r.payload d.offset + d.size + headerSize ≤ r.payload b.offset := by
  unfold Region.payload
  rcases h.holds.tiled.apart (Tiling.mem_used.mp hb).1 (Tiling.mem_used.mp hd).1 with
    rfl | hBelow | hAbove
  · exact absurd rfl hne
  · unfold Block.stop at hBelow
    omega
  · unfold Block.stop at hAbove
    omega

/-- Payloads of two used blocks are apart. -/
theorem payload_apart (h : s.Represents r t) (hb : b ∈ t.used) (hd : d ∈ t.used)
    (hne : b.offset ≠ d.offset) :
    r.payload b.offset + b.size ≤ r.payload d.offset ∨
      r.payload d.offset + d.size ≤ r.payload b.offset := by
  have := h.payload_gap hb hd hne
  omega

/-- Used blocks are told apart by their offsets. -/
theorem eq_of_offset (h : s.Represents r t) (hb : b ∈ t.used) (hd : d ∈ t.used)
    (hOffset : b.offset = d.offset) : b = d :=
  eq_of_distinct h.holds.distinct (Tiling.mem_used.mp hb).1 (Tiling.mem_used.mp hd).1 hOffset

end Store.Represents

/-- The block that an allocation uses starts at a new offset. -/
theorem Store.Allocated.offset_ne {o size : Nat} (h : Store.Allocated r t t' o size s s')
    (hPerm : t'.used.Perm (d :: t.used)) (hb : b ∈ t.used) : b.offset ≠ d.offset := by
  intro hOffset
  have hNodup : (t'.used.map Block.offset).Nodup :=
    (List.filter_sublist.map _).nodup h.represents.holds.distinct
  have hCons := (hPerm.map Block.offset).nodup_iff.mp hNodup
  exact (List.nodup_cons.mp hCons).1 (hOffset ▸ List.mem_map_of_mem hb)

/-- The payloads of a client that is in step with a tiling are separated. -/
theorem Client.Tracks.separated (h : c.Tracks r t) : c.Separated r where
  nodup := h.nodup
  inside p hp := by
    obtain ⟨b, hb, rfl⟩ := h.exists_used hp
    exact ⟨b.size, h.represents.usableSize hb, h.represents.payload_aligned hb,
      (h.represents.holds.tiled.payload (Tiling.mem_used.mp hb).1).2,
      h.represents.payload_inside hb⟩
  disjoint p hp q hq hne n k hn hk := by
    obtain ⟨b, hb, rfl⟩ := h.exists_used hp
    obtain ⟨d, hd, rfl⟩ := h.exists_used hq
    rw [h.represents.usableSize hb] at hn
    rw [h.represents.usableSize hd] at hk
    obtain rfl := Except.ok.inj (Except.ok.inj hn)
    obtain rfl := Except.ok.inj (Except.ok.inj hk)
    exact h.represents.payload_apart hb hd fun hOffset => hne (by rw [hOffset])
  headers := by
    refine ⟨t.chunks r, h.represents.chunks_eq, fun p hp n hn a ha => ?_⟩
    obtain ⟨b, hb, rfl⟩ := h.exists_used hp
    rw [h.represents.usableSize hb] at hn
    obtain rfl := Except.ok.inj (Except.ok.inj hn)
    have hApart := Region.header_apart_payload h.represents.holds.tiled
      (Tiling.offset_mem_headers ha) (Tiling.mem_used.mp hb).1
    unfold Block.stop at hApart
    unfold Region.payload
    omega

-- ---------------------------------------------------------------------------
-- What a call leaves as it was
-- ---------------------------------------------------------------------------

namespace Conducted

/-- No call changes a byte outside the region. -/
theorem byte_outside (h : Conducted r t t' s s') {x : Nat} (hx : x < r.base ∨ r.stop ≤ x) :
    s'.memory.byte x = s.memory.byte x := by
  cases h with
  | allocated o size h =>
    obtain ⟨d, rfl, hSize, hPerm⟩ := h.used
    obtain ⟨m, hEdits, hSame⟩ := h.edits
    have hInside := h.represents.payload_inside (hPerm.mem_iff.mpr List.mem_cons_self)
    rw [hSame x (by omega), hEdits.byte_outside hx]
  | refused _ h => rw [h.memory]
  | freed b hFree _ h =>
    exact h.edits.byte_outside hx

/-- No call changes a byte of a block that is used before and after it. -/
theorem byte_kept (h : Conducted r t t' s s') (hb : b ∈ t.used) (hb' : b ∈ t'.used) {x : Nat}
    (hLow : r.payload b.offset ≤ x) (hHigh : x < r.payload b.offset + b.size) :
    s'.memory.byte x = s.memory.byte x := by
  cases h with
  | allocated o size h =>
    obtain ⟨d, rfl, hSize, hPerm⟩ := h.used
    obtain ⟨m, hEdits, hSame⟩ := h.edits
    have hd : d ∈ t'.used := hPerm.mem_iff.mpr List.mem_cons_self
    have hApart := h.represents.payload_apart hb' hd (h.offset_ne hPerm hb)
    rw [hSame x (by omega), hEdits.byte_kept hb hLow hHigh]
  | refused _ h => rw [h.memory]
  | freed d hFree _ h =>
    rw [hFree] at hb'
    exact h.edits.byte_kept hb' hLow hHigh

/-- A block that is used before and after a call is the same block. -/
theorem eq_of_offset {d : Block} (h : Conducted r t t' s s') (hRep : s.Represents r t)
    (hRep' : s'.Represents r t') (hb : b ∈ t.used) (hd : d ∈ t'.used)
    (hOffset : b.offset = d.offset) : b = d := by
  cases h with
  | allocated o size h =>
    obtain ⟨_, -, -, hPerm⟩ := h.used
    exact hRep'.eq_of_offset (hPerm.mem_iff.mpr (List.mem_cons_of_mem _ hb)) hd hOffset
  | refused hSame _ =>
    rw [hSame] at hd
    exact hRep.eq_of_offset hb hd hOffset
  | freed _ _ hPerm _ =>
    exact hRep.eq_of_offset hb (hPerm.mem_iff.mpr (List.mem_cons_of_mem _ hd)) hOffset

/-- **The frame of a call.** -/
theorem frames (h : Conducted r t t' c.store c'.store) (hTracks : c.Tracks r t)
    (hTracks' : c'.Tracks r t') : c.Frames r c' where
  outside _ hx := h.byte_outside hx
  kept p hp hp' := by
    obtain ⟨b, hb, rfl⟩ := hTracks.exists_used hp
    obtain ⟨d, hd, hOffset⟩ := hTracks'.exists_used hp'
    obtain rfl := h.eq_of_offset hTracks.represents hTracks'.represents hb hd
      (Client.payload_injective r hOffset).symm
    exact ⟨b.size, hTracks.represents.usableSize hb, hTracks'.represents.usableSize hd,
      fun _ hLow hHigh => h.byte_kept hb hd hLow hHigh⟩

end Conducted

-- ---------------------------------------------------------------------------
-- What fresh payloads hold
-- ---------------------------------------------------------------------------

namespace Client.Tracks

theorem grants {o size : Nat} (h : c.Tracks r t)
    (hAllocated : Store.Allocated r t t' o size c.store s') :
    c.Grants size (r.payload o) (c.allocated (.ok (r.payload o), s')).2 := by
  obtain ⟨d, rfl, hSize, hPerm⟩ := hAllocated.used
  have hd : d ∈ t'.used := hPerm.mem_iff.mpr List.mem_cons_self
  refine ⟨fun hLive => ?_, rfl, d.size, hSize, hAllocated.represents.usableSize hd⟩
  obtain ⟨b, hb, hOffset⟩ := h.exists_used hLive
  exact hAllocated.offset_ne hPerm hb (payload_injective r hOffset)

/-- What an allocation that succeeds hands out, filled as configured. -/
theorem grants_allocate (h : c.Tracks r t) {size p : Nat}
    (hCall : c.perform (.allocate size) = .ok (.allocated (.ok p), c')) :
    c.Grants size p c' ∧ ∀ byte, c.store.heap.config.fillByte = some byte →
      ∀ x, p ≤ x → x < p + size → c'.store.memory.byte x = byte := by
  rcases h.represents.allocate (h.hasRoom_of_perform hCall) with
    ⟨-, s', hAllocate, -⟩ | ⟨o, t', s', -, hAllocate, hAllocated, hFilled⟩ <;>
    unfold Client.perform at hCall <;> simp only at hCall <;> rw [hAllocate, ok_bind] at hCall
  · obtain ⟨hAnswer, -⟩ := Prod.mk.inj (Except.ok.inj hCall)
    exact absurd (Answer.allocated.inj hAnswer) (by simp)
  · obtain ⟨hAnswer, rfl⟩ := Prod.mk.inj (Except.ok.inj hCall)
    obtain rfl := Except.ok.inj (Answer.allocated.inj hAnswer)
    exact ⟨h.grants hAllocated, hFilled⟩

/-- Zeroed memory is zero, whatever the configuration. -/
theorem grants_allocateZeroed (h : c.Tracks r t) {size p : Nat}
    (hCall : c.perform (.allocateZeroed size) = .ok (.allocated (.ok p), c')) :
    c.Grants size p c' ∧ ∀ x, p ≤ x → x < p + size → c'.store.memory.byte x = 0 := by
  rcases h.represents.allocateZeroed (h.hasRoom_of_perform hCall) with
    ⟨-, s', hAllocate, -⟩ | ⟨o, t', s', -, hAllocate, hAllocated, hZero⟩ <;>
    unfold Client.perform at hCall <;> simp only at hCall <;> rw [hAllocate, ok_bind] at hCall
  · obtain ⟨hAnswer, -⟩ := Prod.mk.inj (Except.ok.inj hCall)
    exact absurd (Answer.allocated.inj hAnswer) (by simp)
  · obtain ⟨hAnswer, rfl⟩ := Prod.mk.inj (Except.ok.inj hCall)
    obtain rfl := Except.ok.inj (Answer.allocated.inj hAnswer)
    exact ⟨h.grants hAllocated, hZero⟩

end Client.Tracks

-- ---------------------------------------------------------------------------
-- Every correct run
-- ---------------------------------------------------------------------------

/-- **In every state that a correct client can bring about, live payloads are apart** from
each other and from every header; every next call returns, changes nothing outside the
region or in a payload that stays live, and hands fresh payloads out filled as configured,
or zeroed. -/
theorem correct_run_separated {start stop : Nat} {config : Config} {log : List Exchange}
    (hInit : s.init start stop config = .ok (.ok (), s'))
    (hRun : Client.Run .correct ⟨s', []⟩ log c) :
    ∃ r, Region.ofBounds? start stop = .ok r ∧ c.Separated r ∧
      (∀ request, Protocol.correct.allows c request → log.length + 1 < Word.limit →
        ∃ answer c', c.perform request = .ok (answer, c')) ∧
      (∀ request answer c', Protocol.correct.allows c request →
        c.perform request = .ok (answer, c') → c.Frames r c') ∧
      (∀ size p c', c.perform (.allocate size) = .ok (.allocated (.ok p), c') →
        c.Grants size p c' ∧ ∀ byte, config.fillByte = some byte →
          ∀ x, p ≤ x → x < p + size → c'.store.memory.byte x = byte) ∧
      ∀ size p c', c.perform (.allocateZeroed size) = .ok (.allocated (.ok p), c') →
        c.Grants size p c' ∧ ∀ x, p ≤ x → x < p + size → c'.store.memory.byte x = 0 := by
  obtain ⟨r, hBounds, hLaidOut⟩ := Store.laidOut_of_init hInit
  obtain ⟨hTracks, -, hConfig, -⟩ := Client.Run.tracks hLaidOut hRun
  refine ⟨r, hBounds, hTracks.separated, ?_, ?_, ?_, ?_⟩
  · intro request hAllowed hCalls
    obtain ⟨c', hCall⟩ := Client.Run.progress hLaidOut hRun hAllowed hCalls
    exact ⟨_, c', hCall⟩
  · intro request answer c' hAllowed hCall
    obtain ⟨c'', hCall', hTracks', hConducted⟩ :=
      hTracks.perform hAllowed (hTracks.hasRoom_of_perform hCall)
    obtain ⟨-, rfl⟩ := Prod.mk.inj (Except.ok.inj (hCall.symm.trans hCall'))
    exact hConducted.frames hTracks hTracks'
  · intro size p c' hCall
    rw [← hConfig]
    exact hTracks.grants_allocate hCall
  · intro size p c' hCall
    exact hTracks.grants_allocateZeroed hCall

/-- Two payloads beside the place of a third that was freed. -/
theorem correct_run_separated_two_live :
    ∃ s' log c, Store.init ⟨Heap.empty, Memory.blank⟩ 65536 66560 (.withFill .unchecked 0xAA) =
        .ok (.ok (), s') ∧
      Client.Run .correct ⟨s', []⟩ log c ∧
      requests log = [.allocate 24, .allocateZeroed 100, .allocate 200, .free 65664] ∧
      c.live.Perm [65600, 65808] ∧ c.Separated .kibibyte := by
  obtain ⟨s', hInit, hLaidOut⟩ := Store.init_kibibyte (.withFill .unchecked 0xAA)
  obtain ⟨log, c, hRun, hRequests⟩ := Client.Run.extend hLaidOut
    [.allocate 24, .allocateZeroed 100, .allocate 200, .free 65664]
    (.start trivial) (by decide) (by decide)
  obtain ⟨r, hBounds, hSeparated, -⟩ := correct_run_separated hInit hRun
  obtain rfl : r = .kibibyte := (Except.ok.inj hBounds).symm
  have hLive := (Client.Run.tracks hLaidOut hRun).1.live
  rw [Tiling.replay, hRequests] at hLive
  exact ⟨s', log, c, hInit, hRun, hRequests, hLive, hSeparated⟩

end RegionHeap
