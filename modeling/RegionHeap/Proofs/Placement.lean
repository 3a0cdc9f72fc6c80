import RegionHeap.Proofs.Separation
import RegionHeap.Shared.Basic

/-!
# Blocks inside payloads

A block whose alignment exceeds that of payloads is placed inside a larger payload, behind a
back-reference. Whatever the alignment, a block stays inside the bytes that the heap was asked
for on its behalf.

* `Layout.request`: how many bytes the heap is asked for.
* `Layout.Placed`: where a block may lie in its payload.
* `Store.place_spec`: placing a block writes inside the payload only, and its payload can be
  found again.
* `Store.attempt_alloc`, `Store.attempt_dealloc`: allocating is asking for a payload and
  placing the block in it, giving a block back is freeing its payload.
* `Represents.attempt_alloc`: what becomes of a heap that is asked for a block.
-/

namespace RegionHeap

variable {layout : Layout} {raw address : Nat} {r : Region} {s s' : Store} {t t' : Tiling}

-- ---------------------------------------------------------------------------
-- Alignments
-- ---------------------------------------------------------------------------

/-- Rounding up gives a multiple that is less than one alignment away. -/
theorem Word.roundUp_spec {align : Nat} (n : Nat) (hAlign : 0 < align) :
    n ≤ roundUp n align ∧ roundUp n align < n + align ∧ roundUp n align % align = 0 := by
  have hSplit := Nat.div_add_mod (n + align - 1) align
  have hLt := Nat.mod_lt (n + align - 1) hAlign
  rw [Nat.mul_comm] at hSplit
  unfold roundUp
  exact ⟨by omega, by omega, Nat.mul_mod_left _ _⟩

/-- Regions end below the last aligned address. -/
theorem Region.stop_add_alignment_le (r : Region) : r.stop + Word.alignment ≤ Word.limit := by
  have hBase := r.base_aligned
  have hSize := r.size_aligned
  have hStop := r.stop_lt
  obtain ⟨-, -, -, -, hLimit⟩ := sizes_eq
  unfold Region.stop
  unfold Word.alignment at *
  omega

namespace Layout

theorem Valid.align_pos (h : layout.Valid) : 0 < layout.align := by
  rw [h.1, Nat.one_shiftLeft]
  exact Nat.two_pow_pos _

/-- Payloads are aligned enough for every layout that says so. -/
theorem Valid.mod_align (h : layout.Valid) (hFits : layout.fitsPayload = true)
    (hRaw : raw % Word.alignment = 0) : raw % layout.align = 0 := by
  have hLe : 2 ^ layout.align.log2 ≤ 2 ^ 4 := by
    rw [← Nat.one_shiftLeft, ← h.1]
    exact of_decide_eq_true hFits
  have hDvd : layout.align ∣ Word.alignment := by
    rw [h.1, Nat.one_shiftLeft]
    exact Nat.pow_dvd_pow 2 ((Nat.pow_le_pow_iff_right (by decide)).mp hLe)
  exact Nat.mod_eq_zero_of_dvd (hDvd.trans (Nat.dvd_of_mod_eq_zero hRaw))

/-- What is aligned for a layout that payloads do not fit is aligned as payloads are. -/
theorem Valid.mod_alignment (h : layout.Valid) (hFits : layout.fitsPayload = false)
    (hAligned : address % layout.align = 0) : address % Word.alignment = 0 := by
  have hLt : Word.alignment < layout.align := by simpa [fitsPayload] using hFits
  have hPower : layout.align = 2 ^ layout.align.log2 := by rw [← Nat.one_shiftLeft, ← h.1]
  have hLe : 2 ^ 4 ≤ 2 ^ layout.align.log2 := by
    rw [← hPower]
    exact hLt.le
  have hDvd : Word.alignment ∣ layout.align := by
    rw [hPower]
    exact Nat.pow_dvd_pow 2 ((Nat.pow_le_pow_iff_right (by decide)).mp hLe)
  exact Nat.mod_eq_zero_of_dvd (hDvd.trans (Nat.dvd_of_mod_eq_zero hAligned))

/-- How many bytes the heap is asked for: those of the block, and if payloads are not aligned
enough, room to move it and its back-reference. -/
def request (layout : Layout) : Nat :=
  if layout.fitsPayload then layout.size
  else layout.size + (layout.align - 1 + backReferenceSize)

theorem Valid.request_lt (h : layout.Valid) : layout.request < Word.limit := by
  have hSum : layout.size + layout.align ≤ 9223372036854775808 := h.2
  have := h.align_pos
  have := sizes_eq
  unfold request backReferenceSize
  split <;> omega

/-- The block at `address` lies in the payload at `raw`: it is aligned, it does not reach
beyond the bytes that were requested, and below it there is room for its back-reference, or
it is the payload itself. -/
structure Placed (layout : Layout) (raw address : Nat) : Prop where
  word : address < Word.limit
  aligned : address % layout.align = 0
  even : address % Word.alignment = 0
  low : raw ≤ address
  high : address + layout.size ≤ raw + layout.request
  whole : layout.fitsPayload = true → address = raw
  slot : layout.fitsPayload = false → raw + backReferenceSize ≤ address

end Layout

-- ---------------------------------------------------------------------------
-- Placing a block
-- ---------------------------------------------------------------------------

namespace Store

/-- Above the first few addresses, the back-reference is just below the block. -/
theorem backReference_eq (hLow : backReferenceSize ≤ address) (hHigh : address < Word.limit) :
    backReference address = address - backReferenceSize := by
  obtain ⟨-, -, -, -, hLimit⟩ := sizes_eq
  unfold backReference backReferenceSize at *
  rw [hLimit] at hHigh ⊢
  omega

/-- A block that is no payload has its back-reference just below it. -/
theorem rawAddress_eq (h : layout.Placed raw address) (hFits : layout.fitsPayload = false) :
    s.rawAddress address layout =
      s.memory.load (address - backReferenceSize) backReferenceSize := by
  have hSlot := h.slot hFits
  unfold rawAddress
  rw [if_neg (by simp [hFits]), backReference_eq (by omega) h.word]

/-- What is at or above a block, or below its payload, does not matter to where its payload
is. -/
theorem rawAddress_congr (h : layout.Placed raw address)
    (hSame : ∀ x, raw ≤ x → x < address → s'.memory.byte x = s.memory.byte x) :
    s'.rawAddress address layout = s.rawAddress address layout := by
  cases hFits : layout.fitsPayload with
  | true =>
    unfold rawAddress
    rw [if_pos hFits, if_pos hFits]
  | false =>
    have hSlot := h.slot hFits
    rw [rawAddress_eq h hFits, rawAddress_eq h hFits]
    refine Memory.load_congr fun x hLow hHigh => hSame x ?_ ?_
    · omega
    · unfold backReferenceSize at *
      omega

/-- **Placing a block** in a payload that ends early enough. No sum runs over, only requested
bytes below the block are written, and they lead back to the payload. -/
theorem place_spec (hValid : layout.Valid) (hRaw : raw % Word.alignment = 0)
    (hEnd : raw + layout.request + Word.alignment ≤ Word.limit) :
    ∃ address m, s.place layout raw = .ok (address, { s with memory := m }) ∧
      layout.Placed raw address ∧
      (∀ x, x < raw ∨ address ≤ x → m.byte x = s.memory.byte x) ∧
      rawAddress { s with memory := m } address layout = raw := by
  have hPos := hValid.align_pos
  have hSizes := sizes_eq
  unfold place
  cases hFits : layout.fitsPayload with
  | true =>
    refine ⟨raw, s.memory, rfl, ⟨by omega, hValid.mod_align hFits hRaw, hRaw, Nat.le_refl _, ?_,
      fun _ => rfl, fun h => absurd (hFits.symm.trans h) (by decide)⟩, fun _ _ => rfl, ?_⟩
    · unfold Layout.request
      rw [if_pos hFits]
    · unfold rawAddress
      rw [if_pos hFits]
  | false =>
    have hRequest : layout.request = layout.size + (layout.align - 1 + backReferenceSize) := by
      unfold Layout.request
      rw [if_neg (by simp [hFits])]
    obtain ⟨hLow, hHigh, hAligned⟩ := Word.roundUp_spec (raw + backReferenceSize) hPos
    have hSlot : backReference (Word.roundUp (raw + backReferenceSize) layout.align) =
        Word.roundUp (raw + backReferenceSize) layout.align - backReferenceSize :=
      backReference_eq (by omega) (by omega)
    refine ⟨Word.roundUp (raw + backReferenceSize) layout.align,
      s.memory.store (backReference (Word.roundUp (raw + backReferenceSize) layout.align))
        backReferenceSize raw, ?_, ?_, ?_, ?_⟩
    · simp only [Bool.false_eq_true, if_false]
      unfold placeAligned
      rw [Word.add_eq_ok_iff.mpr ⟨rfl, by omega⟩, ok_bind,
        Word.add_eq_ok_iff.mpr ⟨rfl, by omega⟩, ok_bind,
        Word.sub_eq_ok_iff.mpr ⟨by omega, rfl⟩, ok_bind]
      rfl
    · exact ⟨by omega, hAligned, hValid.mod_alignment hFits hAligned, by omega, by omega,
        fun h => absurd (hFits.symm.trans h) (by decide), fun _ => hLow⟩
    · intro x hx
      refine Memory.byte_store_of_outside ?_
      rw [hSlot]
      omega
    · unfold rawAddress
      rw [if_neg (by simp [hFits])]
      refine (Memory.load_store _ _ _ _).trans (Nat.mod_eq_of_lt ?_)
      show raw < 256 ^ backReferenceSize
      unfold backReferenceSize
      omega

-- ---------------------------------------------------------------------------
-- Attempts
-- ---------------------------------------------------------------------------

/-- For a block of a valid layout the heap is asked, and always for as many bytes. -/
theorem operation?_alloc (hValid : layout.Valid) (s : Store) :
    s.operation? (.alloc layout) = some (.allocate layout.request layout) := by
  have hLimit := hValid.request_lt
  unfold operation?
  unfold Layout.request at hLimit ⊢
  simp only
  by_cases hFits : layout.fitsPayload = true
  · rw [if_pos hFits, if_pos hFits]
  · rw [if_neg hFits] at hLimit
    rw [if_neg hFits, if_neg hFits, if_neg (by omega)]

/-- A block is given back by way of its payload. -/
theorem operation?_dealloc (hAddress : address ≠ null) (hRaw : s.rawAddress address layout = raw)
    (hNull : raw ≠ null) : s.operation? (.dealloc address layout) = some (.free raw layout) := by
  unfold operation?
  simp only [hRaw]
  exact if_neg (by simp [hAddress, hNull])

/-- **Allocating a block** is asking for a payload and placing the block in it. -/
theorem attempt_alloc (hValid : layout.Valid) (s : Store) :
    s.attempt (.alloc layout) = (do
      match ← s.allocate layout.request with
      | (.ok raw, s) =>
        let (address, s) ← s.place layout raw
        return { address := address, complaint := none, store := s }
      | (.error e, s) =>
        return {
          address := null
          complaint := some (.allocationFailed layout.size layout.align e)
          store := s }) := by
  unfold attempt
  simp only [operation?_alloc hValid]
  refine bind_congr fun ⟨answer, s'⟩ => ?_
  cases answer <;> rfl

/-- **Giving a block back** is freeing its payload. -/
theorem attempt_dealloc (hAddress : address ≠ null) (hRaw : s.rawAddress address layout = raw)
    (hNull : raw ≠ null) :
    s.attempt (.dealloc address layout) = (do
      match ← s.free raw with
      | (.ok (), s) => return { address := null, complaint := none, store := s }
      | (.error e, s) =>
        return {
          address := null
          complaint := some (.freeRejected raw layout.size e)
          store := s }) := by
  unfold attempt
  simp only [operation?_dealloc hAddress hRaw hNull]
  unfold operate
  simp only [bind_assoc, pure_bind]
  refine bind_congr fun ⟨answer, s'⟩ => ?_
  cases answer <;> rfl

/-- A block is given back if the heap frees its payload. -/
theorem attempt_dealloc_freed (hAddress : address ≠ null)
    (hRaw : s.rawAddress address layout = raw) (hNull : raw ≠ null)
    (hFree : s.free raw = .ok (.ok (), s')) :
    s.attempt (.dealloc address layout) =
      .ok { address := null, complaint := none, store := s' } := by
  rw [attempt_dealloc hAddress hRaw hNull, hFree]
  rfl

/-- A block whose payload the heap does not free is not given back. -/
theorem attempt_dealloc_refused {e : HeapError} (hAddress : address ≠ null)
    (hRaw : s.rawAddress address layout = raw) (hNull : raw ≠ null)
    (hFree : s.free raw = .ok (.error e, s)) :
    s.attempt (.dealloc address layout) =
      .ok { address := null, complaint := some (.freeRejected raw layout.size e), store := s } := by
  rw [attempt_dealloc hAddress hRaw hNull, hFree]
  rfl

/-- The payload that the heap hands out when it is asked for a block, or null. -/
def rawFor (s : Store) (layout : Layout) : Nat :=
  match s.allocate layout.request with
  | .ok (.ok raw, _) => raw
  | _ => null

namespace Represents

/-- **A heap that is asked for a block** refuses and stays as it was, or places the block in
a new payload, from where the payload can be found again. -/
theorem attempt_alloc (h : s.Represents r t) (hValid : layout.Valid)
    (hRoom : s.HasRoom t layout.request) :
    (∃ a, s.attempt (.alloc layout) = .ok a ∧ a.address = null ∧ Refused r t s a.store) ∨
    ∃ o t' s' address, s.attempt (.alloc layout) = .ok ⟨address, none, s'⟩ ∧
      s.rawFor layout = r.payload o ∧ Allocated r t t' o layout.request s s' ∧
      s'.heap.counters.allocations < Word.limit ∧
      layout.Placed (r.payload o) address ∧ s'.rawAddress address layout = r.payload o := by
  rw [Store.attempt_alloc hValid]
  rcases h.allocate hRoom with
    ⟨-, s', hCall, hRefused⟩ | ⟨o, t', s', hTiling, hCall, hAllocated, -⟩
  · left
    rw [hCall, ok_bind]
    exact ⟨_, rfl, rfl, hRefused⟩
  · right
    obtain ⟨d, rfl, hSize, hPerm⟩ := hAllocated.used
    have hd : d ∈ t'.used := hPerm.mem_iff.mpr List.mem_cons_self
    have hInside := hAllocated.represents.payload_inside hd
    have hStop := r.stop_add_alignment_le
    obtain ⟨address, m, hPlace, hPlaced, hSame, hFound⟩ := place_spec (s := s') hValid
      (hAllocated.represents.payload_aligned hd) (by omega)
    have hRaw : s.rawFor layout = r.payload d.offset := by
      unfold rawFor
      rw [hCall]
    have hCount : s'.heap.counters.allocations < Word.limit := by
      rw [hAllocated.allocations]
      exact hRoom.1 (by simp [hTiling])
    refine ⟨d.offset, t', { s' with memory := m }, address, ?_, hRaw,
      hAllocated.of_payload fun x hx => hSame x ?_, hCount, hPlaced, hFound⟩
    · rw [hCall, ok_bind]
      simp only
      rw [hPlace, ok_bind]
      rfl
    · have := hPlaced.high
      omega

/-- A call that returned had room in its counter. -/
theorem hasRoom_of_attempt {a : Attempt} (h : s.Represents r t) (hValid : layout.Valid)
    (hCall : s.attempt (.alloc layout) = .ok a) : s.HasRoom t layout.request := by
  rw [Store.attempt_alloc hValid] at hCall
  obtain ⟨outcome, hAllocate, -⟩ := bind_eq_ok_iff.mp hCall
  exact h.hasRoom_of_allocate hAllocate

end Represents

end Store

end RegionHeap
