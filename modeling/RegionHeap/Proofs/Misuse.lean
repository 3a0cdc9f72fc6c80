import RegionHeap.Proofs.Integrity
import RegionHeap.Proofs.Separation
import RegionHeap.Proofs.Validation

/-!
# Freeing what was not allocated

A heap that validates refuses every pointer that is not live, also where a header once was:
headers that are given up keep the tag of a free chunk, and what calls write looks like the
tag of a used chunk nowhere else. The invariant is about all aligned words of the region.

* `Store.Traced`: a word that looks like the tag of a used chunk is the tag of one.
* `Conducted.traced`, `Client.Tracks.traced_write`: calls and writes keep it so, as long as
  no live payload holds such a word.
* `Traced.validate_refuses`: then no other pointer is accepted.
* `reckless_run_refuses_dead_pointers`: whatever a client frees, the heap is intact.
-/

namespace RegionHeap

variable {r : Region} {b : Block} {s s' : Store} {t t' : Tiling} {c c' : Client}

-- ---------------------------------------------------------------------------
-- Clients that free anything
-- ---------------------------------------------------------------------------

/-- No aligned word of a live payload looks like the tag of a used chunk. -/
def Client.Untagged (c : Client) : Prop :=
  ∀ p ∈ c.live, ∀ n, c.store.usableSize p = .ok (.ok n) →
    ∀ a, a % Word.alignment = 0 → p ≤ a → a < p + n → c.store.memory.load a 4 ≠ Mark.used.tag

/-- Anything may be freed, but live payloads stay untagged. -/
def Protocol.reckless : Protocol where
  allows _ _ := True
  admits c := c.Untagged

/-- Every aligned word of the region that looks like the tag of a used chunk is the tag of a
used block. -/
def Store.Traced (s : Store) (r : Region) (t : Tiling) : Prop :=
  ∀ a, a % Word.alignment = 0 → r.base ≤ a → a < r.stop →
    s.memory.load a 4 = Mark.used.tag →
      ∃ b ∈ t.used, a = r.base + b.offset + Field.tag.position

theorem Client.Tracks.untagged_iff (h : c.Tracks r t) :
    c.Untagged ↔ ∀ b ∈ t.used, ∀ a, a % Word.alignment = 0 → r.payload b.offset ≤ a →
      a < r.payload b.offset + b.size → c.store.memory.load a 4 ≠ Mark.used.tag := by
  constructor
  · intro hUntagged b hb
    exact hUntagged _ (h.payload_mem hb) b.size (h.represents.usableSize hb)
  · intro hUsed p hp n hn
    obtain ⟨b, hb, rfl⟩ := h.exists_used hp
    rw [h.represents.usableSize hb] at hn
    obtain rfl := Except.ok.inj (Except.ok.inj hn)
    exact hUsed b hb

-- ---------------------------------------------------------------------------
-- The invariant of all words
-- ---------------------------------------------------------------------------

/-- An aligned word lies in a payload or is apart from it. -/
theorem Store.Represents.word_apart (h : s.Represents r t) (hb : b ∈ t.used) {a : Nat}
    (hAligned : a % Word.alignment = 0) :
    (r.payload b.offset ≤ a ∧ a < r.payload b.offset + b.size) ∨
      a + 4 ≤ r.payload b.offset ∨ r.payload b.offset + b.size ≤ a := by
  have hPayload := h.payload_aligned hb
  unfold Word.alignment at *
  omega

/-- **A call** leaves no word behind that looks like the tag of a used chunk and is none. -/
theorem Conducted.traced (h : Conducted r t t' c.store c'.store) (hTracks : c'.Tracks r t')
    (hTraced : c.store.Traced r t) (hUntagged : c'.Untagged) : c'.store.Traced r t' := by
  intro a hAligned hLow hHigh hUsed
  cases h with
  | allocated o size h =>
    obtain ⟨d, rfl, hSize, hPerm⟩ := h.used
    obtain ⟨m, hEdits, hSame⟩ := h.edits
    have hd : d ∈ t'.used := hPerm.mem_iff.mpr List.mem_cons_self
    -- a word of the new payload is the client's; any other is as the edits left it
    rcases h.represents.word_apart hd hAligned with ⟨hIn, hIn'⟩ | hApart
    · exact absurd hUsed (hTracks.untagged_iff.mp hUntagged d hd a hAligned hIn hIn')
    · have hLoad : c'.store.memory.load a 4 = m.load a 4 :=
        Memory.load_congr fun x hx hx' => hSame x (by omega)
      rw [hLoad] at hUsed
      rcases hEdits.used_word hAligned hUsed with hBefore | ⟨y, hy, ha⟩
      · obtain ⟨b, hb, ha⟩ := hTraced a hAligned hLow hHigh hBefore
        exact ⟨b, hPerm.mem_iff.mpr (List.mem_cons_of_mem _ hb), ha⟩
      · rw [List.mem_singleton.mp hy] at ha
        exact ⟨d, hd, ha⟩
  | refused hSame h =>
    rw [h.memory] at hUsed
    rw [hSame]
    exact hTraced a hAligned hLow hHigh hUsed
  | freed b _ hPerm h =>
    rcases h.edits.used_word hAligned hUsed with hBefore | ⟨y, hy, -⟩
    · obtain ⟨d, hd, ha⟩ := hTraced a hAligned hLow hHigh hBefore
      rcases List.mem_cons.mp (hPerm.mem_iff.mp hd) with rfl | hKept
      · -- the tag of the freed block itself was overwritten
        rw [ha] at hUsed
        exact absurd hUsed h.tag
      · exact ⟨d, hKept, ha⟩
    · exact absurd hy (by simp)

/-- **Writing** into live payloads leaves no such word outside of them. -/
theorem Client.Tracks.traced_write (h : c.Tracks r t) {m : Memory}
    (hSame : ∀ x, ¬c.Owns x → m.byte x = c.store.memory.byte x)
    (hTraced : c.store.Traced r t) (hUntagged : (c.write m).Untagged) :
    (c.write m).store.Traced r t := by
  intro a hAligned hLow hHigh hUsed
  by_cases hIn : ∃ b ∈ t.used, r.payload b.offset ≤ a ∧ a < r.payload b.offset + b.size
  · obtain ⟨b, hb, hIn, hIn'⟩ := hIn
    exact absurd hUsed ((h.write hSame).untagged_iff.mp hUntagged b hb a hAligned hIn hIn')
  · -- the client owns no byte of the word, because payloads are made of whole words
    have hLoad : m.load a 4 = c.store.memory.load a 4 := by
      refine Memory.load_congr fun x hx hx' => hSame x fun hOwns => ?_
      obtain ⟨b, hb, hIn'⟩ := h.owns_iff.mp hOwns
      rcases h.represents.word_apart hb hAligned with hWord | hWord
      · exact hIn ⟨b, hb, hWord⟩
      · omega
    exact hTraced a hAligned hLow hHigh (hLoad.symm.trans hUsed)

/-- A heap that was set up where no word looked like the tag of a used chunk. -/
theorem Store.LaidOut.traced {config : Config} (h : Store.LaidOut r config s s')
    (hFree : ∀ a, a % Word.alignment = 0 → r.base ≤ a → a < r.stop →
      s.memory.load a 4 ≠ Mark.used.tag) : s'.Traced r (Tiling.initial r.size) := by
  intro a hAligned hLow hHigh hUsed
  rcases h.edits.used_word hAligned hUsed with hBefore | ⟨y, hy, -⟩
  · exact absurd hBefore (hFree a hAligned hLow hHigh)
  · exact absurd hy (by simp)

-- ---------------------------------------------------------------------------
-- Pointers that are not live
-- ---------------------------------------------------------------------------

namespace Store.Traced

/-- No header passes as that of a used chunk unless it is one. -/
theorem exists_used_of_passes (hTraced : s.Traced r t) {o : Nat}
    (hPasses : r.PassesAsUsed s.memory o) : ∃ b ∈ t.used, b.offset = o := by
  have hPosition : Field.tag.position = 16 := rfl
  have hWord : (r.base + o + Field.tag.position) % Word.alignment = 0 := by
    have hBase := r.base_aligned
    have hAligned := hPasses.aligned
    unfold Word.alignment at *
    omega
  have hBelow : r.base + o + Field.tag.position < r.stop := by
    have := hPasses.inside
    have := r.tail_add_headerSize
    have := sizes_eq
    unfold Region.stop
    omega
  obtain ⟨b, hb, hOffset⟩ := hTraced _ hWord (by omega) hBelow hPasses.tag
  exact ⟨b, hb, by omega⟩

/-- **Validation** refuses every pointer that is not that of a used block. -/
theorem validate_refuses (hTraced : s.Traced r t) {p : Nat}
    (hNot : ∀ b ∈ t.used, r.payload b.offset ≠ p) :
    ∃ defect, validate r s.memory p = .ok (.error (.corruption p defect)) := by
  rcases validate_cases r s.memory p with hRefused | ⟨o, rfl, -, hPasses⟩
  · exact hRefused
  · obtain ⟨b, hb, rfl⟩ := hTraced.exists_used_of_passes hPasses
    exact absurd rfl (hNot b hb)

end Store.Traced

namespace Client.Tracks

/-- A validating heap refuses to free a pointer that is not live, and does nothing. -/
theorem refuses (h : c.Tracks r t) (hTraced : c.store.Traced r t)
    (hValidate : c.store.heap.config.validateFrees = true) {p : Nat} (hp : p ∉ c.live) :
    ∃ defect, c.store.free p = .ok (.error (.corruption p defect), c.store) ∧
      c.store.usableSize p = .ok (.error (.corruption p defect)) := by
  obtain ⟨defect, hRefused⟩ := hTraced.validate_refuses (p := p) fun b hb hEq => hp <| by
    rw [← hEq]
    exact h.payload_mem hb
  obtain ⟨hQuery, hFree⟩ := Store.refused_of_validate h.represents.holds.region hRefused
  exact ⟨defect, hFree hValidate, hQuery⟩

/-- The client sees the refusal and keeps what it has. -/
theorem perform_refused (h : c.Tracks r t) (hTraced : c.store.Traced r t)
    (hValidate : c.store.heap.config.validateFrees = true) {p : Nat} (hp : p ∉ c.live) :
    ∃ defect, c.perform (.free p) = .ok (.freed (.error (.corruption p defect)), c) := by
  obtain ⟨defect, hRefused, -⟩ := h.refuses hTraced hValidate hp
  refine ⟨defect, ?_⟩
  unfold Client.perform
  simp only
  rw [hRefused, ok_bind]
  rfl

/-- A validating heap frees the live pointers and no others. -/
theorem free_accepts_iff (h : c.Tracks r t) (hTraced : c.store.Traced r t)
    (hValidate : c.store.heap.config.validateFrees = true) (p : Nat) :
    (∃ after, c.store.free p = .ok (.ok (), after)) ↔ p ∈ c.live := by
  constructor
  · rintro ⟨after, hAccepted⟩
    by_contra hp
    obtain ⟨defect, hRefused, -⟩ := h.refuses hTraced hValidate hp
    rw [hRefused] at hAccepted
    exact absurd hAccepted (by simp)
  · intro hp
    obtain ⟨b, hb, rfl⟩ := h.exists_used hp
    obtain ⟨after, hAccepted, -⟩ := h.represents.free hb (h.frees_lt hp)
    exact ⟨after, hAccepted⟩

/-- It tells the sizes of the live pointers and of no others. -/
theorem usableSize_accepts_iff (h : c.Tracks r t) (hTraced : c.store.Traced r t)
    (hValidate : c.store.heap.config.validateFrees = true) (p : Nat) :
    (∃ n, c.store.usableSize p = .ok (.ok n)) ↔ p ∈ c.live := by
  constructor
  · rintro ⟨n, hSize⟩
    by_contra hp
    obtain ⟨defect, -, hRefused⟩ := h.refuses hTraced hValidate hp
    rw [hRefused] at hSize
    exact absurd hSize (by simp)
  · intro hp
    obtain ⟨b, hb, rfl⟩ := h.exists_used hp
    exact ⟨b.size, h.represents.usableSize hb⟩

/-- Every call returns while the counters have room, whatever it frees. -/
theorem perform_returns (h : c.Tracks r t) (hTraced : c.store.Traced r t)
    (hValidate : c.store.heap.config.validateFrees = true) (request : Call)
    (hAllocations : c.store.heap.counters.allocations + 1 < Word.limit)
    (hFailed : c.store.heap.counters.failedAllocations + 1 < Word.limit) :
    ∃ answer c', c.perform request = .ok (answer, c') := by
  by_cases hAllowed : Protocol.correct.allows c request
  · obtain ⟨c', hCall, -⟩ := h.perform hAllowed (Client.HasRoom.of_counters hAllocations hFailed)
    exact ⟨_, c', hCall⟩
  · cases request with
    | allocate size => exact absurd trivial hAllowed
    | allocateZeroed size => exact absurd trivial hAllowed
    | free p =>
      obtain ⟨defect, hRefused⟩ := h.perform_refused hTraced hValidate hAllowed
      exact ⟨_, c, hRefused⟩

end Client.Tracks

-- ---------------------------------------------------------------------------
-- Every reckless run
-- ---------------------------------------------------------------------------

namespace Client.Run

variable {config : Config} {log : List Exchange}

/-- **A reckless run** stays in step with a tiling, and all words of the region stay traced. -/
theorem traced (hStart : Store.LaidOut r config s s') (hValidate : config.validateFrees = true)
    (hFree : ∀ a, a % Word.alignment = 0 → r.base ≤ a → a < r.stop →
      s.memory.load a 4 ≠ Mark.used.tag)
    (hRun : Run .reckless ⟨s', []⟩ log c) :
    ∃ t, c.Tracks r t ∧ c.store.Traced r t ∧ c.store.heap.config.validateFrees = true ∧
      c.store.heap.counters.allocations ≤ log.length ∧
      c.store.heap.counters.failedAllocations ≤ log.length := by
  induction hRun with
  | start _ =>
    refine ⟨_, tracks_of_laidOut hStart, hStart.traced hFree, ?_, hStart.allocations.le,
      hStart.failedAllocations.le⟩
    show s'.heap.config.validateFrees = true
    rw [hStart.config, hValidate]
  | @call log c c' request answer _ _ hCall hAdmits ih =>
    obtain ⟨t, hTracks, hTraced, hConfig, hAllocations, hFailed⟩ := ih
    rw [List.length_append, List.length_singleton]
    by_cases hAllowed : Protocol.correct.allows c request
    · obtain ⟨c'', hCall', hTracks', hConducted⟩ :=
        hTracks.perform hAllowed (hTracks.hasRoom_of_perform hCall)
      obtain ⟨-, rfl⟩ := Prod.mk.inj (Except.ok.inj (hCall.symm.trans hCall'))
      have hLe := hConducted.counters_le
      exact ⟨_, hTracks', hConducted.traced hTracks' hTraced hAdmits,
        hConducted.config_eq ▸ hConfig, by omega, by omega⟩
    · -- only freeing can be disallowed, and it is refused
      have hSame : c' = c := by
        cases request with
        | allocate size => exact absurd trivial hAllowed
        | allocateZeroed size => exact absurd trivial hAllowed
        | free p =>
          obtain ⟨defect, hRefused⟩ := hTracks.perform_refused hTraced hConfig hAllowed
          exact (Prod.mk.inj (Except.ok.inj (hCall.symm.trans hRefused))).2
      rw [hSame]
      exact ⟨t, hTracks, hTraced, hConfig, by omega, by omega⟩
  | write _ hSame hAdmits ih =>
    obtain ⟨t, hTracks, hTraced, hRest⟩ := ih
    exact ⟨t, hTracks.write hSame, hTracks.traced_write hSame hTraced hAdmits, hRest⟩

end Client.Run

/-- **Whatever a client frees, a validating heap stays intact**, accepts exactly the live
pointers, and answers every other pointer with a corruption at its address and no change. -/
theorem reckless_run_refuses_dead_pointers {start stop : Nat} {config : Config}
    {log : List Exchange} (hInit : s.init start stop config = .ok (.ok (), s'))
    (hBounds : Region.ofBounds? start stop = .ok r) (hValidate : config.validateFrees = true)
    (hFree : ∀ a, a % Word.alignment = 0 → r.base ≤ a → a < r.stop →
      s.memory.load a 4 ≠ Mark.used.tag)
    (hRun : Client.Run .reckless ⟨s', []⟩ log c) :
    (∃ chain, c.store.Intact r chain) ∧
      (∀ p, ((∃ after, c.store.free p = .ok (.ok (), after)) ↔ p ∈ c.live) ∧
        ((∃ n, c.store.usableSize p = .ok (.ok n)) ↔ p ∈ c.live)) ∧
      (∀ p, p ∉ c.live → ∃ defect,
        c.store.free p = .ok (.error (.corruption p defect), c.store) ∧
          c.store.usableSize p = .ok (.error (.corruption p defect))) ∧
      ∀ request, log.length + 1 < Word.limit →
        ∃ answer c', c.perform request = .ok (answer, c') := by
  obtain ⟨r', hBounds', hLaidOut⟩ := Store.laidOut_of_init hInit
  obtain rfl := Except.ok.inj (hBounds'.symm.trans hBounds)
  obtain ⟨t, hTracks, hTraced, hConfig, hAllocations, hFailed⟩ :=
    Client.Run.traced hLaidOut hValidate hFree hRun
  exact ⟨⟨_, hTracks.represents.intact⟩,
    fun p => ⟨hTracks.free_accepts_iff hTraced hConfig p,
      hTracks.usableSize_accepts_iff hTraced hConfig p⟩,
    fun p hp => hTracks.refuses hTraced hConfig hp,
    fun request hCalls => hTracks.perform_returns hTraced hConfig request (by omega) (by omega)⟩

-- ---------------------------------------------------------------------------
-- A run with misuse
-- ---------------------------------------------------------------------------

/-- A word whose bytes are all zero. -/
theorem Memory.load_eq_zero {m : Memory} {a : Nat} (h : ∀ x, a ≤ x → x < a + 4 → m.byte x = 0) :
    m.load a 4 = 0 := by
  rw [load, slice_eq_map_byte]
  show littleEndian [m.byte a, m.byte (a + 1), m.byte (a + 2), m.byte (a + 3)] = 0
  rw [h a (by omega) (by omega), h (a + 1) (by omega) (by omega), h (a + 2) (by omega) (by omega),
    h (a + 3) (by omega) (by omega)]
  rfl

theorem Memory.load_blank (a : Nat) : Memory.blank.load a 4 ≠ Mark.used.tag := by
  rw [load_eq_zero fun x _ _ => by unfold byte; split <;> rfl]
  decide

/-- A pointer into the middle of a live payload is freed. -/
theorem reckless_run_refuses_interior_pointer :
    ∃ s' c defect, Store.init ⟨Heap.empty, Memory.blank⟩ 65536 66560 .hardened =
        .ok (.ok (), s') ∧
      Client.Run .reckless ⟨s', []⟩
        [⟨.allocateZeroed 32, .allocated (.ok 65600)⟩,
          ⟨.free 65616, .freed (.error (.corruption 65616 defect))⟩] c ∧
      c.live = [65600] ∧ (∃ chain, c.store.Intact .kibibyte chain) ∧
      ∃ after, c.store.free 65600 = .ok (.ok (), after) := by
  obtain ⟨s', hInit, hLaidOut⟩ := Store.init_kibibyte .hardened
  have hFree : ∀ a, a % Word.alignment = 0 → Region.kibibyte.base ≤ a →
      a < Region.kibibyte.stop → Memory.blank.load a 4 ≠ Mark.used.tag :=
    fun a _ _ _ => Memory.load_blank a
  have hTracks₀ := Client.tracks_of_laidOut hLaidOut
  have hRun₀ : Client.Run .reckless ⟨s', []⟩ [] ⟨s', []⟩ :=
    .start fun p hp => absurd hp (by simp)
  -- an allocation whose payload is zero, and so untagged
  have hAllowed : Protocol.correct.allows ⟨s', []⟩ (.allocateZeroed 32) := trivial
  obtain ⟨c, hCall, hTracks, hConducted⟩ :=
    hTracks₀.perform hAllowed (Client.hasRoom_of_laidOut hLaidOut)
  have hAnswer : (⟨s', []⟩ : Client).perform (.allocateZeroed 32) =
      .ok (.allocated (.ok 65600), c) := hCall
  obtain ⟨hGrants, hZero⟩ := hTracks₀.grants_allocateZeroed hAnswer
  have hUntagged : c.Untagged := by
    refine hTracks.untagged_iff.mpr fun b hb a hAligned hLow hHigh => ?_
    obtain rfl : b = ⟨32, 32, false⟩ := List.mem_singleton.mp hb
    have hPayload : Region.kibibyte.payload 32 = 65600 := rfl
    simp only [hPayload] at hLow hHigh
    unfold Word.alignment at hAligned
    rw [Memory.load_eq_zero fun x hx hx' => hZero x (by omega) (by omega)]
    decide
  have hRun₁ : Client.Run .reckless ⟨s', []⟩ [⟨.allocateZeroed 32, .allocated (.ok 65600)⟩] c :=
    .call hRun₀ trivial hAnswer hUntagged
  -- then a free that is refused
  have hTraced := hConducted.traced hTracks (hLaidOut.traced hFree) hUntagged
  have hConfig : c.store.heap.config.validateFrees = true := by
    rw [hConducted.config_eq]
    exact congrArg Config.validateFrees hLaidOut.config
  have hLive : c.live = [65600] := hGrants.live
  obtain ⟨defect, hRefused⟩ :=
    hTracks.perform_refused (p := 65616) hTraced hConfig (by simp [hLive])
  have hRun₂ := Client.Run.call hRun₁ trivial hRefused hUntagged
  obtain ⟨hIntact, hAccepted, -⟩ :=
    reckless_run_refuses_dead_pointers hInit rfl rfl hFree hRun₂
  exact ⟨s', c, defect, hInit, hRun₂, hLive, hIntact,
    (hAccepted 65600).1.mpr (by simp [hLive])⟩

end RegionHeap
