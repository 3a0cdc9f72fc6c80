import RegionHeap.Proofs.Represents

/-!
# Setting a heap up

Three headers and one ring of one chunk are all there is in a region at first.

* `Store.chained_whole`: the headers that `Store.layOut` writes are a chain of one block.
* `Store.init_spec`, `Store.init_cases`: when a heap is set up, and that it is unchanged otherwise.
* `Store.laidOut_of_init`: a heap that was set up represents `Tiling.initial`.
* `Store.Shows`: a decidable property of a store that can be computed.
-/

namespace RegionHeap

variable {s s' : Store}

/-- One kibibyte from 65536 on. -/
def Region.kibibyte : Region where
  base := 65536
  size := 1024
  base_aligned := by decide
  size_aligned := by decide
  minRegionSize_le := by decide
  stop_lt := by decide

namespace Store

/-- The block that spans a region. -/
def whole (r : Region) : Block :=
  { offset := headerSize, size := r.size - 3 * headerSize, isFree := true }

theorem tiled_whole (r : Region) : Tiled headerSize [whole r] r.tail := by
  have := sizes_eq
  have := r.tail_add_headerSize
  have := r.minRegionSize_le
  have := r.size_aligned
  refine ⟨rfl, ?_, ?_, ?_⟩
  · show minPayload ≤ r.size - 3 * headerSize
    omega
  · show (r.size - 3 * headerSize) % Word.alignment = 0
    unfold Word.alignment at *
    omega
  · show headerSize + headerSize + (r.size - 3 * headerSize) = r.tail
    omega

/-- A fresh header is discreet where nothing is used yet. -/
theorem discreet_of_headerWrite {o p n : Nat} {k : Mark} (ho : o % Word.alignment = 0)
    (hp : p % Word.alignment = 0) (hn : n % Word.alignment = 0) (hk : k ≠ .used) (y : Nat)
    (f : Field) (v : Nat) (h : Region.HeaderWrite o p n k y f v) : Region.Discreet [] [] y f v := by
  have hHarmless := h.harmless hp hn hk
  obtain ⟨rfl, -⟩ := h
  exact ⟨by simp, ho, Or.inl hHarmless⟩

/-- Three headers in a region make a chain of one free block. -/
theorem chained_whole (r : Region) (m : Memory) :
    ∃ m₁ m₂ m₃, r.writeHeader m 0 r.tail headerSize .sentinel = .ok m₁ ∧
      r.writeHeader m₁ headerSize 0 r.tail .free = .ok m₂ ∧
      r.writeHeader m₂ r.tail headerSize 0 .sentinel = .ok m₃ ∧ r.Chained m₃ [whole r] ∧
      r.Edits (Region.Discreet [] []) m m₃ := by
  have hSizes := sizes_eq
  have hTail := r.tail_add_headerSize
  have hMin := r.minRegionSize_le
  have hLimit := r.size_lt_limit
  have hAccess : ∀ o ≤ r.tail, o % Word.alignment = 0 → ∀ f : Field, f.reach = headerSize →
      r.Accessible f o := fun o ho hAligned f hf => Region.accessible_of_le_tail ho hAligned hf
  obtain ⟨m₁, hWrite₁, hField₁, -, hEdits₁⟩ :=
    Region.writeHeader_spec (r := r) (m := m) (o := 0) (p := r.tail) (n := headerSize)
      (k := .sentinel) (hAccess 0 (by omega) rfl) (by omega) (by omega)
  obtain ⟨m₂, hWrite₂, hField₂, hSame₂, hEdits₂⟩ :=
    Region.writeHeader_spec (r := r) (m := m₁) (o := headerSize) (p := 0) (n := r.tail)
      (k := .free) (hAccess headerSize (by omega) rfl) (by omega) (by omega)
  obtain ⟨m₃, hWrite₃, hField₃, hSame₃, hEdits₃⟩ :=
    Region.writeHeader_spec (r := r) (m := m₂) (o := r.tail) (p := headerSize) (n := 0)
      (k := .sentinel) (hAccess r.tail (Nat.le_refl _) r.tail_aligned) (by omega) (by omega)
  -- headers are apart, so each keeps what was written into it
  have hFirst : ∀ g : Field, g.reach = headerSize →
      r.content m₃ g 0 = Region.headerField 0 r.tail headerSize .sentinel g := by
    intro g hg
    rw [hSame₃ g 0 (by omega), hSame₂ g 0 (by omega), hField₁ g hg]
  have hSecond : ∀ g : Field, g.reach = headerSize →
      r.content m₃ g headerSize = Region.headerField headerSize 0 r.tail .free g := by
    intro g hg
    rw [hSame₃ g headerSize (by omega), hField₂ g hg]
  refine ⟨m₁, m₂, m₃, hWrite₁, hWrite₂, hWrite₃, .of_stamped (tiled_whole r) ?_
    ⟨hFirst .canary rfl, hFirst .tag rfl⟩ ⟨hField₃ .canary rfl, hField₃ .tag rfl⟩ ?_, ?_⟩
  · exact List.isChain_cons_cons.mpr ⟨⟨hFirst .next rfl, hSecond .previous rfl⟩,
      List.isChain_cons_cons.mpr ⟨⟨hSecond .next rfl, hField₃ .previous rfl⟩,
        List.isChain_pair.mpr ⟨hField₃ .next rfl, hFirst .previous rfl⟩⟩⟩
  · intro b hb
    rw [List.mem_singleton.mp hb]
    exact ⟨hSecond .canary rfl, hSecond .tag rfl⟩
  · have hAligned := r.tail_aligned
    exact ((hEdits₁.mono (discreet_of_headerWrite rfl hAligned rfl (by decide))).trans
      (hEdits₂.mono (discreet_of_headerWrite rfl rfl hAligned (by decide)))).trans
      (hEdits₃.mono (discreet_of_headerWrite hAligned rfl rfl (by decide)))

/-- What setting a heap up leaves in a store. -/
structure LaidOut (r : Region) (config : Config) (s s' : Store) : Prop where
  represents : s'.Represents r (Tiling.initial r.size)
  edits : r.Edits (Region.Discreet [] []) s.memory s'.memory
  config : s'.heap.config = config
  allocations : s'.heap.counters.allocations = 0
  frees : s'.heap.counters.frees = 0
  failedAllocations : s'.heap.counters.failedAllocations = 0

/-- **Laying out** a region gives one free block. -/
theorem layOut_spec (s : Store) (r : Region) (config : Config) :
    ∃ s', s.layOut r config = .ok s' ∧ LaidOut r config s s' := by
  obtain ⟨m₁, m₂, m₃, hWrite₁, hWrite₂, hWrite₃, hChained, hEdits⟩ := chained_whole r s.memory
  -- the store before the block is filed
  let bare : Store :=
    { heap :=
        { region := some r
          bins := Bins.empty
          counters := { Counters.zero with metaBytes := headerSize }
          config := config }
      memory := m₃ }
  have hBare : bare.Holds r ([] ++ whole r :: []) ([] ++ []) fun _ => [] := by
    refine ⟨rfl, hChained, by simp, ⟨fun k => ?_, fun _ => trivial, fun k => ?_, ?_⟩,
      ⟨fun _ => List.nodup_nil, fun k o => by simp⟩, rfl, rfl, rfl⟩
    · show (Vector.replicate 64 none)[k] = _
      simp
    · show (0#64).getLsbD k = _
      simp
    · simp [stacked, bare, Bins.empty]
  have hKept : ∀ c ∈ ([] : List Block), c ∈ [whole r] ∧ c.isFree = false := by simp
  obtain ⟨s', hFile, hHolds, hTidy⟩ := hBare.file [] (List.Sublist.refl _) rfl hKept
  refine ⟨s', ?_, ⟨⟨hHolds, List.isChain_singleton _⟩, hEdits.trans hTidy.edits, hTidy.config,
    hTidy.allocations, hTidy.frees, hTidy.failedAllocations⟩⟩
  obtain ⟨bins, m, size, freeBytes, hPush, hSize, hFree, rfl⟩ := file_eq_ok hFile
  have hBytes : 0 + size = freeBytes := (Word.add_eq_ok_iff.mp hFree).1
  rw [Nat.zero_add] at hBytes
  subst hBytes
  have hPush' : Bins.empty.push r m₃ headerSize = .ok (bins, m) := hPush
  have hSize' : r.chunkSize m headerSize = .ok size := hSize
  unfold layOut
  simp only
  rw [hWrite₁, ok_bind, hWrite₂, ok_bind, hWrite₃, ok_bind, hPush', ok_bind]
  simp only
  rw [hSize', ok_bind]
  rfl

theorem init_initialized {r : Region} (start stop : Nat) (config : Config)
    (hRegion : s.heap.region = some r) :
    s.init start stop config = .ok (.error .alreadyInitialized, s) := by
  unfold init
  simp only [hRegion]
  rfl

theorem init_refused {start stop : Nat} {e : HeapError} (config : Config)
    (hRegion : s.heap.region = none) (hBounds : Region.ofBounds? start stop = .error e) :
    s.init start stop config = .ok (.error e, s) := by
  unfold init
  simp only [hRegion, hBounds]
  rfl

/-- **Setting a heap up** succeeds wherever a region fits. -/
theorem init_spec {start stop : Nat} {r : Region} (config : Config)
    (hRegion : s.heap.region = none) (hBounds : Region.ofBounds? start stop = .ok r) :
    ∃ s', s.init start stop config = .ok (.ok (), s') ∧ LaidOut r config s s' := by
  obtain ⟨s', hLayOut, hLaidOut⟩ := layOut_spec s r config
  refine ⟨s', ?_, hLaidOut⟩
  unfold init
  simp only [hRegion, hBounds]
  rw [hLayOut, ok_bind]
  rfl

/-- **Setting any heap up** is refused and changes nothing, or the heap has no region yet and one
fits. -/
theorem init_cases (s : Store) (start stop : Nat) (config : Config) :
    (∃ e, s.init start stop config = .ok (.error e, s)) ∨
      ∃ r s', s.heap.region = none ∧ Region.ofBounds? start stop = .ok r ∧
        s.init start stop config = .ok (.ok (), s') ∧ LaidOut r config s s' := by
  cases hRegion : s.heap.region with
  | some r => exact Or.inl ⟨_, init_initialized start stop config hRegion⟩
  | none =>
    cases hBounds : Region.ofBounds? start stop with
    | error e => exact Or.inl ⟨e, init_refused config hRegion hBounds⟩
    | ok r =>
      obtain ⟨s', hInit, hLaidOut⟩ := init_spec config hRegion hBounds
      exact Or.inr ⟨r, s', rfl, rfl, hInit, hLaidOut⟩

/-- **A heap that was set up** represents a region in which nothing is used. -/
theorem laidOut_of_init {start stop : Nat} {config : Config}
    (h : s.init start stop config = .ok (.ok (), s')) :
    ∃ r, Region.ofBounds? start stop = .ok r ∧ LaidOut r config s s' := by
  rcases s.init_cases start stop config with ⟨e, hRefused⟩ | ⟨r, s'', -, hBounds, hInit, hLaidOut⟩
  · exact absurd (Prod.mk.inj (Except.ok.inj (hRefused.symm.trans h))).1 (by simp)
  · obtain ⟨-, rfl⟩ := Prod.mk.inj (Except.ok.inj (hInit.symm.trans h))
    exact ⟨r, hBounds, hLaidOut⟩

/-- A heap in one kibibyte of blank memory. -/
theorem init_kibibyte (config : Config) :
    ∃ s', Store.init ⟨Heap.empty, Memory.blank⟩ 65536 66560 config = .ok (.ok (), s') ∧
      LaidOut .kibibyte config ⟨Heap.empty, Memory.blank⟩ s' :=
  init_spec config rfl rfl

-- ---------------------------------------------------------------------------
-- Stores that can be computed
-- ---------------------------------------------------------------------------

/-- The store that was computed has a region, and with it a property. -/
def Shows (x : Checked Store) (P : Store → Region → Prop) : Prop :=
  ∃ s r, x = .ok s ∧ s.heap.region = some r ∧ P s r

instance {x : Checked Store} {P : Store → Region → Prop} [∀ s r, Decidable (P s r)] :
    Decidable (Shows x P) :=
  match x with
  | .error _ => isFalse fun ⟨_, _, h, _⟩ => nomatch h
  | .ok s =>
    match hRegion : s.heap.region with
    | none => isFalse fun ⟨_, _, h, hSome, _⟩ => by
      cases h
      rw [hRegion] at hSome
      cases hSome
    | some r => decidable_of_iff (P s r)
      ⟨fun h => ⟨s, r, rfl, hRegion, h⟩, fun ⟨_, _, h, hSome, hP⟩ => by
        cases h
        rw [hRegion] at hSome
        cases hSome
        exact hP⟩

end Store

end RegionHeap
