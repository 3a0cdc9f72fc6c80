import RegionHeap.Heap.Allocate
import RegionHeap.Heap.Free
import RegionHeap.Proofs.Discreet

/-!
# A heap with blocks in hand

Between two calls every block of a heap is either used, and counted as such, or free,
counted and filed. During a call one or two blocks are in neither state. `Store.Holds`
says that memory holds a list of blocks of which the settled ones are accounted for;
every step of an allocation or a release takes one such store to another.

* `Holds.unfile`, `Holds.file`: a free block is taken in hand, or settled.
* `Holds.dropHeader`: two neighbours in hand become one.
* `Holds.marked`: the tag of a block in hand changes.
-/

namespace RegionHeap

variable {r : Region} {m : Memory} {o : Nat}
variable {a b c : Block} {blocks settled kept pre post p q : List Block}
variable {stack : SizeClass → List Nat} {granted : List Nat}

/-- Stacked blocks of a chain are placed. -/
theorem Binned.placed (h : Binned settled stack) (hTiled : Tiled headerSize blocks r.tail)
    (hSub : settled.Sublist blocks) : r.Placed stack where
  nodup := h.nodup
  class_eq hj hk := h.class_eq ((hSub.map _).nodup hTiled.distinct) hj hk
  room := by
    intro k o ho
    obtain ⟨b, hb, -, rfl, -⟩ := (h.mem_iff _ _).mp ho
    have := (hTiled.bounds (hSub.subset hb)).2
    have := (hTiled.payload (hSub.subset hb)).1
    have := r.tail_add_headerSize
    unfold Block.stop at *
    omega
  aligned := by
    intro k o ho
    obtain ⟨b, hb, -, rfl, -⟩ := (h.mem_iff _ _).mp ho
    exact hTiled.aligned rfl (hSub.subset hb)
  apart := by
    intro j k o y ho hy
    obtain ⟨b, hb, -, rfl, -⟩ := (h.mem_iff _ _).mp ho
    obtain ⟨c, hc, -, rfl, -⟩ := (h.mem_iff _ _).mp hy
    have := (hTiled.payload (hSub.subset hb)).1
    have := (hTiled.payload (hSub.subset hc)).1
    rcases hTiled.apart (hSub.subset hb) (hSub.subset hc) with rfl | h | h
    · exact Or.inl rfl
    · unfold Block.stop at h
      omega
    · unfold Block.stop at h
      omega

-- ---------------------------------------------------------------------------
-- Blocks that callers keep
-- ---------------------------------------------------------------------------

theorem ne_of_used (hFree : b.isFree = true) (hUsed : c.isFree = false) : c ≠ b := by
  rintro rfl
  rw [hFree] at hUsed
  exact absurd hUsed (by decide)

/-- Callers keep used blocks, so none of theirs is a free one. -/
theorem kept_of_free (hFree : b.isFree = true)
    (hKept : ∀ c ∈ kept, c ∈ pre ++ b :: post ∧ c.isFree = false) :
    ∀ c ∈ kept, c ∈ pre ++ post ∧ c.isFree = false := by
  intro c hc
  obtain ⟨hMem, hUsed⟩ := hKept c hc
  exact ⟨by simpa [ne_of_used hFree hUsed] using hMem, hUsed⟩

-- ---------------------------------------------------------------------------
-- Stores with blocks in hand
-- ---------------------------------------------------------------------------

namespace Store

/-- Memory and heap hold `blocks`, of which the settled ones are accounted for: the free
ones are filed, and the counters add up. -/
structure Holds (s : Store) (r : Region) (blocks settled : List Block)
    (stack : SizeClass → List Nat) : Prop where
  region : s.heap.region = some r
  chained : r.Chained s.memory blocks
  sub : settled.Sublist blocks
  filed : s.heap.bins.Filed r s.memory stack
  binned : Binned settled stack
  freeBytes : s.heap.counters.freeBytes = RegionHeap.freeBytes settled
  usedBytes : s.heap.counters.usedBytes = RegionHeap.usedBytes settled
  metaBytes : s.heap.counters.metaBytes = headerSize * blocks.length

/-- `s'` comes from `s` by discreet writes, with the same configuration and the same
numbers of calls. -/
structure Tidy (r : Region) (kept : List Block) (granted : List Nat) (s s' : Store) : Prop where
  edits : r.Edits (Region.Discreet kept granted) s.memory s'.memory
  config : s'.heap.config = s.heap.config
  allocations : s'.heap.counters.allocations = s.heap.counters.allocations
  frees : s'.heap.counters.frees = s.heap.counters.frees
  failedAllocations : s'.heap.counters.failedAllocations = s.heap.counters.failedAllocations

theorem Tidy.refl (s : Store) : Tidy r kept granted s s :=
  ⟨Region.Edits.refl _, rfl, rfl, rfl, rfl⟩

theorem Tidy.trans {s₁ s₂ s₃ : Store} (h₁ : Tidy r kept granted s₁ s₂)
    (h₂ : Tidy r kept granted s₂ s₃) : Tidy r kept granted s₁ s₃ where
  edits := h₁.edits.trans h₂.edits
  config := h₂.config.trans h₁.config
  allocations := h₂.allocations.trans h₁.allocations
  frees := h₂.frees.trans h₁.frees
  failedAllocations := h₂.failedAllocations.trans h₁.failedAllocations

/-- A header that does not say used does not begin to. -/
theorem Tidy.tag_ne_used {s s' : Store} (h : Tidy r kept [] s s') (ho : o % Word.alignment = 0)
    (hTag : r.content s.memory .tag o ≠ Mark.used.tag) :
    r.content s'.memory .tag o ≠ Mark.used.tag := by
  intro hUsed
  have hAligned : (r.base + o + Field.tag.position) % Word.alignment = 0 := by
    have hBase := r.base_aligned
    rw [show Field.tag.position = 16 from rfl]
    unfold Word.alignment at *
    omega
  rcases h.edits.used_word hAligned hUsed with hBefore | ⟨y, hy, -⟩
  · exact hTag hBefore
  · exact absurd hy (by simp)

/-- The store with other bins, another memory and another count of free bytes. -/
def refiled (s : Store) (bins : Bins) (m : Memory) (freeBytes : Nat) :
    Store where
  heap :=
    { s.heap with
      bins := bins
      counters := { s.heap.counters with freeBytes := freeBytes } }
  memory := m

/-- The steps of filing a chunk. -/
theorem file_eq_ok {s s' : Store} (h : s.file r o = .ok s') :
    ∃ bins m size freeBytes, s.heap.bins.push r s.memory o = .ok (bins, m) ∧
      r.chunkSize m o = .ok size ∧ Word.add s.heap.counters.freeBytes size = .ok freeBytes ∧
      s' = s.refiled bins m freeBytes := by
  unfold Store.file at h
  obtain ⟨⟨bins, m⟩, hPush, h⟩ := bind_eq_ok_iff.mp h
  obtain ⟨size, hSize, h⟩ := bind_eq_ok_iff.mp h
  obtain ⟨freeBytes, hFree, h⟩ := bind_eq_ok_iff.mp h
  exact ⟨bins, m, size, freeBytes, hPush, hSize, hFree, (Except.ok.inj h).symm⟩

namespace Holds

variable {s : Store}

theorem tiled (h : s.Holds r blocks settled stack) : Tiled headerSize blocks r.tail :=
  h.chained.tiled

theorem distinct (h : s.Holds r blocks settled stack) : (settled.map Block.offset).Nodup :=
  (h.sub.map _).nodup h.tiled.distinct

theorem placed (h : s.Holds r blocks settled stack) : r.Placed stack :=
  h.binned.placed h.tiled h.sub

/-- Stacked offsets belong to free settled blocks. -/
theorem exists_free (h : s.Holds r blocks settled stack) {k : SizeClass} (ho : o ∈ stack k) :
    ∃ b ∈ settled, b.isFree = true ∧ b.offset = o ∧ SizeClass.ofSize b.size = k :=
  (h.binned.mem_iff k o).mp ho

/-- The payloads of settled blocks, and the headers of all, fit into a word. -/
theorem bytes_lt (h : s.Holds r blocks settled stack) :
    RegionHeap.freeBytes blocks + RegionHeap.usedBytes blocks + headerSize * blocks.length <
      Word.limit := by
  have := h.tiled.total
  have := r.tail_add_headerSize
  have := r.size_lt_limit
  omega

theorem length_lt (h : s.Holds r blocks settled stack) : blocks.length + 1 < Word.limit := by
  have := h.tiled.length_le
  have := r.tail_add_headerSize
  have := r.size_lt_limit
  have := sizes_eq
  omega

-- ---------------------------------------------------------------------------
-- Edits of headers and of rings
-- ---------------------------------------------------------------------------

/-- Rings do not notice writes to the headers of a chain that has all settled blocks. -/
theorem filed_of_headerEdits {P : Nat → Field → Nat → Prop} {blocks' : List Block}
    (h : s.Holds r blocks settled stack) (hTiled : Tiled headerSize blocks' r.tail)
    (hSub : settled.Sublist blocks') (hEdits : r.Edits P s.memory m)
    (hP : ∀ o f v, P o f v → o ∈ r.headers blocks' ∧ f.reach = headerSize) :
    s.heap.bins.Filed r m stack := by
  refine h.filed.of_headerEdits hTiled hEdits hP fun k o ho => ?_
  obtain ⟨c, hc, -, hco, -⟩ := h.exists_free ho
  exact ⟨c, hSub.subset hc, hco⟩

/-- Headers do not notice writes to the rings of free blocks, and neither do callers. -/
theorem of_ringEdits {S : Nat → Prop} (granted : List Nat) (h : s.Holds r blocks settled stack)
    (hKept : ∀ c ∈ kept, c ∈ blocks ∧ c.isFree = false)
    (hS : ∀ x, S x → ∃ c ∈ blocks, c.isFree = true ∧ c.offset = x)
    (hEdits : r.Edits (Region.RingEdit S) s.memory m) :
    r.Chained m blocks ∧ r.Edits (Region.Discreet kept granted) s.memory m := by
  constructor
  · refine h.chained.of_ringEdits hEdits fun x hx => ?_
    obtain ⟨c, hc, -, hcx⟩ := hS x hx
    exact ⟨c, hc, hcx⟩
  · refine hEdits.mono fun x f v hx => ?_
    refine hx.discreet h.tiled (fun c hc => (hKept c hc).1) fun y hy => ?_
    obtain ⟨c, hc, hFree, hcy⟩ := hS y hy
    exact ⟨c, hc, hcy, fun hk => ne_of_used hFree (hKept c hk).2 rfl⟩

-- ---------------------------------------------------------------------------
-- Taking free blocks in hand
-- ---------------------------------------------------------------------------

/-- A free block is in hand as soon as it is detached and its bytes are no longer counted. -/
theorem detached {bins : Bins} (granted : List Nat) (h : s.Holds r blocks (p ++ c :: q) stack)
    (hFree : c.isFree = true) (hKept : ∀ b ∈ kept, b ∈ blocks ∧ b.isFree = false)
    (hFiled : bins.Filed r m (stackErase stack c))
    (hEdits : r.Edits (Region.RingEdit (· ∈ stack (SizeClass.ofSize c.size))) s.memory m) :
    (s.refiled bins m (s.heap.counters.freeBytes - c.size)).Holds r blocks (p ++ q)
        (stackErase stack c) ∧
      Tidy r kept granted s (s.refiled bins m (s.heap.counters.freeBytes - c.size)) := by
  obtain ⟨hChained, hDiscreet⟩ := h.of_ringEdits granted hKept (fun x hx => by
    obtain ⟨b, hb, hbFree, hbx, -⟩ := h.exists_free hx
    exact ⟨b, h.sub.subset hb, hbFree, hbx⟩) hEdits
  refine ⟨?_, hDiscreet, rfl, rfl, rfl, rfl⟩
  · constructor
    · exact h.region
    · exact hChained
    · exact ((List.sublist_cons_self c q).append_left p).trans h.sub
    · exact hFiled
    · exact h.binned.erase h.distinct
    · show s.heap.counters.freeBytes - c.size = _
      rw [h.freeBytes]
      simp [hFree]
      omega
    · show s.heap.counters.usedBytes = _
      rw [h.usedBytes]
      simp [hFree]
    · exact h.metaBytes

/-- Unfiling takes a free block in hand. -/
theorem unfile (granted : List Nat) (h : s.Holds r blocks (p ++ c :: q) stack)
    (hFree : c.isFree = true) (hKept : ∀ b ∈ kept, b ∈ blocks ∧ b.isFree = false) :
    ∃ s', s.unfile r c.offset = .ok s' ∧ s'.Holds r blocks (p ++ q) (stackErase stack c) ∧
      Tidy r kept granted s s' := by
  have hc : c ∈ blocks := h.sub.subset (by simp)
  obtain ⟨bins, m, hDetach, hFiled, hEdits⟩ :=
    h.filed.detach h.placed (h.binned.mem_of_free (b := c) (by simp) hFree)
  obtain ⟨hHolds, hTidy⟩ := h.detached granted hFree hKept hFiled hEdits
  refine ⟨_, ?_, hHolds, hTidy⟩
  have hSize : r.chunkSize m c.offset = .ok c.size := hHolds.chained.chunkSize_eq hc
  have hLe : c.size ≤ s.heap.counters.freeBytes := by
    rw [h.freeBytes]
    simp [hFree]
    omega
  unfold Store.unfile Bins.remove
  rw [h.chained.chunkSize_eq hc, ok_bind, hDetach, ok_bind]
  simp only
  rw [hSize, ok_bind, Word.sub_eq_ok_iff.mpr ⟨hLe, rfl⟩, ok_bind]
  rfl

-- ---------------------------------------------------------------------------
-- Settling free blocks
-- ---------------------------------------------------------------------------

/-- There is room in the counter of filed chunks for a block in hand. -/
theorem count_lt (h : s.Holds r blocks (p ++ q) stack) (hSub : (p ++ b :: q).Sublist blocks) :
    s.heap.bins.count + 1 < Word.limit := by
  have hLength := hSub.length_le
  have hFilter := List.length_filter_le (·.isFree) (p ++ q)
  have := h.length_lt
  rw [List.length_append] at hLength hFilter
  rw [List.length_cons] at hLength
  rw [h.filed.count, h.binned.stacked_eq h.distinct]
  omega

/-- There is room in the counter of free bytes for those of a block in hand. -/
theorem freeBytes_lt (h : s.Holds r blocks (p ++ q) stack) (hSub : (p ++ b :: q).Sublist blocks)
    (hFree : b.isFree = true) : s.heap.counters.freeBytes + b.size < Word.limit := by
  have hLe := freeBytes_le_of_sublist hSub
  have := h.bytes_lt
  rw [h.freeBytes]
  simp only [freeBytes_append, freeBytes_cons, hFree, if_true] at hLe ⊢
  omega

/-- Filing settles a free block. -/
theorem file (granted : List Nat) (h : s.Holds r blocks (p ++ q) stack)
    (hSub : (p ++ b :: q).Sublist blocks) (hFree : b.isFree = true)
    (hKept : ∀ c ∈ kept, c ∈ blocks ∧ c.isFree = false) :
    ∃ s', s.file r b.offset = .ok s' ∧ s'.Holds r blocks (p ++ b :: q) (stackPush stack b) ∧
      Tidy r kept granted s s' := by
  have hDistinct := (hSub.map Block.offset).nodup h.tiled.distinct
  have hb : b ∈ blocks := hSub.subset (by simp)
  have hBinned := h.binned.push hDistinct hFree
  obtain ⟨bins, m, hPush, hFiled, hEdits⟩ :=
    h.filed.push rfl (h.chained.chunkSize_eq hb) (hBinned.placed h.tiled hSub)
      (fun k => h.binned.not_mem hDistinct k) (h.count_lt hSub)
  obtain ⟨hChained, hDiscreet⟩ := h.of_ringEdits granted hKept (fun x hx => by
    rcases hx with rfl | hx
    · exact ⟨b, hb, hFree, rfl⟩
    · obtain ⟨c, hc, hcFree, hcx, -⟩ := h.exists_free hx
      exact ⟨c, h.sub.subset hc, hcFree, hcx⟩) hEdits
  refine ⟨s.refiled bins m (s.heap.counters.freeBytes + b.size), ?_, ?_, hDiscreet, rfl, rfl, rfl,
    rfl⟩
  · unfold Store.file
    rw [hPush, ok_bind]
    simp only
    rw [hChained.chunkSize_eq hb, ok_bind,
      Word.add_eq_ok_iff.mpr ⟨rfl, h.freeBytes_lt hSub hFree⟩, ok_bind]
    rfl
  · constructor
    · exact h.region
    · exact hChained
    · exact hSub
    · exact hFiled
    · exact hBinned
    · show s.heap.counters.freeBytes + b.size = _
      rw [h.freeBytes]
      simp [hFree]
      omega
    · show s.heap.counters.usedBytes = _
      rw [h.usedBytes]
      simp [hFree]
    · exact h.metaBytes

-- ---------------------------------------------------------------------------
-- Changing blocks in hand
-- ---------------------------------------------------------------------------

/-- The header between two blocks in hand is given up. -/
theorem dropHeader (granted : List Nat) (h : s.Holds r (pre ++ a :: b :: post) settled stack)
    (hSub : settled.Sublist (pre ++ post)) (hKept : ∀ c ∈ kept, c ∈ settled) :
    ∃ s', s.dropHeader r b.offset = .ok s' ∧
      s'.Holds r (pre ++ a.join b :: post) settled stack ∧ Tidy r kept granted s s' := by
  obtain ⟨m, hUnlink, hChained, hEdits⟩ := h.chained.unlink
  have hMeta : headerSize ≤ s.heap.counters.metaBytes := by
    rw [h.metaBytes, List.length_append, List.length_cons]
    exact Nat.le_mul_of_pos_right _ (by omega)
  let counters :=
    { s.heap.counters with metaBytes := s.heap.counters.metaBytes - headerSize }
  refine ⟨{ heap := { s.heap with counters := counters }, memory := m }, ?_, ?_, ?_, rfl, rfl,
    rfl, rfl⟩
  · unfold Store.dropHeader
    rw [hUnlink, ok_bind, Word.sub_eq_ok_iff.mpr ⟨hMeta, rfl⟩, ok_bind, pure_eq_ok]
  · constructor
    · exact h.region
    · exact hChained
    · exact hSub.trans ((List.sublist_cons_self _ _).append_left pre)
    · exact h.filed_of_headerEdits h.tiled h.sub hEdits fun _ _ _ hx => ⟨hx.1, hx.2.1⟩
    · exact h.binned
    · exact h.freeBytes
    · exact h.usedBytes
    · show s.heap.counters.metaBytes - headerSize = _
      rw [h.metaBytes]
      simp only [List.length_append, List.length_cons]
      rw [← Nat.mul_sub_one]
      rfl
  · refine hEdits.mono fun x f v hx => ?_
    exact hx.discreet h.tiled fun c hc => h.sub.subset (hKept c hc)

/-- Writing the tag of a block in hand. -/
theorem marked (granted : List Nat) (h : s.Holds r (pre ++ b :: post) settled stack)
    (hSub : settled.Sublist (pre ++ post)) (hKept : ∀ c ∈ kept, c ∈ settled) (isFree : Bool)
    (hGranted : isFree = false → b.offset ∈ granted) :
    ∃ m, r.setMark s.memory b.offset { b with isFree := isFree }.mark = .ok m ∧
      Store.Holds { s with memory := m } r (pre ++ { b with isFree := isFree } :: post)
        settled stack ∧
      Tidy r kept granted s { s with memory := m } := by
  obtain ⟨hWrite, hChained⟩ := h.chained.setMark isFree
  have hMem : b.offset ∈ r.headers (pre ++ b :: post) :=
    Region.offset_mem_headers (by simp)
  have hAccess := (Region.sited_header (f := .tag) hMem rfl).accessible h.tiled
  -- a tag is a header field, so no ring notices
  have hFiled : s.heap.bins.Filed r
      (r.put s.memory .tag b.offset { b with isFree := isFree }.mark.tag) stack := by
    refine h.filed_of_headerEdits h.tiled h.sub (P := fun o f _ => o = b.offset ∧ f = .tag)
      (Region.Edits.put (Region.Edits.refl _) hAccess ⟨rfl, rfl⟩) ?_
    rintro _ _ _ ⟨rfl, rfl⟩
    exact ⟨hMem, rfl⟩
  refine ⟨_, hWrite, ?_, ?_, rfl, rfl, rfl, rfl⟩
  · constructor
    · exact h.region
    · exact hChained
    · exact hSub.trans ((List.sublist_cons_self _ _).append_left pre)
    · exact hFiled
    · exact h.binned
    · exact h.freeBytes
    · exact h.usedBytes
    · rw [show s.heap.counters.metaBytes = _ from h.metaBytes]
      simp
  · refine Region.Edits.put (Region.Edits.refl _) hAccess ⟨?_, ?_, ?_⟩
    · intro c hc
      rcases Region.header_apart_payload h.tiled hMem (h.sub.subset (hKept c hc)) with
        hBelow | hAbove
      · exact Or.inl (Nat.add_le_add_right hBelow headerSize)
      · exact Or.inr hAbove
    · exact Region.header_aligned h.tiled hMem
    · cases isFree with
      | true => exact Or.inl ⟨.free, by decide, rfl⟩
      | false => exact Or.inr ⟨rfl, hGranted rfl⟩

end Holds

end Store

end RegionHeap
