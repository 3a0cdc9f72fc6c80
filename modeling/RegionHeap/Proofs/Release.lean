import RegionHeap.Proofs.Holding
import RegionHeap.Proofs.Tilings

/-!
# Giving a chunk back

The steps of a release on a store: a used block is lifted, so that it is in hand, it absorbs
a free successor, and it is settled as a free block, absorbed by a free predecessor if there
is one.

* `Holds.absorbNext`, `Holds.settle`: the two merges; on blocks they are `mergeNext` and
  `mergePrevious`.
* `Holds.release`: all of it; what becomes of the blocks is `Tiling.freed`.
-/

namespace RegionHeap

variable {r : Region} {b c : Block} {kept pre post : List Block}
variable {stack : SizeClass → List Nat}

namespace Store

/-- The store that counts one more release, of `size` bytes. -/
def lifted (s : Store) (size : Nat) : Store where
  heap :=
    { s.heap with
      counters :=
        { s.heap.counters with
          usedBytes := s.heap.counters.usedBytes - size
          frees := s.heap.counters.frees + 1 } }
  memory := s.memory

/-- The steps of releasing a chunk. -/
theorem release_of_steps {s s₁ s₂ : Store} {o size : Nat}
    (hSize : r.chunkSize s.memory o = .ok size) (hBytes : size ≤ s.heap.counters.usedBytes)
    (hFrees : s.heap.counters.frees + 1 < Word.limit)
    (hAbsorb : (s.lifted size).absorbNext r o = .ok s₁) (hSettle : s₁.settle r o = .ok s₂) :
    s.release r o = .ok s₂ := by
  unfold Store.release
  rw [hSize, ok_bind, Word.sub_eq_ok_iff.mpr ⟨hBytes, rfl⟩, ok_bind,
    Word.add_eq_ok_iff.mpr ⟨rfl, hFrees⟩, ok_bind]
  show ((s.lifted size).absorbNext r o >>= _) = _
  rw [hAbsorb, ok_bind, hSettle]

namespace Holds

variable {s : Store}

-- ---------------------------------------------------------------------------
-- Neighbours in memory
-- ---------------------------------------------------------------------------

/-- The header after a block says whether the block after it is free. -/
theorem isFree_next_used (h : s.Holds r (pre ++ b :: post) (pre ++ post) stack)
    (hUsed : UsedFirst post) : r.isFree s.memory b.stop = .ok false := by
  obtain ⟨middle, -, -, -, -, hPost⟩ := tiled_append.mp h.tiled
  cases post with
  | nil => exact h.chained.isFree_boundary (Or.inr hPost)
  | cons next rest =>
    have hStop : next.offset = b.stop := hPost.1
    rw [← hStop, h.chained.isFree_eq (b := next) (by simp), hUsed next rfl]

/-- The header before a block says whether the block before it is free. -/
theorem isFree_previous_used (h : s.Holds r (pre ++ b :: post) (pre ++ post) stack)
    (hUsed : UsedLast pre) :
    r.isFree s.memory (r.content s.memory .previous b.offset) = .ok false := by
  rw [h.chained.previous_eq]
  rcases List.eq_nil_or_concat' pre with rfl | ⟨rest, previous, rfl⟩
  · exact h.chained.isFree_boundary (Or.inl rfl)
  · rw [List.getLast?_concat]
    show r.isFree s.memory previous.offset = .ok false
    rw [h.chained.isFree_eq (b := previous) (by simp), hUsed previous (by simp)]

-- ---------------------------------------------------------------------------
-- Merging
-- ---------------------------------------------------------------------------

/-- **Absorbing the successor** of a block in hand, if it is free. -/
theorem absorbNext (h : s.Holds r (pre ++ b :: post) (pre ++ post) stack)
    (hKept : ∀ c ∈ kept, c ∈ pre ++ post ∧ c.isFree = false) :
    ∃ stack' b' post' s', mergeNext stack b post = (stack', b', post') ∧
      s.absorbNext r b.offset = .ok s' ∧
      s'.Holds r (pre ++ b' :: post') (pre ++ post') stack' ∧ b'.offset = b.offset ∧
      (∀ c ∈ kept, c ∈ pre ++ post') ∧ Tidy r kept [] s s' := by
  have hb : b ∈ pre ++ b :: post := by simp
  have hNext : r.read s.memory b.offset .next = .ok b.stop := by
    rw [h.chained.read_header (Region.offset_mem_headers hb) rfl, h.chained.next_eq hb]
  unfold Store.absorbNext
  rw [hNext, ok_bind]
  rcases free_or_usedFirst post with ⟨next, rest, rfl, hFree⟩ | hUsed
  · have hStop : next.offset = b.stop := by
      obtain ⟨middle, -, -, -, -, hPost⟩ := tiled_append.mp h.tiled
      exact hPost.1
    have hKept' : ∀ c ∈ kept, c ∈ pre ++ rest := fun c hc => (kept_of_free hFree hKept c hc).1
    obtain ⟨s₁, hUnfile, hHolds₁, hTidy₁⟩ := h.unfile [] hFree fun c hc => by
      obtain ⟨hMem, hUsed⟩ := hKept c hc
      exact ⟨h.sub.subset hMem, hUsed⟩
    obtain ⟨s₂, hDrop, hHolds₂, hTidy₂⟩ :=
      hHolds₁.dropHeader [] (List.Sublist.refl _) hKept'
    refine ⟨_, _, _, s₂, mergeNext_free hFree, ?_, hHolds₂, rfl, hKept', hTidy₁.trans hTidy₂⟩
    rw [← hStop, h.chained.isFree_eq (b := next) (by simp), ok_bind, if_pos hFree, hUnfile,
      ok_bind, hDrop]
  · refine ⟨_, _, _, s, mergeNext_used hUsed, ?_, h, rfl, fun c hc => (hKept c hc).1,
      Tidy.refl s⟩
    rw [h.isFree_next_used hUsed, ok_bind]
    rfl

/-- A block in hand with a free predecessor is marked free and absorbed by it. -/
theorem settle_merged {a : Block} (h : s.Holds r (pre ++ a :: b :: post) (pre ++ a :: post) stack)
    (hFree : a.isFree = true) (hKept : ∀ c ∈ kept, c ∈ pre ++ post ∧ c.isFree = false) :
    ∃ s', s.settle r b.offset = .ok s' ∧
      s'.Holds r (pre ++ a.join b :: post) (pre ++ a.join b :: post)
        (stackPush (stackErase stack a) (a.join b)) ∧
      r.content s'.memory .tag b.offset ≠ Mark.used.tag ∧ Tidy r kept [] s s' := by
  have hRead : r.read s.memory b.offset .previous = .ok a.offset := by
    rw [h.chained.read_header (Region.offset_mem_headers (by simp)) rfl, h.chained.link_eq.2]
  have hSub : (pre ++ post).Sublist (pre ++ a :: post) :=
    (List.sublist_cons_self a post).append_left pre
  obtain ⟨s₁, hUnfile, hHolds₁, hTidy₁⟩ :=
    h.unfile [] hFree fun c hc => ⟨(hSub.trans h.sub).subset (hKept c hc).1, (hKept c hc).2⟩
  -- the tag goes first, so that the header that is dropped says free
  have hAssoc : ∀ l : List Block, pre ++ a :: l = (pre ++ [a]) ++ l := by simp
  rw [hAssoc] at hHolds₁
  obtain ⟨m, hMark, hHolds₂, hTidy₂⟩ :=
    hHolds₁.marked [] (hAssoc post ▸ hSub) (fun c hc => (hKept c hc).1) true
      fun hFalse => absurd hFalse (by decide)
  have hTag : r.content m .tag b.offset = Mark.free.tag :=
    hHolds₂.chained.tag { b with isFree := true } (by simp)
  have hTag' : r.content m .tag b.offset ≠ Mark.used.tag := by
    rw [hTag]
    decide
  rw [← hAssoc] at hHolds₂
  obtain ⟨s₃, hDrop, hHolds₃, hTidy₃⟩ :=
    hHolds₂.dropHeader [] (List.Sublist.refl _) fun c hc => (hKept c hc).1
  obtain ⟨s₄, hFile, hHolds₄, hTidy₄⟩ := hHolds₃.file [] (List.Sublist.refl _) hFree
    fun c hc => ⟨hHolds₃.sub.subset (hKept c hc).1, (hKept c hc).2⟩
  refine ⟨s₄, ?_, hHolds₄, ?_, hTidy₁.trans (hTidy₂.trans (hTidy₃.trans hTidy₄))⟩
  · unfold Store.settle
    rw [hRead, ok_bind, h.chained.isFree_eq (b := a) (by simp), ok_bind, if_pos hFree, hUnfile,
      ok_bind]
    have hMark' : r.setMark s₁.memory b.offset .free = .ok m := hMark
    have hDrop' : Store.dropHeader ⟨s₁.heap, m⟩ r b.offset = .ok s₃ := hDrop
    rw [hMark', ok_bind, hDrop', ok_bind]
    exact hFile
  · exact (hTidy₃.trans hTidy₄).tag_ne_used (h.tiled.aligned rfl (by simp)) hTag'

/-- A block in hand without a free predecessor is marked free and filed. -/
theorem settle_alone (h : s.Holds r (pre ++ b :: post) (pre ++ post) stack)
    (hUsed : UsedLast pre) (hKept : ∀ c ∈ kept, c ∈ pre ++ post ∧ c.isFree = false) :
    ∃ s', s.settle r b.offset = .ok s' ∧
      s'.Holds r (pre ++ { b with isFree := true } :: post)
        (pre ++ { b with isFree := true } :: post)
        (stackPush stack { b with isFree := true }) ∧
      r.content s'.memory .tag b.offset ≠ Mark.used.tag ∧ Tidy r kept [] s s' := by
  have hRead : r.read s.memory b.offset .previous =
      .ok (r.content s.memory .previous b.offset) :=
    h.chained.read_header (Region.offset_mem_headers (by simp)) rfl
  obtain ⟨m, hMark, hHolds₁, hTidy₁⟩ :=
    h.marked [] (List.Sublist.refl _) (fun c hc => (hKept c hc).1) true
      fun hFalse => absurd hFalse (by decide)
  obtain ⟨s₂, hFile, hHolds₂, hTidy₂⟩ := hHolds₁.file [] (List.Sublist.refl _) rfl
    fun c hc => ⟨hHolds₁.sub.subset (hKept c hc).1, (hKept c hc).2⟩
  refine ⟨s₂, ?_, hHolds₂, ?_, hTidy₁.trans hTidy₂⟩
  · have hMark' : r.setMark s.memory b.offset .free = .ok m := hMark
    unfold Store.settle
    rw [hRead, ok_bind, h.isFree_previous_used hUsed, ok_bind, if_neg (by decide), hMark',
      ok_bind]
    exact hFile
  · have hTag : r.content s₂.memory .tag b.offset = Mark.free.tag :=
      hHolds₂.chained.tag { b with isFree := true } (by simp)
    rw [hTag]
    decide

/-- **Settling** a block in hand as free, absorbed by its predecessor if that is free. No
header is left behind that could be taken for one of a used chunk. -/
theorem settle (h : s.Holds r (pre ++ b :: post) (pre ++ post) stack)
    (hKept : ∀ c ∈ kept, c ∈ pre ++ post ∧ c.isFree = false) :
    ∃ stack' pre' b' s', mergePrevious stack pre b = (stack', pre', b') ∧
      s.settle r b.offset = .ok s' ∧
      s'.Holds r (pre' ++ { b' with isFree := true } :: post)
        (pre' ++ { b' with isFree := true } :: post)
        (stackPush stack' { b' with isFree := true }) ∧
      r.content s'.memory .tag b.offset ≠ Mark.used.tag ∧ Tidy r kept [] s s' := by
  rcases free_or_usedLast pre with ⟨front, a, rfl, hFree⟩ | hUsed
  · have hAssoc : ∀ l : List Block, front ++ [a] ++ l = front ++ a :: l := by simp
    rw [hAssoc, hAssoc] at h
    rw [hAssoc] at hKept
    obtain ⟨s', hSettle, hHolds, hTag, hTidy⟩ := h.settle_merged hFree (kept_of_free hFree hKept)
    have hJoined : { a.join b with isFree := true } = a.join b := by
      unfold Block.join
      rw [← hFree]
    refine ⟨_, _, _, s', mergePrevious_free hFree, hSettle, ?_, hTag, hTidy⟩
    rw [hJoined]
    exact hHolds
  · obtain ⟨s', hSettle, hHolds, hTag, hTidy⟩ := h.settle_alone hUsed hKept
    exact ⟨_, _, _, s', mergePrevious_used hUsed, hSettle, hHolds, hTag, hTidy⟩

-- ---------------------------------------------------------------------------
-- Releasing
-- ---------------------------------------------------------------------------

/-- A used block is in hand as soon as its bytes are no longer counted. -/
theorem lifted (h : s.Holds r (pre ++ b :: post) (pre ++ b :: post) stack)
    (hUsed : b.isFree = false) :
    (s.lifted b.size).Holds r (pre ++ b :: post) (pre ++ post) stack := by
  refine ⟨h.region, h.chained, (List.sublist_cons_self _ _).append_left pre, h.filed,
    (Binned.used_iff hUsed).mp h.binned, ?_, ?_, h.metaBytes⟩
  · show s.heap.counters.freeBytes = _
    rw [h.freeBytes]
    simp [hUsed]
  · show s.heap.counters.usedBytes - b.size = _
    rw [h.usedBytes]
    simp [hUsed]
    omega

/-- The bytes of a used block are counted. -/
theorem size_le_usedBytes (h : s.Holds r (pre ++ b :: post) (pre ++ b :: post) stack)
    (hUsed : b.isFree = false) : b.size ≤ s.heap.counters.usedBytes := by
  rw [h.usedBytes]
  simp [hUsed]
  omega

/-- **Releasing** a used block. -/
theorem release (h : s.Holds r (pre ++ b :: post) (pre ++ b :: post) stack)
    (hUsed : b.isFree = false) (hFrees : s.heap.counters.frees + 1 < Word.limit)
    (hKept : ∀ c ∈ kept, c ∈ pre ++ post ∧ c.isFree = false) :
    ∃ s', s.release r b.offset = .ok s' ∧
      s'.Holds r (Tiling.freed stack pre b post).blocks (Tiling.freed stack pre b post).blocks
        (Tiling.freed stack pre b post).stack ∧
      r.content s'.memory .tag b.offset ≠ Mark.used.tag ∧
      r.Edits (Region.Discreet kept []) s.memory s'.memory ∧
      s'.heap.config = s.heap.config ∧
      s'.heap.counters.allocations = s.heap.counters.allocations ∧
      s'.heap.counters.frees = s.heap.counters.frees + 1 ∧
      s'.heap.counters.failedAllocations = s.heap.counters.failedAllocations := by
  have hSize : r.chunkSize s.memory b.offset = .ok b.size := h.chained.chunkSize_eq (by simp)
  have hBytes := h.size_le_usedBytes hUsed
  obtain ⟨stack₁, b₁, post₁, s₁, hNext, hAbsorb, hHolds₁, hOffset, hKept₁, hTidy₁⟩ :=
    (h.lifted hUsed).absorbNext hKept
  obtain ⟨stack₂, pre₂, b₂, s₂, hPrevious, hSettle, hHolds₂, hTag, hTidy₂⟩ :=
    hHolds₁.settle fun c hc => ⟨hKept₁ c hc, (hKept c hc).2⟩
  have hFreed : Tiling.freed stack pre b post =
      { blocks := pre₂ ++ { b₂ with isFree := true } :: post₁
        stack := stackPush stack₂ { b₂ with isFree := true } } := by
    unfold Tiling.freed
    simp only [hNext, hPrevious]
  have hTidy := hTidy₁.trans hTidy₂
  refine ⟨s₂, ?_, ?_, hOffset ▸ hTag, hTidy.edits, hTidy.config, hTidy.allocations, hTidy.frees,
    hTidy.failedAllocations⟩
  · exact release_of_steps hSize hBytes hFrees hAbsorb (hOffset ▸ hSettle)
  · rw [hFreed]
    exact hHolds₂

end Holds

end Store

end RegionHeap
