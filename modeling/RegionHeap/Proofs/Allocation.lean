import RegionHeap.Proofs.Holding
import RegionHeap.Proofs.Tilings

/-!
# Taking a chunk

The steps of an allocation on a store: a free block is popped and so in hand, it is cut
in two if enough is left over, and it is marked and counted as used.

* `Holds.splitChunk_cut`: the rest of a block is a block of its own and filed.
* `Holds.use`: a block in hand is settled as used.
* `Holds.takeFrom`: all of it; what is left of the popped block is `Block.take`.
-/

namespace RegionHeap

variable {r : Region} {m : Memory} {o need : Nat} {k : SizeClass}
variable {b c : Block} {blocks settled kept pre post : List Block}
variable {stack : SizeClass → List Nat} {granted : List Nat}

namespace Store

-- ---------------------------------------------------------------------------
-- Steps of a call
-- ---------------------------------------------------------------------------

/-- The store with another memory and one more header counted. -/
def spliced (s : Store) (m : Memory) : Store where
  heap :=
    { s.heap with
      counters := { s.heap.counters with metaBytes := s.heap.counters.metaBytes + headerSize } }
  memory := m

/-- Splitting a chunk is splicing the rest in and filing it. The header is counted after that,
which makes no difference. -/
theorem splitChunk_of_file {s s' : Store} {size : Nat} (hRest : need + headerSize < size)
    (hSplice : r.spliceAfter s.memory o (o + headerSize + need) .free = .ok m)
    (hMeta : s.heap.counters.metaBytes + headerSize < Word.limit)
    (hFile : (s.spliced m).file r (o + headerSize + need) = .ok s') :
    s.splitChunk r o size need = .ok s' := by
  obtain ⟨bins, m', rest, freeBytes, hPush, hChunk, hFree, rfl⟩ := file_eq_ok hFile
  have hExcess : ¬size - need ≤ headerSize := by omega
  have hPush' : s.heap.bins.push r m (o + headerSize + need) = .ok (bins, m') := hPush
  have hFree' : Word.add s.heap.counters.freeBytes rest = .ok freeBytes := hFree
  unfold splitChunk
  rw [Word.sub_eq_ok_iff.mpr ⟨by omega, rfl⟩, ok_bind, if_neg hExcess]
  show (r.spliceAfter s.memory o (o + headerSize + need) .free >>= _) = _
  rw [hSplice, ok_bind, hPush', ok_bind]
  show (r.chunkSize m' (o + headerSize + need) >>= _) = _
  rw [hChunk, ok_bind, hFree', ok_bind, Word.add_eq_ok_iff.mpr ⟨rfl, hMeta⟩, ok_bind]
  rfl

/-- Taking a chunk is popping it, splitting it, marking it and counting it. -/
theorem takeFrom_of_steps {s s' : Store} {bins : Bins} {m' : Memory}
    {capacity freeBytes size usedBytes : Nat}
    (hPop : s.heap.bins.pop r s.memory k = .ok (some (o, bins, m)))
    (hCapacity : r.chunkSize m o = .ok capacity)
    (hFree : Word.sub s.heap.counters.freeBytes capacity = .ok freeBytes)
    (hSplit : (s.refiled bins m freeBytes).splitChunk r o capacity need = .ok s')
    (hMark : r.setMark s'.memory o .used = .ok m') (hSize : r.chunkSize m' o = .ok size)
    (hUsed : Word.add s'.heap.counters.usedBytes size = .ok usedBytes) :
    s.takeFrom r need k = .ok (some o,
      { heap := { s'.heap with counters := { s'.heap.counters with usedBytes := usedBytes } }
        memory := m' }) := by
  unfold Store.takeFrom
  rw [hPop, ok_bind]
  simp only
  rw [hCapacity, ok_bind, hFree, ok_bind]
  show ((s.refiled bins m freeBytes).splitChunk r o capacity need >>= _) = _
  rw [hSplit, ok_bind, hMark, ok_bind, hSize, ok_bind, hUsed, ok_bind]
  rfl

namespace Holds

variable {s : Store}

-- ---------------------------------------------------------------------------
-- Cutting
-- ---------------------------------------------------------------------------

/-- A block in hand that is just large enough stays whole. -/
theorem splitChunk_whole (s : Store) (hLe : need ≤ b.size) (h : b.size ≤ need + headerSize) :
    s.splitChunk r b.offset b.size need = .ok s := by
  unfold splitChunk
  rw [Word.sub_eq_ok_iff.mpr ⟨hLe, rfl⟩, ok_bind, if_pos (by omega)]
  rfl

/-- A block in hand is cut, and the rest of it is filed. -/
theorem splitChunk_cut (granted : List Nat)
    (h : s.Holds r (pre ++ b :: post) (pre ++ post) stack)
    (hMin : minPayload ≤ need) (hMod : need % Word.alignment = 0)
    (hRest : need + headerSize < b.size)
    (hKept : ∀ c ∈ kept, c ∈ pre ++ post ∧ c.isFree = false) :
    ∃ s', s.splitChunk r b.offset b.size need = .ok s' ∧
      s'.Holds r (pre ++ (b.cut need).1 :: (b.cut need).2 :: post)
        (pre ++ (b.cut need).2 :: post) (stackPush stack (b.cut need).2) ∧
      Tidy r kept granted s s' := by
  obtain ⟨m, hSplice, hChained, hEdits⟩ := h.chained.splice hMin hMod hRest
  have hTiled := hChained.tiled
  have hSub : (pre ++ (b.cut need).2 :: post).Sublist
      (pre ++ (b.cut need).1 :: (b.cut need).2 :: post) :=
    (List.sublist_cons_self _ _).append_left pre
  have hSub' : (pre ++ post).Sublist (pre ++ (b.cut need).1 :: (b.cut need).2 :: post) :=
    ((List.sublist_cons_self _ _).append_left pre).trans hSub
  have hMeta : s.heap.counters.metaBytes + headerSize =
      headerSize * (pre ++ (b.cut need).1 :: (b.cut need).2 :: post).length := by
    rw [h.metaBytes, ← Nat.mul_succ]
    simp only [List.length_append, List.length_cons]
    rfl
  have hMetaLt : s.heap.counters.metaBytes + headerSize < Word.limit := by
    have := hTiled.total
    have := r.tail_add_headerSize
    have := r.size_lt_limit
    omega
  -- after the splice the rest is in hand, like the block it was cut from
  have hSpliced : (s.spliced m).Holds r (pre ++ (b.cut need).1 :: (b.cut need).2 :: post)
      (pre ++ post) stack :=
    ⟨h.region, hChained, hSub', h.filed_of_headerEdits hTiled hSub' hEdits
      fun _ _ _ hx => ⟨hx.1, hx.2.1⟩, h.binned, h.freeBytes, h.usedBytes, hMeta⟩
  have hTidy : Tidy r kept granted s (s.spliced m) := by
    refine ⟨hEdits.mono fun x f v hx => ?_, rfl, rfl, rfl, rfl⟩
    exact hx.discreet hTiled fun c hc => hSub'.subset (hKept c hc).1
  obtain ⟨s', hFile, hHolds, hTidy'⟩ := hSpliced.file granted hSub rfl
    fun c hc => ⟨hSub'.subset (hKept c hc).1, (hKept c hc).2⟩
  exact ⟨s', splitChunk_of_file hRest hSplice hMetaLt hFile, hHolds, hTidy.trans hTidy'⟩

-- ---------------------------------------------------------------------------
-- Using
-- ---------------------------------------------------------------------------

/-- A block in hand is marked used and counted as such. -/
theorem use (h : s.Holds r (pre ++ b :: post) (pre ++ post) stack)
    (hKept : ∀ c ∈ kept, c ∈ pre ++ post) (hGranted : b.offset ∈ granted) :
    ∃ m, r.setMark s.memory b.offset .used = .ok m ∧
      r.chunkSize m b.offset = .ok b.size ∧
      Word.add s.heap.counters.usedBytes b.size = .ok (s.heap.counters.usedBytes + b.size) ∧
      let counters := { s.heap.counters with usedBytes := s.heap.counters.usedBytes + b.size }
      let s' : Store := { heap := { s.heap with counters := counters }, memory := m }
      s'.Holds r (pre ++ { b with isFree := false } :: post)
          (pre ++ { b with isFree := false } :: post) stack ∧
        Tidy r kept granted s s' := by
  obtain ⟨m, hMark, hHolds, hTidy⟩ :=
    h.marked granted (List.Sublist.refl _) hKept false fun _ => hGranted
  have hSize : r.chunkSize m b.offset = .ok b.size :=
    hHolds.chained.chunkSize_eq (b := { b with isFree := false }) (by simp)
  have hUsed : s.heap.counters.usedBytes + b.size < Word.limit := by
    have := hHolds.bytes_lt
    rw [h.usedBytes]
    simp only [usedBytes_append, usedBytes_cons, Bool.false_eq_true, if_false] at this ⊢
    omega
  refine ⟨m, hMark, hSize, Word.add_eq_ok_iff.mpr ⟨rfl, hUsed⟩, ?_, ?_⟩
  · constructor
    · exact h.region
    · exact hHolds.chained
    · exact List.Sublist.refl _
    · exact hHolds.filed
    · exact (Binned.used_iff rfl).mpr hHolds.binned
    · show s.heap.counters.freeBytes = _
      rw [h.freeBytes]
      simp
    · show s.heap.counters.usedBytes + b.size = _
      rw [h.usedBytes]
      simp
      omega
    · exact hHolds.metaBytes
  · exact ⟨hTidy.edits, rfl, rfl, rfl, rfl⟩

-- ---------------------------------------------------------------------------
-- Taking
-- ---------------------------------------------------------------------------

/-- **Taking a chunk** out of a class: the block on top of its stack is used, and what is
left of it is filed. -/
theorem takeFrom {rest : List Nat} (h : s.Holds r blocks blocks stack)
    (hStack : stack k = o :: rest) (hMin : minPayload ≤ need)
    (hMod : need % Word.alignment = 0) (hClass : need ≤ 2 ^ k.val) :
    ∃ pre b post s', blocks = pre ++ b :: post ∧ b.offset = o ∧ b.isFree = true ∧
      need ≤ b.size ∧ s.takeFrom r need k = .ok (some o, s') ∧
      s'.Holds r (pre ++ b.take need ++ post) (pre ++ b.take need ++ post)
        (stackTake stack b need) ∧
      Tidy r (blocks.filter (!·.isFree)) [o] s s' := by
  obtain ⟨b, hb, hFree, rfl, rfl⟩ := h.exists_free (k := k) (o := o) (by simp [hStack])
  obtain ⟨pre, post, rfl⟩ := List.append_of_mem hb
  have hNeed : need ≤ b.size := by
    have hPayload := (h.tiled.payload hb).1
    have := SizeClass.two_pow_le_of_ofSize_eq (n := b.size) (by have := sizes_eq; omega) rfl
    omega
  have hKept : ∀ c ∈ (pre ++ b :: post).filter (!·.isFree), c ∈ pre ++ post ∧ c.isFree = false :=
    kept_of_free hFree fun c hc =>
      ⟨List.mem_of_mem_filter hc, by simpa using List.of_mem_filter hc⟩
  -- the block on top is popped, and so in hand
  obtain ⟨bins, m, hPop, hFiled, hEdits⟩ := h.filed.pop_cons h.placed hStack
  obtain ⟨hHeld, hTidy⟩ := h.detached [b.offset] hFree
    (fun c hc => ⟨List.mem_of_mem_filter hc, (hKept c hc).2⟩) hFiled hEdits
  have hSize : r.chunkSize m b.offset = .ok b.size := hHeld.chained.chunkSize_eq hb
  have hFreed : Word.sub s.heap.counters.freeBytes b.size =
      .ok (s.heap.counters.freeBytes - b.size) := by
    refine Word.sub_eq_ok_iff.mpr ⟨?_, rfl⟩
    rw [h.freeBytes]
    simp [hFree]
    omega
  -- either all of it is used, or the rest is filed again
  by_cases hWhole : b.size ≤ need + headerSize
  · obtain ⟨m₂, hMark, hChunk, hUsed, hHolds, hTidy'⟩ :=
      hHeld.use (fun c hc => (hKept c hc).1) (List.mem_singleton_self b.offset)
    refine ⟨pre, b, post, _, rfl, rfl, hFree, hNeed,
      takeFrom_of_steps hPop hSize hFreed (splitChunk_whole _ hNeed hWhole) hMark hChunk hUsed,
      ?_, hTidy.trans hTidy'⟩
    rw [stackTake, if_pos hWhole, Block.take_whole hWhole]
    simpa using hHolds
  · obtain ⟨s₂, hSplit, hHeld₂, hTidy₂⟩ :=
      hHeld.splitChunk_cut [b.offset] hMin hMod (by omega) hKept
    have hKept₂ : ∀ c ∈ (pre ++ b :: post).filter (!·.isFree),
        c ∈ pre ++ (b.cut need).2 :: post := by
      intro c hc
      have hc' := (hKept c hc).1
      simp only [List.mem_append, List.mem_cons] at hc' ⊢
      tauto
    obtain ⟨m₂, hMark, hChunk, hUsed, hHolds, hTidy₃⟩ :=
      hHeld₂.use hKept₂ (List.mem_singleton_self b.offset)
    refine ⟨pre, b, post, _, rfl, rfl, hFree, hNeed,
      takeFrom_of_steps hPop hSize hFreed hSplit hMark hChunk hUsed, ?_,
      (hTidy.trans hTidy₂).trans hTidy₃⟩
    rw [stackTake, if_neg hWhole, Block.take_cut (by omega)]
    simpa using hHolds

end Holds

end Store

end RegionHeap
