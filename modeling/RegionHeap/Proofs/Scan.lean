import RegionHeap.Proofs.Selection

/-!
# Scanning a memory map

To choose the memory for the heap the spans of the map are measured one after the other, and the
longest is cut and moved to where it is mapped. `selectInWords` is that choice step by step, with
every sum and every difference one of words, which stops where a word runs over. It never does,
whatever the map says: a region whose end lies below its start has no usable span, so only spans
whose ends are in order are ever measured, and a cut span ends no later than the whole.

* `Span.contest`, `foldlM_contest`: one step of the scan, and all of it.
* `selectInWords_eq`: the choice in words is the choice.
* `exists_split_of_firstLongest`: the chosen span in its place in the map.
* `selection_in_words`: what is chosen, for any map, offset and limit.
-/

namespace RegionHeap

variable {span : Span} {spans : List Span} {map : List MemoryRegion} {offset most : Nat}
variable {selection : Selection}

-- ---------------------------------------------------------------------------
-- The choice in words
-- ---------------------------------------------------------------------------

/-- One span of the map against the longest so far, which is measured only if the span is long
enough for a heap. -/
def Span.contest (best : Option Span) (span : Span) : Checked (Option Span) := do
  let size ← span.size
  if size < minRegionSize then return best
  else
    match best with
    | none => return some span
    | some longest =>
      let longestSize ← longest.size
      return if longestSize < size then some span else best

/-- The choice with every sum and difference one of words, and the events that tell of it. -/
def selectInWords (map : List MemoryRegion) (offset most : Nat) :
    Checked (Except BootError Selection × List Event) := do
  let best ← (map.filterMap MemoryRegion.usableSpan?).foldlM Span.contest none
  match best with
  | none => return (.error .noUsableRegion, [])
  | some span =>
    let size ← span.size
    let stop ← Word.add span.start (min size most)
    match Span.translate? ⟨span.start, stop⟩ offset with
    | none => return (.error .noUsableRegion, [])
    | some mapped =>
      let selection : Selection := { physical := ⟨span.start, stop⟩, mapped := mapped }
      return (.ok selection, [← selection.event])

/-- The event that tells of a choice. -/
def Selection.told (selection : Selection) : Event :=
  .regionSelected selection.physical selection.mapped.start selection.mapped.length

-- ---------------------------------------------------------------------------
-- The scan
-- ---------------------------------------------------------------------------

namespace Span

theorem size_eq (h : span.start ≤ span.stop) : span.size = .ok span.length :=
  Word.sub_eq_ok_iff.mpr ⟨h, rfl⟩

/-- **One step**: a span that is too short is passed over, any other contends for the longest. -/
theorem contest_longest? (hSpans : ∀ s ∈ spans, s.start ≤ s.stop) (hEnds : span.start ≤ span.stop) :
    contest (longest? spans) span =
      .ok (longest? (spans ++ [span].filter fun span => minRegionSize ≤ span.length)) := by
  unfold contest
  rw [size_eq hEnds, ok_bind]
  by_cases hShort : span.length < minRegionSize
  · rw [if_pos hShort, List.filter_cons_of_neg (by simpa using hShort), List.filter_nil,
      List.append_nil]
    rfl
  · rw [if_neg hShort, List.filter_cons_of_pos (by simpa using hShort), List.filter_nil,
      longest?_concat]
    cases hLongest : longest? spans with
    | none => rfl
    | some longest =>
      simp only
      rw [size_eq (hSpans longest (mem_of_longest? hLongest)), ok_bind]
      rfl

/-- **The scan** finds the longest of the spans that are long enough. -/
theorem foldlM_contest (hSpans : ∀ s ∈ spans, s.start ≤ s.stop) :
    spans.foldlM contest none =
      .ok (longest? (spans.filter fun span => minRegionSize ≤ span.length)) := by
  -- the loop keeps the longest of what it has seen, so the induction is on its last span
  induction spans using List.reverseRecOn with
  | nil => rfl
  | append_singleton front last ih =>
    have hFront : ∀ s ∈ front, s.start ≤ s.stop := by
      intro s hs
      exact hSpans s (List.mem_append_left _ hs)
    have hLong : ∀ s ∈ front.filter fun span => minRegionSize ≤ span.length, s.start ≤ s.stop := by
      intro s hs
      exact hFront s (List.mem_of_mem_filter hs)
    have hLast : last.start ≤ last.stop := hSpans last (by simp)
    rw [List.foldlM_append, ih hFront, ok_bind, List.foldlM_cons, contest_longest? hLong hLast,
      List.filter_append]
    rfl

end Span

/-- The ends of a usable span are in order, and no later than those of its region. -/
theorem MemoryRegion.ends_of_usableSpan? {region : MemoryRegion}
    (h : region.usableSpan? = some span) : span.start < span.stop ∧ span.stop = region.stop := by
  obtain ⟨-, hAbove, rfl⟩ := MemoryRegion.usableSpan?_eq_some_iff.mp h
  exact ⟨hAbove, rfl⟩

theorem ends_of_mem_usable (h : span ∈ map.filterMap MemoryRegion.usableSpan?) :
    span.start ≤ span.stop := by
  obtain ⟨region, -, hUsable⟩ := List.mem_filterMap.mp h
  exact Nat.le_of_lt (MemoryRegion.ends_of_usableSpan? hUsable).1

/-- **The choice in words is the choice**, and it is told of. No word runs over. -/
theorem selectInWords_eq (hMap : ∀ region ∈ map, region.stop < Word.limit) (offset most : Nat) :
    selectInWords map offset most = .ok (selectRegion map offset most,
      ((selectRegion map offset most).toOption.map Selection.told).toList) := by
  have hScan : (map.filterMap MemoryRegion.usableSpan?).foldlM Span.contest none =
      .ok (Span.longest? (heapSpans map)) :=
    Span.foldlM_contest fun s hs => ends_of_mem_usable hs
  unfold selectInWords
  rw [hScan, ok_bind]
  cases hLongest : Span.longest? (heapSpans map) with
  | none =>
    unfold selectRegion
    rw [hLongest]
    rfl
  | some span =>
    have hSpan := List.mem_of_mem_filter (Span.mem_of_longest? hLongest)
    have hEnds := ends_of_mem_usable hSpan
    have hStop : span.start + min span.length most < Word.limit := by
      obtain ⟨region, hRegion, hUsable⟩ := List.mem_filterMap.mp hSpan
      have := hMap region hRegion
      have := (MemoryRegion.ends_of_usableSpan? hUsable).2
      unfold Span.length
      omega
    have hFirst := Span.longest?_eq_some_iff.mp hLongest
    have hCut : (⟨span.start, span.start + min span.length most⟩ : Span) = span.cap most := rfl
    simp only
    rw [Span.size_eq hEnds, ok_bind, Word.add_eq_ok_iff.mpr ⟨rfl, hStop⟩, ok_bind, hCut,
      Span.translate?_cap_eq]
    by_cases hFits : span.Fits offset most
    · have hSelect : selectRegion map offset most = .ok (.ofSpan span offset most) := by
        rw [selectRegion_of_firstLongest hFirst, if_pos hFits]
      have hEvent := Selection.event_eq (ends_of_selectRegion hSelect)
      rw [if_pos hFits, hSelect]
      show (do return (_, [← (Selection.ofSpan span offset most).event])) = _
      rw [hEvent]
      rfl
    · rw [if_neg hFits, selectRegion_of_firstLongest hFirst, if_neg hFits]
      rfl

-- ---------------------------------------------------------------------------
-- The place of the chosen span
-- ---------------------------------------------------------------------------

/-- **The chosen span in its place**: the usable spans before it are shorter and those after it are
not longer, also those that are too short for a heap. -/
theorem exists_split_of_firstLongest (h : span.FirstLongest (heapSpans map)) :
    ∃ front region back, map = front ++ region :: back ∧ region.usableSpan? = some span ∧
      minRegionSize ≤ span.length ∧
      (∀ other ∈ front, ∀ s, other.usableSpan? = some s → s.length < span.length) ∧
      ∀ other ∈ back, ∀ s, other.usableSpan? = some s → s.length ≤ span.length := by
  obtain ⟨before, after, hSplit, hBefore, hAfter⟩ := h
  unfold heapSpans at hSplit
  obtain ⟨usableBefore, usableRest, hUsable, hShorter, hRest⟩ := List.filter_eq_append_iff.mp hSplit
  obtain ⟨passed, usableAfter, rfl, hPassed, hLong, hLater⟩ := List.filter_eq_cons_iff.mp hRest
  rw [← List.append_assoc] at hUsable
  obtain ⟨front, rest, rfl, hFront, hRest⟩ := List.filterMap_eq_append_iff.mp hUsable
  obtain ⟨unusable, region, back, rfl, hUnusable, hRegion, hBack⟩ :=
    List.filterMap_eq_cons_iff.mp hRest
  replace hLong : minRegionSize ≤ span.length := of_decide_eq_true hLong
  refine ⟨front ++ unusable, region, back, by simp, hRegion, hLong, fun other hOther s hs => ?_,
    fun other hOther s hs => ?_⟩
  · rcases List.mem_append.mp hOther with hOther | hOther
    · by_cases hShort : s.length < minRegionSize
      · omega
      · have hMem : s ∈ usableBefore ++ passed := by
          rw [← hFront]
          exact List.mem_filterMap.mpr ⟨other, hOther, hs⟩
        refine hBefore s ?_
        rw [← hShorter]
        rcases List.mem_append.mp hMem with hMem | hMem
        · exact List.mem_filter.mpr ⟨hMem, decide_eq_true (Nat.le_of_not_lt hShort)⟩
        · exact absurd (decide_eq_true (Nat.le_of_not_lt hShort)) (hPassed s hMem)
    · rw [hUnusable other hOther] at hs
      exact absurd hs (by simp)
  · by_cases hShort : s.length < minRegionSize
    · omega
    · refine hAfter s ?_
      rw [← hLater, ← hBack]
      exact List.mem_filter.mpr ⟨List.mem_filterMap.mpr ⟨other, hOther, hs⟩,
        decide_eq_true (Nat.le_of_not_lt hShort)⟩

/-- **The choice never runs over a word**, whatever the map, the offset and the limit are. What is
chosen is the part of a usable region above low memory, cut to the limit and moved by the offset.
No such part of the map is longer, and none before it is as long; it is long enough for a heap,
and where it is mapped its ends are words in their order. -/
theorem selection_in_words (hMap : ∀ region ∈ map, region.stop < Word.limit) (offset most : Nat) :
    selectInWords map offset most = .ok (selectRegion map offset most,
      ((selectRegion map offset most).toOption.map Selection.told).toList) ∧
    ∀ selection, selectRegion map offset most = .ok selection →
      ∃ (i : Nat) (region : MemoryRegion) (start stop : Nat), map[i]? = some region ∧
        region.kind = .usable ∧ start = max region.start lowMemoryLimit ∧ stop = region.stop ∧
        start < stop ∧ minRegionSize ≤ stop - start ∧
        (∀ (j : Nat) (other : MemoryRegion) (s : Span), map[j]? = some other →
          other.usableSpan? = some s →
            s.length ≤ stop - start ∧ (j < i → s.length < stop - start)) ∧
        selection.mapped.start = start + offset ∧
        selection.mapped.stop = start + min (stop - start) most + offset ∧
        selection.mapped.stop < Word.limit ∧ selection.mapped.start ≤ selection.mapped.stop ∧
        ∃ size, selection.mapped.size = .ok size ∧ size ≤ most := by
  refine ⟨selectInWords_eq hMap offset most, fun selection hSelect => ?_⟩
  have hEnds := ends_of_selectRegion hSelect
  obtain ⟨span, hFirst, hFits, rfl⟩ := selectRegion_eq_ok_iff.mp hSelect
  obtain ⟨front, region, back, rfl, hUsable, hLong, hFront, hBack⟩ :=
    exists_split_of_firstLongest hFirst
  obtain ⟨hKind, hAbove, rfl⟩ := MemoryRegion.usableSpan?_eq_some_iff.mp hUsable
  refine ⟨front.length, region, _, _, by simp, hKind, rfl, rfl, hAbove, hLong,
    fun j other s hOther hs => ?_, rfl, rfl, hFits, hEnds, _, Span.size_eq hEnds, ?_⟩
  · rcases Nat.lt_trichotomy j front.length with hBefore | rfl | hBehind
    · rw [List.getElem?_append_left hBefore] at hOther
      have := hFront other (List.mem_of_getElem? hOther) s hs
      exact ⟨Nat.le_of_lt this, fun _ => this⟩
    · have hSame : other = region := by simpa using hOther.symm
      obtain rfl := hSame
      obtain rfl := Option.some.inj (hUsable.symm.trans hs)
      exact ⟨Nat.le_refl _, fun h => absurd h (Nat.lt_irrefl _)⟩
    · obtain ⟨k, rfl⟩ := Nat.exists_eq_add_of_lt hBehind
      rw [List.getElem?_append_right (by omega), Nat.add_assoc, Nat.add_sub_cancel_left,
        List.getElem?_cons_succ] at hOther
      exact ⟨hBack other (List.mem_of_getElem? hOther) s hs, fun h => absurd h (by omega)⟩
  · show max region.start lowMemoryLimit +
      min (region.stop - max region.start lowMemoryLimit) most + offset -
        (max region.start lowMemoryLimit + offset) ≤ most
    omega

/-- A map with a region whose end lies below its start, one that is not usable and reaches to the
end of the address space, and two usable ones that overlap. Each of these has half a megabyte above
low memory, so the first of them is chosen. -/
theorem selection_in_words_tie :
    let map : List MemoryRegion :=
      [⟨0x900000, 0x100000, .usable⟩, ⟨0, 0xFFFFFFFFFFFFFFFF, .bootloader⟩,
        ⟨0x1000, 0x180000, .usable⟩, ⟨0x140000, 0x1C0000, .usable⟩]
    (∀ region ∈ map, region.stop < Word.limit) ∧
      selectInWords map 0xFFFF800000000000 0xFFFFFFFFFFFFFFFF =
        .ok (.ok ⟨⟨0x100000, 0x180000⟩, ⟨0xFFFF800000100000, 0xFFFF800000180000⟩⟩,
          [.regionSelected ⟨0x100000, 0x180000⟩ 0xFFFF800000100000 0x80000]) := by
  intro map
  have hMap : ∀ region ∈ map, region.stop < Word.limit := by decide
  have hSelect : selectRegion map 0xFFFF800000000000 0xFFFFFFFFFFFFFFFF =
      .ok ⟨⟨0x100000, 0x180000⟩, ⟨0xFFFF800000100000, 0xFFFF800000180000⟩⟩ := by
    decide +kernel
  refine ⟨hMap, ?_⟩
  rw [(selection_in_words hMap _ _).1, hSelect]
  rfl

end RegionHeap
