import RegionHeap.Proofs.Boot

/-!
# The choice of the longest span

Of the spans that are long enough for a heap the longest is chosen, the first one on ties, and only
then is it mapped. If it does not fit into the address space there, no memory is chosen, although a
shorter span of the map might fit. Choosing among those that fit would find it.

* `Span.FirstLongest`: the longest of some spans, and the first of them on ties.
* `Span.longest?_eq_some_iff`: a running maximum finds it.
* `Span.Fits`, `selectFitting`: the choice among the spans that fit where they are mapped.
* `selection_is_of_longest`: what is chosen, and when it is what `selectFitting` chooses.
-/

namespace RegionHeap

variable {span : Span} {spans : List Span} {map : List MemoryRegion} {offset most : Nat}
variable {selection : Selection}

-- ---------------------------------------------------------------------------
-- The longest span
-- ---------------------------------------------------------------------------

namespace Span

/-- No span is longer than this one, and none before it is as long. -/
def FirstLongest (span : Span) (spans : List Span) : Prop :=
  ∃ before after, spans = before ++ span :: after ∧
    (∀ s ∈ before, s.length < span.length) ∧ ∀ s ∈ after, s.length ≤ span.length

/-- One more span replaces the longest so far if it is longer. -/
theorem longest?_concat : longest? (spans ++ [span]) =
    match longest? spans with
    | none => some span
    | some longest => if longest.length < span.length then some span else some longest := by
  unfold longest?
  rw [List.foldl_concat]
  cases spans.foldl _ none <;> rfl

theorem longest?_eq_none_iff : longest? spans = none ↔ spans = [] := by
  constructor
  · intro hNone
    rcases List.eq_nil_or_concat' spans with rfl | ⟨front, last, rfl⟩
    · rfl
    · rw [longest?_concat] at hNone
      split at hNone
      · exact absurd hNone (by simp)
      · split at hNone <;> exact absurd hNone (by simp)
  · rintro rfl
    rfl

/-- What a running maximum finds is the longest of the spans it saw. -/
theorem firstLongest_of_longest? (h : longest? spans = some span) : span.FirstLongest spans := by
  induction spans using List.reverseRecOn generalizing span with
  | nil => exact absurd h (by simp [longest?])
  | append_singleton front last ih =>
    rw [longest?_concat] at h
    cases hFront : longest? front with
    | none =>
      rw [hFront] at h
      obtain rfl := Option.some.inj h
      obtain rfl := longest?_eq_none_iff.mp hFront
      exact ⟨[], [], rfl, by simp, by simp⟩
    | some longest =>
      obtain ⟨before, after, hSplit, hBefore, hAfter⟩ := ih hFront
      simp only [hFront] at h
      split at h
      · next hLonger =>
        -- all that were seen before the last one are shorter than it
        obtain rfl := Option.some.inj h
        refine ⟨front, [], rfl, fun s hs => Nat.lt_of_le_of_lt ?_ hLonger, by simp⟩
        rw [hSplit] at hs
        rcases List.mem_append.mp hs with hs | hs
        · exact Nat.le_of_lt (hBefore s hs)
        · rcases List.mem_cons.mp hs with rfl | hs
          · exact Nat.le_refl _
          · exact hAfter s hs
      · next hNotLonger =>
        obtain rfl := Option.some.inj h
        refine ⟨before, after ++ [last], by rw [hSplit]; simp, hBefore, fun s hs => ?_⟩
        rcases List.mem_append.mp hs with hs | hs
        · exact hAfter s hs
        · obtain rfl := List.mem_singleton.mp hs
          exact Nat.le_of_not_lt hNotLonger

/-- The longest of the spans is what a running maximum finds. -/
theorem longest?_of_firstLongest (h : span.FirstLongest spans) : longest? spans = some span := by
  obtain ⟨before, after, rfl, hBefore, hAfter⟩ := h
  induction after using List.reverseRecOn with
  | nil =>
    rw [longest?_concat]
    cases hFront : longest? before with
    | none => rfl
    | some longest => exact if_pos (hBefore longest (mem_of_longest? hFront))
  | append_singleton front last ih =>
    rw [← List.cons_append, ← List.append_assoc, longest?_concat,
      ih fun s hs => hAfter s (List.mem_append_left _ hs)]
    exact if_neg (Nat.not_lt.mpr (hAfter last (by simp)))

/-- **A running maximum** finds the longest span, the first one on ties. -/
theorem longest?_eq_some_iff : longest? spans = some span ↔ span.FirstLongest spans :=
  ⟨firstLongest_of_longest?, longest?_of_firstLongest⟩

/-- The longest span is also the longest of any part of the list that it is in. -/
theorem FirstLongest.filter {P : Span → Bool} (h : span.FirstLongest spans) (hP : P span = true) :
    span.FirstLongest (spans.filter P) := by
  obtain ⟨before, after, rfl, hBefore, hAfter⟩ := h
  refine ⟨before.filter P, after.filter P, by simp [hP], fun s hs => ?_, fun s hs => ?_⟩
  · exact hBefore s (List.mem_of_mem_filter hs)
  · exact hAfter s (List.mem_of_mem_filter hs)

-- ---------------------------------------------------------------------------
-- Spans that fit
-- ---------------------------------------------------------------------------

/-- The span fits into the address space where it is mapped, if no more than `most` bytes of it
are. -/
def Fits (s : Span) (offset most : Nat) : Prop :=
  s.start + min s.length most + offset < Word.limit

instance (s : Span) (offset most : Nat) : Decidable (s.Fits offset most) :=
  inferInstanceAs (Decidable (_ < _))

end Span

/-- The choice that takes no more than `most` bytes of a span, mapped at `offset`. -/
def Selection.ofSpan (span : Span) (offset most : Nat) : Selection where
  physical := span.cap most
  mapped := ⟨span.start + offset, (span.cap most).stop + offset⟩

/-- A span is mapped exactly if it fits. -/
theorem Span.translate?_cap_eq : (span.cap most).translate? offset =
    if span.Fits offset most then some (Selection.ofSpan span offset most).mapped else none := by
  refine if_congr ?_ rfl rfl
  show span.start + offset < _ ∧ span.start + min span.length most + offset < _ ↔
    span.start + min span.length most + offset < _
  omega

/-- Chooses the memory for a heap among the spans that fit. -/
def selectFitting (map : List MemoryRegion) (offset most : Nat) : Except BootError Selection :=
  match Span.longest? ((heapSpans map).filter fun span => span.Fits offset most) with
  | none => .error .noUsableRegion
  | some span => .ok (.ofSpan span offset most)

theorem selectFitting_eq_error_iff : selectFitting map offset most = .error .noUsableRegion ↔
    ∀ span ∈ heapSpans map, ¬span.Fits offset most := by
  unfold selectFitting
  cases hLongest : Span.longest? ((heapSpans map).filter fun span => span.Fits offset most) with
  | none =>
    have hNone := List.filter_eq_nil_iff.mp (Span.longest?_eq_none_iff.mp hLongest)
    simpa using hNone
  | some span =>
    obtain ⟨hSpan, hFits⟩ := List.mem_filter.mp (Span.mem_of_longest? hLongest)
    refine ⟨fun h => absurd h (by simp), fun hNone => ?_⟩
    exact absurd (of_decide_eq_true hFits) (hNone span hSpan)

/-- What is chosen for the longest span. -/
theorem selectRegion_of_firstLongest (h : span.FirstLongest (heapSpans map)) :
    selectRegion map offset most =
      if span.Fits offset most then .ok (.ofSpan span offset most) else .error .noUsableRegion := by
  unfold selectRegion
  rw [Span.longest?_eq_some_iff.mpr h]
  simp only
  rw [Span.translate?_cap_eq]
  by_cases hFits : span.Fits offset most
  · rw [if_pos hFits, if_pos hFits]
    rfl
  · rw [if_neg hFits, if_neg hFits]

/-- A map without a long enough span has no longest one, and otherwise it has. -/
theorem firstLongest_cases (map : List MemoryRegion) (offset most : Nat) :
    (heapSpans map = [] ∧ selectRegion map offset most = .error .noUsableRegion) ∨
      ∃ span, span.FirstLongest (heapSpans map) ∧
        ∀ other : Span, other.FirstLongest (heapSpans map) → other = span := by
  cases hLongest : Span.longest? (heapSpans map) with
  | none =>
    refine Or.inl ⟨Span.longest?_eq_none_iff.mp hLongest, ?_⟩
    unfold selectRegion
    rw [hLongest]
  | some span =>
    refine Or.inr ⟨span, Span.longest?_eq_some_iff.mp hLongest, fun other hOther => ?_⟩
    exact Option.some.inj ((Span.longest?_eq_some_iff.mpr hOther).symm.trans hLongest)

theorem selectRegion_eq_ok_iff : selectRegion map offset most = .ok selection ↔
    ∃ span : Span, span.FirstLongest (heapSpans map) ∧ span.Fits offset most ∧
      selection = .ofSpan span offset most := by
  constructor
  · intro h
    rcases firstLongest_cases map offset most with ⟨-, hNone⟩ | ⟨span, hFirst, -⟩
    · exact absurd (hNone.symm.trans h) (by simp)
    · rw [selectRegion_of_firstLongest hFirst] at h
      split at h
      · next hFits => exact ⟨span, hFirst, hFits, (Except.ok.inj h).symm⟩
      · exact absurd h (by simp)
  · rintro ⟨span, hFirst, hFits, rfl⟩
    rw [selectRegion_of_firstLongest hFirst, if_pos hFits]

theorem selectRegion_eq_error_iff : selectRegion map offset most = .error .noUsableRegion ↔
    ∀ span : Span, span.FirstLongest (heapSpans map) → ¬span.Fits offset most := by
  constructor
  · intro h span hFirst hFits
    rw [selectRegion_of_firstLongest hFirst, if_pos hFits] at h
    exact absurd h (by simp)
  · intro h
    rcases firstLongest_cases map offset most with ⟨-, hNone⟩ | ⟨span, hFirst, -⟩
    · exact hNone
    · rw [selectRegion_of_firstLongest hFirst, if_neg (h span hFirst)]

/-- Choosing among the spans that fit comes to the same if the longest of all is one of them. -/
theorem selectFitting_of_firstLongest (hFirst : span.FirstLongest (heapSpans map))
    (hFits : span.Fits offset most) :
    selectFitting map offset most = .ok (.ofSpan span offset most) := by
  unfold selectFitting
  rw [Span.longest?_eq_some_iff.mpr (hFirst.filter (decide_eq_true hFits))]

/-- **The longest span that is long enough for a heap is chosen, if it fits.** If it does not fit,
none is chosen: the choice is the one among the spans that fit exactly if there are none of them or
the longest span of all is one of them. -/
theorem selection_is_of_longest (map : List MemoryRegion) (offset most : Nat) :
    (∀ selection, selectRegion map offset most = .ok selection ↔
      ∃ span : Span, span.FirstLongest (heapSpans map) ∧ span.Fits offset most ∧
        selection = .ofSpan span offset most) ∧
    (selectRegion map offset most = .error .noUsableRegion ↔
      ∀ span : Span, span.FirstLongest (heapSpans map) → ¬span.Fits offset most) ∧
    (selectRegion map offset most = selectFitting map offset most ↔
      (∀ span ∈ heapSpans map, ¬span.Fits offset most) ∨
        ∃ span : Span, span.FirstLongest (heapSpans map) ∧ span.Fits offset most) := by
  refine ⟨fun _ => selectRegion_eq_ok_iff, selectRegion_eq_error_iff, fun h => ?_, ?_⟩
  · by_cases hError : selectRegion map offset most = .error .noUsableRegion
    · exact Or.inl (selectFitting_eq_error_iff.mp (h.symm.trans hError))
    · -- what is chosen is chosen for the longest span
      rw [selectRegion_eq_error_iff] at hError
      push Not at hError
      exact Or.inr hError
  · rintro (hNone | ⟨span, hFirst, hFits⟩)
    · rw [selectFitting_eq_error_iff.mpr hNone, selectRegion_eq_error_iff]
      intro span hFirst
      exact hNone span (Span.mem_of_longest? (Span.longest?_eq_some_iff.mpr hFirst))
    · rw [selectFitting_of_firstLongest hFirst hFits, selectRegion_of_firstLongest hFirst,
        if_pos hFits]

/-- A long span at the end of the address space hides one megabyte that fits. -/
theorem selection_hides_fitting_span :
    selectRegion [⟨0x100000, 0x200000, .usable⟩, ⟨0x800000000000, 0x800001000000, .usable⟩]
        0xFFFF800000000000 maxHeapSize = .error .noUsableRegion ∧
      selectFitting [⟨0x100000, 0x200000, .usable⟩, ⟨0x800000000000, 0x800001000000, .usable⟩]
        0xFFFF800000000000 maxHeapSize =
        .ok ⟨⟨0x100000, 0x200000⟩, ⟨0xFFFF800000100000, 0xFFFF800000200000⟩⟩ := by
  decide +kernel

end RegionHeap
