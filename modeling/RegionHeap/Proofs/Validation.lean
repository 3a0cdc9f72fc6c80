import RegionHeap.Heap.Free
import RegionHeap.Proofs.Chain

/-!
# Validation, whatever memory holds

A pointer is judged by its address and by three headers, and no link is followed before it is known
to lead to a header. So validation has a result in every memory: a defect of the pointer, or a
header that passes for that of a used chunk.

* `Region.PassesAsUsed`: what a header and its two neighbours hold when it passes.
* `Store.validate_cases`: validation refuses a pointer or comes to such a header.
* `Store.refused_of_validate`: what is refused is neither freed nor has it a size.
* `Store.validate_of_passes`: and what comes to such a header is accepted.
-/

namespace RegionHeap

variable {r : Region} {m : Memory} {o p : Nat}

/-- The header at `o` is in no way different from that of a used chunk, as far as one can tell
without a walk along the chain. -/
structure Region.PassesAsUsed (r : Region) (m : Memory) (o : Nat) : Prop where
  aligned : o % Word.alignment = 0
  inside : 0 < o ∧ o < r.tail
  canary : r.content m .canary o = canaryOf o
  tag : r.content m .tag o = Mark.used.tag
  previous_aligned : r.content m .previous o % Word.alignment = 0
  next_aligned : r.content m .next o % Word.alignment = 0
  previous_lt : r.content m .previous o < o
  lt_next : o < r.content m .next o
  next_le : r.content m .next o ≤ r.tail
  next_previous : r.content m .next (r.content m .previous o) = o
  previous_next : r.content m .previous (r.content m .next o) = o

theorem Region.offsetOfPayload?_eq_some_iff :
    r.offsetOfPayload? p = some o ↔ p = r.payload o ∧ o ≤ r.tail := by
  unfold offsetOfPayload? payload
  split
  · rw [Option.some.injEq]
    omega
  · simp only [reduceCtorEq, false_iff]
    omega

/-- Payloads are aligned as their headers are. -/
theorem Region.payload_mod_alignment (r : Region) (o : Nat) :
    r.payload o % Word.alignment = o % Word.alignment := by
  have hBase := r.base_aligned
  unfold payload headerSize
  unfold Word.alignment at *
  omega

namespace Store

/-- Judging the links of a header comes to an end, because none is followed that leads out of the
region or to where no header can be. -/
theorem linked_cases (ho : o ≤ r.tail) (hAligned : o % Word.alignment = 0) :
    linked r m o = .ok false ∨ linked r m o = .ok true ∧
      r.content m .previous o % Word.alignment = 0 ∧ r.content m .next o % Word.alignment = 0 ∧
      r.content m .previous o < o ∧ o < r.content m .next o ∧ r.content m .next o ≤ r.tail ∧
      r.content m .next (r.content m .previous o) = o ∧
      r.content m .previous (r.content m .next o) = o := by
  unfold linked
  rw [Region.read_of_le_tail ho hAligned rfl, ok_bind, Region.read_of_le_tail ho hAligned rfl,
    ok_bind]
  split
  · next hLinks =>
    obtain ⟨hPreviousAligned, hNextAligned, hPrevious, hNext, hTail⟩ := hLinks
    rw [Region.read_of_le_tail (by omega) hPreviousAligned rfl, ok_bind]
    split
    · next hBack =>
      rw [Region.read_of_le_tail hTail hNextAligned rfl, ok_bind, pure_eq_ok]
      by_cases hForth : r.content m .previous (r.content m .next o) = o
      · exact Or.inr ⟨by simp [hForth], hPreviousAligned, hNextAligned, hPrevious, hNext, hTail,
          hBack, hForth⟩
      · exact Or.inl (by simp [hForth])
    · exact Or.inl rfl
  · exact Or.inl rfl

/-- An aligned header has a defect or passes. -/
theorem usedDefect?_cases (hAligned : o % Word.alignment = 0) (ho : o ≤ r.tail) :
    (∃ defect, usedDefect? r m o = .ok (some defect)) ∨
      usedDefect? r m o = .ok none ∧ r.PassesAsUsed m o := by
  unfold usedDefect?
  split
  · exact Or.inl ⟨_, rfl⟩
  · next hInside =>
    rw [Region.read_of_le_tail ho hAligned rfl, ok_bind]
    split
    · exact Or.inl ⟨_, rfl⟩
    · next hCanary =>
      unfold Region.mark?
      rw [Region.read_of_le_tail ho hAligned rfl, ok_bind, pure_eq_ok, ok_bind]
      cases hMark : Mark.ofTag? (r.content m .tag o) with
      | none => exact Or.inl ⟨_, rfl⟩
      | some mark =>
        cases mark with
        | free | sentinel => exact Or.inl ⟨_, rfl⟩
        | used =>
          simp only
          rcases linked_cases (m := m) ho hAligned with hBroken | ⟨hLinked, hPreviousAligned,
            hNextAligned, hPrevious, hNext, hTail, hBack, hForth⟩
          · rw [hBroken, ok_bind]
            exact Or.inl ⟨_, rfl⟩
          · rw [hLinked, ok_bind]
            exact Or.inr ⟨rfl, hAligned, by omega, Decidable.not_not.mp hCanary,
              Mark.ofTag?_eq_some_iff.mp hMark, hPreviousAligned, hNextAligned, hPrevious, hNext,
              hTail, hBack, hForth⟩

/-- **Validation has a result in every memory**: a defect of the pointer, or the header of a chunk
that passes as used. -/
theorem validate_cases (r : Region) (m : Memory) (p : Nat) :
    (∃ defect, validate r m p = .ok (.error (.corruption p defect))) ∨
      ∃ o, p = r.payload o ∧ validate r m p = .ok (.ok o) ∧ r.PassesAsUsed m o := by
  unfold validate
  split
  · exact Or.inl ⟨_, rfl⟩
  · next hAligned =>
    cases hOffset : r.offsetOfPayload? p with
    | none => exact Or.inl ⟨_, rfl⟩
    | some o =>
      obtain ⟨rfl, hLe⟩ := Region.offsetOfPayload?_eq_some_iff.mp hOffset
      rw [Decidable.not_not, r.payload_mod_alignment] at hAligned
      simp only
      rcases usedDefect?_cases (m := m) hAligned hLe with ⟨defect, hDefect⟩ | ⟨hNone, hPasses⟩
      · rw [hDefect, ok_bind]
        exact Or.inl ⟨defect, rfl⟩
      · rw [hNone, ok_bind]
        exact Or.inr ⟨o, rfl, rfl, hPasses⟩

/-- **What validation refuses** a query refuses, and so does a free that validates. -/
theorem refused_of_validate {s : Store} {e : HeapError} (hRegion : s.heap.region = some r)
    (hRefused : validate r s.memory p = .ok (.error e)) :
    s.usableSize p = .ok (.error e) ∧
      (s.heap.config.validateFrees = true → s.free p = .ok (.error e, s)) := by
  constructor
  · unfold Store.usableSize
    simp only [hRegion]
    rw [hRefused, ok_bind]
    rfl
  · intro hValidate
    unfold Store.free Store.resolve
    simp only [hRegion, hValidate, if_true]
    rw [hRefused, ok_bind]
    rfl

-- ---------------------------------------------------------------------------
-- Headers that pass
-- ---------------------------------------------------------------------------

theorem linked_of_passes (h : r.PassesAsUsed m o) : linked r m o = .ok true := by
  have hInside := h.inside
  have hBefore := h.previous_lt
  unfold linked
  rw [Region.read_of_le_tail (by omega) h.aligned rfl, ok_bind,
    Region.read_of_le_tail (by omega) h.aligned rfl, ok_bind,
    if_pos ⟨h.previous_aligned, h.next_aligned, h.previous_lt, h.lt_next, h.next_le⟩,
    Region.read_of_le_tail (by omega) h.previous_aligned rfl, ok_bind, if_pos h.next_previous,
    Region.read_of_le_tail h.next_le h.next_aligned rfl, ok_bind, h.previous_next]
  simp [pure_eq_ok]

theorem usedDefect?_of_passes (h : r.PassesAsUsed m o) : usedDefect? r m o = .ok none := by
  have hInside := h.inside
  have hMark : r.mark? m o = .ok (some .used) := by
    unfold Region.mark?
    rw [Region.read_of_le_tail (by omega) h.aligned rfl, ok_bind, h.tag]
    rfl
  unfold usedDefect?
  rw [if_neg (by omega), Region.read_of_le_tail (by omega) h.aligned rfl, ok_bind, h.canary,
    if_neg (by simp), hMark, ok_bind]
  simp only
  rw [linked_of_passes h, ok_bind]
  rfl

/-- **Validation** accepts the pointer to a header that passes. -/
theorem validate_of_passes (h : r.PassesAsUsed m o) :
    validate r m (r.payload o) = .ok (.ok o) := by
  have hOffset : r.offsetOfPayload? (r.payload o) = some o :=
    Region.offsetOfPayload?_eq_some_iff.mpr ⟨rfl, h.inside.2.le⟩
  have hAligned : r.payload o % Word.alignment = 0 :=
    (r.payload_mod_alignment o).trans h.aligned
  unfold validate
  rw [if_neg (by simp [hAligned]), hOffset]
  simp only
  rw [usedDefect?_of_passes h, ok_bind]
  rfl

end Store

end RegionHeap
