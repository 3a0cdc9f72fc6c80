import RegionHeap.Proofs.Setup
import RegionHeap.Proofs.Validation

/-!
# What a query makes of a pointer

Asking for the size of an allocation judges the pointer first, and whatever memory holds there is
an answer: a defect, which a validating heap gives for a free as well, or a size. The size is the
distance to the next header less a header, and the difference does not run below zero: a header
that passes leads at least a header's length upwards, for else its own tag would be the low half
of the back link that it is compared with, and no aligned offset reads as the tag of a used chunk.

* `Region.PassesAsUsed.headerSize_le`: the next header is not inside the one that passes.
* `Region.SameInside`: two memories hold the same bytes inside the region; no more than these is
  read (`SameInside.usableSize`).
* `usableSize_verdict`: what a query answers, and what a validating free makes of it.
-/

namespace RegionHeap

variable {r : Region} {m m' : Memory} {o p : Nat} {f : Field} {s : Store}

-- ---------------------------------------------------------------------------
-- Headers that pass have a size
-- ---------------------------------------------------------------------------

namespace Region

/-- The tag of a header is the low half of what would be the back link of a header in its middle. -/
theorem content_tag_eq (r : Region) (m : Memory) (o : Nat) :
    r.content m .tag o = r.content m .previous (o + Field.tag.position) % 256 ^ 4 := by
  unfold content
  rw [← Nat.add_assoc r.base]
  exact Memory.load_low m (by decide)

/-- **The next header** is not inside the one that passes. -/
theorem PassesAsUsed.headerSize_le (h : r.PassesAsUsed m o) :
    o + headerSize ≤ r.content m .next o := by
  by_contra hInside
  have hAligned := h.aligned
  have hNextAligned := h.next_aligned
  have hAbove := h.lt_next
  have hNext : r.content m .next o = o + Field.tag.position := by
    have hPosition : Field.tag.position = 16 := rfl
    unfold headerSize at hInside
    unfold Word.alignment at *
    omega
  -- the back link of the next header begins with the tag, and is the offset of this one
  have hTag : Mark.used.tag = o % 256 ^ 4 := by
    have hBack := h.previous_next
    rw [hNext] at hBack
    rw [← h.tag, content_tag_eq, hBack]
  have hUsed : Mark.used.tag % Word.alignment = 4 := by decide
  unfold Word.alignment at *
  omega

theorem chunkSize_of_passes (h : r.PassesAsUsed m o) :
    r.chunkSize m o = .ok (r.content m .next o - o - headerSize) := by
  have hInside := h.inside
  have hNext := h.lt_next
  have hSize := h.headerSize_le
  unfold chunkSize
  rw [read_of_le_tail (by omega) h.aligned rfl, ok_bind, if_neg (by omega)]
  exact Word.sub_eq_ok_iff.mpr ⟨by omega, rfl⟩

-- ---------------------------------------------------------------------------
-- Memories that are the same inside the region
-- ---------------------------------------------------------------------------

/-- Two memories hold the same bytes inside the region. -/
def SameInside (r : Region) (m m' : Memory) : Prop :=
  ∀ x, r.base ≤ x → x < r.stop → m'.byte x = m.byte x

namespace SameInside

/-- A field can be read only if it is inside the region. -/
theorem read (h : r.SameInside m m') (o : Nat) (f : Field) : r.read m' o f = r.read m o f := by
  have hWidth := f.position_add_width_le_reach
  refine read_congr fun hAccess x hLow hHigh => h x (by omega) ?_
  have hReach := hAccess.reach
  unfold stop
  omega

theorem chunkSize (h : r.SameInside m m') (o : Nat) : r.chunkSize m' o = r.chunkSize m o := by
  unfold Region.chunkSize
  rw [h.read]

theorem linked (h : r.SameInside m m') (o : Nat) : Store.linked r m' o = Store.linked r m o := by
  unfold Store.linked
  simp only [h.read]

theorem usedDefect? (h : r.SameInside m m') (o : Nat) :
    Store.usedDefect? r m' o = Store.usedDefect? r m o := by
  unfold Store.usedDefect? Region.mark?
  simp only [h.read, h.linked]

theorem validate (h : r.SameInside m m') (p : Nat) :
    Store.validate r m' p = Store.validate r m p := by
  unfold Store.validate
  simp only [h.usedDefect?]

/-- **The query** reads no byte outside the region. -/
theorem usableSize (hRegion : s.heap.region = some r) (h : r.SameInside s.memory m') (p : Nat) :
    Store.usableSize { s with memory := m' } p = s.usableSize p := by
  unfold Store.usableSize
  simp only [hRegion, h.validate, h.chunkSize]

end SameInside

end Region

-- ---------------------------------------------------------------------------
-- The verdict
-- ---------------------------------------------------------------------------

/-- What a heap makes of a pointer: a defect, which a validating free finds as well and leaves
everything as it is, or the distance from its header to the next, less a header. -/
inductive Store.Verdict (s : Store) (r : Region) (p : Nat) : Prop
  | refuses (defect : Defect) : s.usableSize p = .ok (.error (.corruption p defect)) →
      (s.heap.config.validateFrees = true →
        s.free p = .ok (.error (.corruption p defect), s)) → Verdict s r p
  | accepts (o next : Nat) : p = r.payload o → r.read s.memory o .next = .ok next →
      o + headerSize ≤ next → next ≤ r.tail →
        s.usableSize p = .ok (.ok (next - o - headerSize)) → Verdict s r p

/-- **Whatever memory holds**, a query has an answer for every address. It reads nothing outside
the region, and what it refuses a validating free refuses for the same reason. -/
theorem usableSize_verdict (hRegion : s.heap.region = some r) (p : Nat) :
    s.Verdict r p ∧ ∀ m', r.SameInside s.memory m' →
      Store.usableSize { s with memory := m' } p = s.usableSize p := by
  refine ⟨?_, fun m' hSame => hSame.usableSize hRegion p⟩
  rcases Store.validate_cases r s.memory p with
    ⟨defect, hRefused⟩ | ⟨o, hPayload, hAccepted, hPasses⟩
  · obtain ⟨hQuery, hFree⟩ := Store.refused_of_validate hRegion hRefused
    exact .refuses defect hQuery hFree
  · have hInside := hPasses.inside
    refine .accepts o _ hPayload (Region.read_of_le_tail (by omega) hPasses.aligned rfl)
      hPasses.headerSize_le hPasses.next_le ?_
    unfold Store.usableSize
    simp only [hRegion]
    rw [hAccepted, ok_bind]
    simp only
    rw [Region.chunkSize_of_passes hPasses, ok_bind]
    rfl

/-- A header is forged inside the free chunk of a fresh heap, with a successor that begins in its
middle. Only that its tag is no offset gives it away. -/
theorem usableSize_verdict_forged :
    ∃ s', Store.init ⟨Heap.empty, Memory.blank⟩ 65536 66560 .hardened = .ok (.ok (), s') ∧
      ∃ m, Region.kibibyte.read m 96 .canary = .ok (canaryOf 96) ∧
        Region.kibibyte.mark? m 96 = .ok (some .used) ∧
        Region.kibibyte.read m 96 .next = .ok 112 ∧
        Store.usableSize { s' with memory := m } 65664 =
          .ok (.error (.corruption 65664 .brokenLinks)) ∧
        Store.free { s' with memory := m } 65664 =
          .ok (.error (.corruption 65664 .brokenLinks), { s' with memory := m }) := by
  have hShows : Store.Shows
      ((Store.init ⟨Heap.empty, Memory.blank⟩ 65536 66560 .hardened).map (·.2)) fun s _ =>
        let m := (((s.memory.store 65632 8 0).store 65640 8 112).store 65648 4
          Mark.used.tag).store 65652 4 (canaryOf 96)
        Region.kibibyte.read m 96 .canary = .ok (canaryOf 96) ∧
          Region.kibibyte.mark? m 96 = .ok (some .used) ∧
          Region.kibibyte.read m 96 .next = .ok 112 ∧
          Store.usableSize { s with memory := m } 65664 =
            .ok (.error (.corruption 65664 .brokenLinks)) := by
    decide +kernel
  obtain ⟨s', hInit, hLaidOut⟩ := Store.init_kibibyte .hardened
  obtain ⟨s, r, hStore, hRegion, hForged⟩ := hShows
  rw [hInit] at hStore
  obtain rfl : s' = s := Except.ok.inj hStore
  obtain ⟨m, hCanary, hMark, hNext, hSize⟩ : ∃ m,
      Region.kibibyte.read m 96 .canary = .ok (canaryOf 96) ∧
        Region.kibibyte.mark? m 96 = .ok (some .used) ∧
        Region.kibibyte.read m 96 .next = .ok 112 ∧
        Store.usableSize { s' with memory := m } 65664 =
          .ok (.error (.corruption 65664 .brokenLinks)) := ⟨_, hForged⟩
  refine ⟨s', hInit, m, hCanary, hMark, hNext, hSize, ?_⟩
  obtain ⟨hVerdict, -⟩ := usableSize_verdict (s := { s' with memory := m }) hRegion 65664
  cases hVerdict with
  | refuses defect hRefused hFree =>
    obtain rfl : defect = .brokenLinks := by simpa [hSize] using hRefused.symm
    exact hFree (congrArg Config.validateFrees hLaidOut.config)
  | accepts o next _ _ _ _ hAnswer => exact absurd (hAnswer.symm.trans hSize) (by simp)

end RegionHeap
