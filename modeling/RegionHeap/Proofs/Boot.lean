import RegionHeap.Boot.Kernel
import RegionHeap.Proofs.Setup
import RegionHeap.Proofs.Totals
import RegionHeap.Shared.Lemmas

/-!
# Booting

The memory for the kernel's heap is chosen by the length of spans, but the heap needs room between
aligned addresses. Rounding both ends of a span takes up to thirty bytes from it, so a span that
is long enough to be chosen may still have no room. Then, and only then, the heap refuses it, and
always for the same reason: ninety-six bytes are left where it takes a hundred and twelve.

* `Span.room`: the bytes that are left of a span between aligned addresses.
* `Span.mem_of_longest?`, `mapped_of_selectRegion`: what is chosen, and where it is mapped.
* `Span.ofBounds?_ordered`, `Span.hosts`: a heap accepts a span exactly if there is room.
* `Kernel.boot_answers`: what booting any kernel comes to.
* `selection_hosts`: what becomes of the choice, and of booting a fresh kernel.
-/

namespace RegionHeap

variable {span : Span} {map : List MemoryRegion} {offset most : Nat} {selection : Selection}

-- ---------------------------------------------------------------------------
-- Room
-- ---------------------------------------------------------------------------

namespace Region

/-- **The region that fits into bounds** is all that is between them once they are rounded. -/
theorem rounded_of_ofBounds? {start stop : Nat} {r : Region} (h : ofBounds? start stop = .ok r) :
    Word.alignUp? start = some r.base ∧ r.stop = Word.alignDown stop := by
  unfold ofBounds? at h
  split at h
  · exact absurd h (by simp)
  · split at h
    · exact absurd h (by simp)
    · next base hBase =>
      simp only at h
      split at h
      · next hSize =>
        obtain rfl := Except.ok.inj h
        have hLe : base ≤ Word.alignDown stop := by
          have := sizes_eq
          omega
        exact ⟨hBase, Nat.add_sub_cancel' hLe⟩
      · exact absurd h (by simp)

/-- It lies inside the bounds. -/
theorem ofBounds?_inside {start stop : Nat} {r : Region} (h : ofBounds? start stop = .ok r) :
    start ≤ r.base ∧ r.stop ≤ stop := by
  obtain ⟨hUp, hDown⟩ := rounded_of_ofBounds? h
  rw [hDown]
  exact ⟨(Word.alignUp?_eq_some_iff.mp hUp).1, Word.alignDown_le stop⟩

end Region

namespace Span

/-- How many bytes are left of a span when its ends are rounded to aligned addresses inside it. -/
def room (s : Span) : Nat :=
  Word.alignDown s.stop - Word.alignDown (s.start + (Word.alignment - 1))

/-- Rounding takes less than an alignment at each end. -/
theorem length_le_room_add : span.length ≤ span.room + 30 := by
  unfold room length Word.alignDown Word.alignment
  omega

/-- A span that is long enough for a heap has room for it, or falls short by one alignment. -/
theorem room_cases (h : minRegionSize ≤ span.length) :
    minRegionSize ≤ span.room ∨ span.room = 96 := by
  have := span.length_le_room_add
  have := sizes_eq
  have hMod : span.room % 16 = 0 := by
    unfold room Word.alignDown Word.alignment
    omega
  omega

/-- Nothing is lost at aligned ends. -/
theorem room_of_aligned (hStart : span.start % Word.alignment = 0)
    (hStop : span.stop % Word.alignment = 0) : span.room = span.length := by
  unfold room length Word.alignDown
  unfold Word.alignment at *
  omega

/-- The ends are in order, and the start can be rounded up. -/
def Ordered (s : Span) : Prop := s.start ≤ s.stop ∧ s.start + Word.alignment ≤ Word.limit

theorem ofBounds?_invalid (h : ¬span.Ordered) :
    Region.ofBounds? span.start span.stop = .error (.invalidRegion span.start span.stop) := by
  unfold Region.ofBounds?
  split
  · rfl
  · next hBounds =>
    -- the ends are in order, so it is the start that cannot be rounded up
    have hUp : Word.alignUp? span.start = none := by
      unfold Ordered at h
      exact Word.alignUp?_eq_none_iff.mpr (by omega)
    split
    · rfl
    · next base hBase => exact absurd (hUp.symm.trans hBase) (by simp)

/-- **A region fits into a span** if enough is left of it between aligned addresses. -/
theorem ofBounds?_ordered (hOrdered : span.Ordered) (hStop : span.stop < Word.limit) :
    (minRegionSize ≤ span.room → ∃ r, Region.ofBounds? span.start span.stop = .ok r) ∧
    (span.room < minRegionSize → Region.ofBounds? span.start span.stop =
      .error (.regionTooSmall span.room minRegionSize)) := by
  obtain ⟨hEnds, hStart⟩ := hOrdered
  have hUp : Word.alignUp? span.start =
      some (Word.alignDown (span.start + (Word.alignment - 1))) := by
    unfold Word.alignUp?
    exact if_pos (by unfold Word.alignment at *; omega)
  unfold Region.ofBounds?
  rw [dif_neg (by omega)]
  split
  · next hNone =>
    rw [hNone] at hUp
    exact absurd hUp (by simp)
  · next base hBase =>
    obtain rfl := Option.some.inj (hBase.symm.trans hUp)
    refine ⟨fun hRoom => ?_, fun hRoom => ?_⟩
    · simp only [dif_pos (show minRegionSize ≤ Word.alignDown span.stop - _ from hRoom)]
      exact ⟨_, rfl⟩
    · simp only [dif_neg (show ¬minRegionSize ≤ Word.alignDown span.stop - _ from
        Nat.not_le.mpr hRoom)]
      rfl

/-- A region that fits into a span has the size of its room. -/
theorem size_eq_room {r : Region} (h : Region.ofBounds? span.start span.stop = .ok r) :
    r.size = span.room := by
  obtain ⟨hUp, hDown⟩ := Region.rounded_of_ofBounds? h
  have hBase : r.base = Word.alignDown (span.start + (Word.alignment - 1)) := by
    unfold Word.alignUp? at hUp
    exact (Option.some.inj (Option.ite_none_right_eq_some.mp hUp).2).symm
  unfold room
  rw [← hBase, ← hDown]
  exact (Nat.add_sub_cancel_left ..).symm

/-- What a heap without a region makes of a span: it is set up in it if there is room, and
otherwise it says how much there is and stays as it is. -/
def Hosts (s : Span) (store : Store) (config : Config) : Prop :=
  (minRegionSize ≤ s.room ∧ ∃ r store', r.size = s.room ∧
    store.init s.start s.stop config = .ok (.ok (), store') ∧
    Store.LaidOut r config store store') ∨
  (s.room = 96 ∧
    store.init s.start s.stop config = .ok (.error (.regionTooSmall 96 minRegionSize), store))

/-- **A heap accepts a long enough span** exactly if there is room in it. -/
theorem hosts (hLength : minRegionSize ≤ span.length) (hStop : span.stop < Word.limit)
    {store : Store} (hRegion : store.heap.region = none) (config : Config) :
    span.Hosts store config := by
  have hOrdered : span.Ordered := by
    have := sizes_eq
    unfold length at hLength
    unfold Ordered Word.alignment
    omega
  obtain ⟨hFits, hFallsShort⟩ := ofBounds?_ordered hOrdered hStop
  rcases room_cases hLength with hRoom | hRoom
  · obtain ⟨r, hBounds⟩ := hFits hRoom
    obtain ⟨store', hInit, hLaidOut⟩ := Store.init_spec config hRegion hBounds
    exact Or.inl ⟨hRoom, r, store', size_eq_room hBounds, hInit, hLaidOut⟩
  · have hBounds := hFallsShort (by rw [hRoom]; decide)
    rw [hRoom] at hBounds
    exact Or.inr ⟨hRoom, Store.init_refused config hRegion hBounds⟩

-- ---------------------------------------------------------------------------
-- Choosing a span
-- ---------------------------------------------------------------------------

/-- The longest of some spans is one of them. -/
theorem mem_of_longest? {spans : List Span} (h : longest? spans = some span) : span ∈ spans := by
  refine List.foldlRecOn (motive := fun best => ∀ s, best = some s → s ∈ spans) spans _ (by simp)
    (fun best ih s hs s' hBest => ?_) span h
  match best, hBest with
  | none, hBest =>
    obtain rfl := Option.some.inj hBest
    exact hs
  | some longest, hBest =>
    simp only at hBest
    split at hBest
    · obtain rfl := Option.some.inj hBest
      exact hs
    · exact ih s' hBest

end Span

theorem MemoryRegion.usableSpan?_eq_some_iff {region : MemoryRegion} :
    region.usableSpan? = some span ↔ region.kind = .usable ∧
      max region.start lowMemoryLimit < region.stop ∧
      span = ⟨max region.start lowMemoryLimit, region.stop⟩ := by
  unfold usableSpan?
  rw [Option.ite_none_right_eq_some, Option.some.injEq, and_assoc, eq_comm (b := span)]

theorem selectRegion_error {e : BootError} (h : selectRegion map offset most = .error e) :
    e = .noUsableRegion := by
  unfold selectRegion at h
  split at h
  · exact (Except.error.inj h).symm
  · split at h
    · exact (Except.error.inj h).symm
    · exact absurd h (by simp)

/-- What was chosen is mapped from the start of a usable span on, and is a part of it that would
be long enough for a heap. -/
theorem mapped_of_selectRegion (h : selectRegion map offset most = .ok selection) :
    ∃ region ∈ map, ∃ span, region.usableSpan? = some span ∧ minRegionSize ≤ span.length ∧
      selection.mapped = ⟨span.start + offset, span.start + min span.length most + offset⟩ ∧
      selection.mapped.stop < Word.limit := by
  unfold selectRegion at h
  split at h
  · exact absurd h (by simp)
  · next span hLongest =>
    obtain ⟨hSpan, hLength⟩ := List.mem_filter.mp (Span.mem_of_longest? hLongest)
    obtain ⟨region, hRegion, hUsable⟩ := List.mem_filterMap.mp hSpan
    split at h
    · exact absurd h (by simp)
    · next mapped hMapped =>
      obtain rfl := Except.ok.inj h
      unfold Span.translate? at hMapped
      split at hMapped
      · next hWords =>
        obtain rfl := Option.some.inj hMapped
        exact ⟨region, hRegion, span, hUsable, by simpa using hLength, rfl, hWords.2⟩
      · exact absurd hMapped (by simp)

/-- What was chosen is long enough for a heap, if so much may be chosen. -/
theorem length_of_selectRegion (hMost : minRegionSize ≤ most)
    (h : selectRegion map offset most = .ok selection) :
    minRegionSize ≤ selection.mapped.length := by
  obtain ⟨-, -, span, -, hLength, hMapped, -⟩ := mapped_of_selectRegion h
  rw [hMapped]
  show minRegionSize ≤ span.start + min span.length most + offset - (span.start + offset)
  omega

/-- **Nothing is lost** of what was chosen if the map, the offset and the limit are aligned. -/
theorem room_of_selectRegion (hMost : minRegionSize ≤ most)
    (hMap : ∀ region ∈ map, region.start % Word.alignment = 0 ∧ region.stop % Word.alignment = 0)
    (hOffset : offset % Word.alignment = 0) (hAligned : most % Word.alignment = 0)
    (h : selectRegion map offset most = .ok selection) :
    minRegionSize ≤ selection.mapped.room := by
  have hLength := length_of_selectRegion hMost h
  obtain ⟨region, hRegion, span, hUsable, -, hMapped, -⟩ := mapped_of_selectRegion h
  obtain ⟨hStart, hStop⟩ := hMap region hRegion
  obtain ⟨-, hAbove, rfl⟩ := MemoryRegion.usableSpan?_eq_some_iff.mp hUsable
  have hLow : lowMemoryLimit % Word.alignment = 0 := rfl
  unfold Span.length at hMapped
  rw [Span.room_of_aligned]
  · exact hLength
  · rw [hMapped]
    unfold Word.alignment at *
    simp only
    omega
  · rw [hMapped]
    unfold Word.alignment at *
    simp only
    omega

-- ---------------------------------------------------------------------------
-- Telling of a choice and setting up its heap
-- ---------------------------------------------------------------------------

/-- A choice can be told of if its ends are in order. -/
theorem Selection.event_eq (hEnds : selection.mapped.start ≤ selection.mapped.stop) :
    selection.event = .ok
      (.regionSelected selection.physical selection.mapped.start selection.mapped.length) := by
  have hSize : selection.mapped.size = .ok selection.mapped.length :=
    Word.sub_eq_ok_iff.mpr ⟨hEnds, rfl⟩
  unfold Selection.event
  rw [hSize, ok_bind]
  rfl

/-- The ends of what is chosen are in order. -/
theorem ends_of_selectRegion (h : selectRegion map offset most = .ok selection) :
    selection.mapped.start ≤ selection.mapped.stop := by
  obtain ⟨-, -, span, -, -, hMapped, -⟩ := mapped_of_selectRegion h
  rw [hMapped]
  show span.start + offset ≤ span.start + min span.length most + offset
  omega

namespace SharedHeap

theorem announce_silent (s : SharedHeap) (event : Event) :
    s.announce .silent event = .ok (s.record event) := rfl

/-- Without a logger, a heap is given a span as its store is. -/
theorem initSpan_hosted {s : SharedHeap} {r : Region} {store : Store}
    (hInit : s.store.init span.start span.stop .hardened = .ok (.ok (), store))
    (hLaidOut : Store.LaidOut r Config.hardened s.store store) :
    ∃ s', s.initSpan .silent span = .ok (.ok (), s') ∧ s'.store = store := by
  unfold initSpan
  rw [withStore_eq hInit, ok_bind]
  simp only
  rw [hLaidOut.represents.stats_eq, ok_bind, announce_silent, ok_bind]
  exact ⟨_, rfl, rfl⟩

theorem initSpan_refused {s : SharedHeap} {e : HeapError}
    (hInit : s.store.init span.start span.stop .hardened = .ok (.error e, s.store)) :
    s.initSpan .silent span = .ok (.error (.heap e), s) := by
  unfold initSpan
  rw [withStore_eq hInit, ok_bind]
  rfl

end SharedHeap

-- ---------------------------------------------------------------------------
-- Booting
-- ---------------------------------------------------------------------------

namespace Kernel

/-- What booting a kernel comes to. Unless its heap is set up, an event is all that is new. -/
inductive Answers (kernel : Kernel) (map : List MemoryRegion) (offset : Nat) :
    Except BootError Span → Kernel → Prop
  /-- No memory is chosen, and nothing changes. -/
  | unselected : selectRegion map offset maxHeapSize = .error .noUsableRegion →
      Answers kernel map offset (.error .noUsableRegion) kernel
  /-- The heap does not accept what was chosen. -/
  | refused {selection : Selection} {e : HeapError} {event : Event} :
      selectRegion map offset maxHeapSize = .ok selection →
      kernel.heap.store.init selection.mapped.start selection.mapped.stop .hardened =
        .ok (.error e, kernel.heap.store) →
        Answers kernel map offset (.error (.heap e))
          { kernel with heap := kernel.heap.record event }
  /-- The heap is set up in what was chosen. -/
  | hosted {selection : Selection} {r : Region} {heap : SharedHeap} :
      selectRegion map offset maxHeapSize = .ok selection →
      kernel.heap.store.heap.region = none →
      Region.ofBounds? selection.mapped.start selection.mapped.stop = .ok r →
      Store.LaidOut r Config.hardened kernel.heap.store heap.store →
        Answers kernel map offset (.ok selection.mapped)
          { heap := heap, claimed := kernel.claimed <|> some selection.mapped }

/-- **Booting** any kernel comes to an end. The logger is silent: the calls that one makes when it
is told of the choice are calls of their own, made before the heap is set up, and those that it
makes when the heap is ready are made after that. -/
theorem boot_answers (kernel : Kernel) (map : List MemoryRegion) (offset : Nat) :
    ∃ answer kernel', Kernel.boot .silent kernel map offset = .ok (answer, kernel') ∧
      kernel.Answers map offset answer kernel' := by
  cases hSelect : selectRegion map offset maxHeapSize with
  | error e =>
    obtain rfl := selectRegion_error hSelect
    refine ⟨_, _, ?_, .unselected hSelect⟩
    unfold Kernel.boot
    simp only [hSelect]
    rfl
  | ok selection =>
    let told := kernel.heap.record
      (.regionSelected selection.physical selection.mapped.start selection.mapped.length)
    have hStore : told.store = kernel.heap.store := rfl
    unfold Kernel.boot
    simp only [hSelect]
    rw [Selection.event_eq (ends_of_selectRegion hSelect), ok_bind, SharedHeap.announce_silent,
      ok_bind]
    rcases told.store.init_cases selection.mapped.start selection.mapped.stop .hardened with
      ⟨e, hRefused⟩ | ⟨r, store, hRegion, hBounds, hInit, hLaidOut⟩
    · rw [SharedHeap.initSpan_refused hRefused, ok_bind]
      exact ⟨_, _, rfl, .refused hSelect hRefused⟩
    · obtain ⟨heap, hSpan, rfl⟩ := SharedHeap.initSpan_hosted hInit hLaidOut
      rw [hSpan, ok_bind]
      exact ⟨_, _, rfl, .hosted hSelect hRegion hBounds hLaidOut⟩

/-- **A kernel whose heap has no region** boots if there is room in what was chosen. -/
theorem Answers.of_selected {kernel kernel' : Kernel} {answer : Except BootError Span}
    (h : kernel.Answers map offset answer kernel')
    (hRegion : kernel.heap.store.heap.region = none)
    (hSelect : selectRegion map offset maxHeapSize = .ok selection) :
    (minRegionSize ≤ selection.mapped.room ∧ answer = .ok selection.mapped) ∨
      (selection.mapped.room = 96 ∧
        answer = .error (.heap (.regionTooSmall 96 minRegionSize))) := by
  obtain ⟨-, -, -, -, -, -, hStop⟩ := mapped_of_selectRegion hSelect
  have hLength := length_of_selectRegion (by decide) hSelect
  have hHosts := selection.mapped.hosts hLength hStop hRegion .hardened
  cases h with
  | unselected hNone => exact absurd (hNone.symm.trans hSelect) (by simp)
  | refused hSelect' hRefused =>
    obtain rfl := Except.ok.inj (hSelect'.symm.trans hSelect)
    rcases hHosts with ⟨-, r, store, -, hInit, -⟩ | ⟨hRoom, hInit⟩
    · exact absurd (Prod.mk.inj (Except.ok.inj (hRefused.symm.trans hInit))).1 (by simp)
    · obtain ⟨hCause, -⟩ := Prod.mk.inj (Except.ok.inj (hRefused.symm.trans hInit))
      obtain rfl := Except.error.inj hCause
      exact Or.inr ⟨hRoom, rfl⟩
  | hosted hSelect' _ hBounds _ =>
    obtain rfl := Except.ok.inj (hSelect'.symm.trans hSelect)
    rcases hHosts with ⟨hRoom, -⟩ | ⟨-, hInit⟩
    · exact Or.inl ⟨hRoom, rfl⟩
    · obtain ⟨store, hInit', -⟩ := Store.init_spec .hardened hRegion hBounds
      exact absurd (Prod.mk.inj (Except.ok.inj (hInit'.symm.trans hInit))).1 (by simp)

end Kernel

-- ---------------------------------------------------------------------------
-- Booting a fresh kernel
-- ---------------------------------------------------------------------------

/-- What booting a fresh kernel comes to. -/
inductive Kernel.Boots (memory : Memory) (map : List MemoryRegion) (offset : Nat) :
    Except BootError Span → Kernel → Prop
  /-- No memory is chosen, and nothing changes. -/
  | unselected : selectRegion map offset maxHeapSize = .error .noUsableRegion →
      Boots memory map offset (.error .noUsableRegion) (.fresh memory)
  /-- The heap is set up in what was chosen. -/
  | hosted {selection : Selection} {r : Region} {kernel : Kernel} :
      selectRegion map offset maxHeapSize = .ok selection → minRegionSize ≤ selection.mapped.room →
      Store.LaidOut r Config.hardened ⟨Heap.empty, memory⟩ kernel.heap.store →
      kernel.claimed = some selection.mapped →
        Boots memory map offset (.ok selection.mapped) kernel
  /-- There is no room in what was chosen. -/
  | tooSmall {selection : Selection} {kernel : Kernel} :
      selectRegion map offset maxHeapSize = .ok selection → selection.mapped.room = 96 →
      kernel.heap.store = ⟨Heap.empty, memory⟩ → kernel.claimed = none →
        Boots memory map offset (.error (.heap (.regionTooSmall 96 minRegionSize))) kernel

namespace Kernel

/-- **Booting a fresh kernel** always comes to an end. -/
theorem boot_fresh (memory : Memory) (map : List MemoryRegion) (offset : Nat) :
    ∃ answer kernel, Kernel.boot .silent (.fresh memory) map offset = .ok (answer, kernel) ∧
      Boots memory map offset answer kernel := by
  obtain ⟨answer, kernel, hBoot, hAnswers⟩ := boot_answers (.fresh memory) map offset
  refine ⟨answer, kernel, hBoot, ?_⟩
  have hRegion : (Kernel.fresh memory).heap.store.heap.region = none := rfl
  have hSelected := fun (selection : Selection)
    (hSelect : selectRegion map offset maxHeapSize = .ok selection) =>
      hAnswers.of_selected hRegion hSelect
  cases hAnswers with
  | unselected hSelect => exact .unselected hSelect
  | refused hSelect _ =>
    rcases hSelected _ hSelect with ⟨-, hAnswer⟩ | ⟨hRoom, hAnswer⟩
    · exact absurd hAnswer (by simp)
    · rw [hAnswer]
      exact .tooSmall hSelect hRoom rfl rfl
  | hosted hSelect _ _ hLaidOut =>
    rcases hSelected _ hSelect with ⟨hRoom, -⟩ | ⟨-, hAnswer⟩
    · exact .hosted hSelect hRoom hLaidOut rfl
    · exact absurd hAnswer (by simp)

end Kernel

/-- **What is chosen is accepted if there is room**, and if there is none the heap says that
ninety-six bytes are too few: no choice is an invalid region, and none that is aligned or has a
hundred and forty-two bytes falls short. Booting a fresh kernel comes to an end in one of these
ways, or finds no memory to choose. -/
theorem selection_hosts (hMost : minRegionSize ≤ most) (map : List MemoryRegion) (offset : Nat) :
    (∀ selection, selectRegion map offset most = .ok selection →
      (∀ (store : Store) (config : Config), store.heap.region = none →
        selection.mapped.Hosts store config) ∧
      ((∀ region ∈ map, region.start % Word.alignment = 0 ∧ region.stop % Word.alignment = 0) →
        offset % Word.alignment = 0 → most % Word.alignment = 0 →
          minRegionSize ≤ selection.mapped.room) ∧
      (142 ≤ selection.mapped.length → minRegionSize ≤ selection.mapped.room)) ∧
    ∀ memory, ∃ answer kernel, Kernel.boot .silent (.fresh memory) map offset =
      .ok (answer, kernel) ∧ Kernel.Boots memory map offset answer kernel := by
  refine ⟨fun selection hSelect => ⟨fun store config hRegion => ?_, fun hMap hOffset hAligned => ?_,
    fun hLong => ?_⟩, fun memory => Kernel.boot_fresh memory map offset⟩
  · obtain ⟨-, -, -, -, -, -, hStop⟩ := mapped_of_selectRegion hSelect
    exact selection.mapped.hosts (length_of_selectRegion hMost hSelect) hStop hRegion config
  · exact room_of_selectRegion hMost hMap hOffset hAligned hSelect
  · have := selection.mapped.length_le_room_add
    have := sizes_eq
    omega

/-- A page-aligned map of two regions, of which the second is the longer. -/
theorem selection_hosts_second :
    ∃ selection, selectRegion [⟨0x100000, 0x200000, .usable⟩, ⟨0x400000, 0x800000, .usable⟩]
        0x10000000000 maxHeapSize = .ok selection ∧
      selection.mapped = ⟨0x10000400000, 0x10000800000⟩ ∧
      (∀ store : Store, store.heap.region = none → selection.mapped.Hosts store .hardened) ∧
      minRegionSize ≤ selection.mapped.room := by
  have hSelect : selectRegion [⟨0x100000, 0x200000, .usable⟩, ⟨0x400000, 0x800000, .usable⟩]
      0x10000000000 maxHeapSize =
        .ok ⟨⟨0x400000, 0x800000⟩, ⟨0x10000400000, 0x10000800000⟩⟩ := by
    decide +kernel
  have hMost : minRegionSize ≤ maxHeapSize := by decide
  obtain ⟨hHosts, hAligned, -⟩ := (selection_hosts hMost _ _).1 _ hSelect
  exact ⟨_, hSelect, rfl, fun store => hHosts store .hardened,
    hAligned (by decide) (by decide) (by decide)⟩

/-- A hundred and twelve bytes between two odd addresses are chosen, and then refused. -/
theorem boot_chooses_too_little :
    (Kernel.boot .silent (.fresh .blank) [⟨1048577, 1048689, .usable⟩] 68718428160).map (·.1) =
      .ok (.error (.heap (.regionTooSmall 96 112))) := by
  decide +kernel

end RegionHeap
