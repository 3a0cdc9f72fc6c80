import RegionHeap.Proofs.Reports

/-!
# The life of a kernel

A kernel may be booted any number of times, with any memory map each time, and its heap may be used
before, between and after. Two things have to agree all along: the heap, which has a region or has
none, and the span that the kernel remembers. Whatever happens there are two stages only. The
kernel waits for memory, its heap has no region and refuses everything; or it runs, in the one span
that was ever granted.

* `Machine.History`: any finite history of a kernel and of the program that uses its heap.
* `Machine.Stage`: the two stages.
* `Stage.boot`, `Stage.attend`, `Stage.write`: what each occurrence makes of them.
* `History.stage`: the stage after any history.
* `kernel_boots_once`: what is granted, what is remembered and what the heap works on.
-/

namespace RegionHeap

/-- A kernel and the program that uses its heap. -/
structure Machine where
  program : Program
  claimed : Option Span

/-- Something that happens to a machine. -/
inductive Occurrence
  | boot (map : List MemoryRegion) (offset : Nat) (answer : Except BootError Span)
  | errand (wanted : Errand)

/-- The span that was granted, if the kernel booted. -/
def Occurrence.granted? : Occurrence → Option Span
  | .boot _ _ (.ok span) => some span
  | .boot _ _ (.error _) | .errand _ => none

/-- The spans that were granted so far. -/
def Occurrence.granted (log : List Occurrence) : List Span := log.filterMap granted?

theorem Occurrence.granted_concat (log : List Occurrence) (last : Occurrence) :
    granted (log ++ [last]) = granted log ++ last.granted?.toList := by
  unfold granted
  rw [List.filterMap_append]
  cases hLast : last.granted? <;> simp [hLast]

namespace Machine

/-- A machine whose kernel has not booted. -/
def fresh (memory : Memory) : Machine :=
  { program := .fresh (SharedHeap.empty memory), claimed := none }

/-- The kernel of a machine. -/
def kernel (m : Machine) : Kernel := { heap := m.program.heap, claimed := m.claimed }

/-- The machine with another state of its kernel. -/
def withKernel (m : Machine) (kernel : Kernel) : Machine :=
  { program := { m.program with heap := kernel.heap }, claimed := kernel.claimed }

/-- Any finite history: the kernel is booted, and a correct program uses its heap and writes into
what it was given. The logger is silent because what one asks of the heap is an errand of its own:
before a boot if it is told which memory was chosen, after it if it is told that the heap is ready,
and after an errand if that was refused. -/
inductive History (memory : Memory) : List Occurrence → Machine → Prop
  | fresh : History memory [] (.fresh memory)
  | boot {log : List Occurrence} {m : Machine} {map : List MemoryRegion} {offset : Nat}
      {answer : Except BootError Span} {kernel : Kernel} :
      History memory log m → Kernel.boot .silent m.kernel map offset = .ok (answer, kernel) →
        History memory (log ++ [.boot map offset answer]) (m.withKernel kernel)
  | attend {log : List Occurrence} {m : Machine} {wanted : Errand} {p : Program} :
      History memory log m → m.program.Permits wanted → m.program.attend wanted = .ok p →
        History memory (log ++ [.errand wanted]) { m with program := p }
  | write {log : List Occurrence} {m : Machine} {written : Memory}
      {bytes : Nat → Option UInt8} :
      History memory log m → m.program.Writes written bytes →
        History memory log
          { m with program := m.program.write written fun x => (bytes x).or (m.program.known x) }

variable {m : Machine} {log : List Occurrence} {memory : Memory} {granted : List Span}
variable {map : List MemoryRegion} {offset : Nat} {answer : Except BootError Span} {kernel : Kernel}

/-- The stage of a machine after so much was granted. -/
inductive Stage (m : Machine) (granted : List Span) : Prop
  /-- The heap has no region, and nothing is remembered. -/
  | waiting : m.program.Idle → m.claimed = none → granted = [] → Stage m granted
  /-- The heap works in the span that is remembered. -/
  | running {span : Span} {r : Region} {t : Tiling} : m.program.Backed r t →
      Region.ofBounds? span.start span.stop = .ok r → m.claimed = some span →
        granted = [span] → Stage m granted

namespace Stage

-- ---------------------------------------------------------------------------
-- Occurrences
-- ---------------------------------------------------------------------------

/-- An event is no change of stage. -/
theorem record (h : m.Stage granted) (event : Event) :
    (m.withKernel { m.kernel with heap := m.kernel.heap.record event }).Stage granted := by
  cases h with
  | waiting hIdle hClaimed hGranted => exact .waiting ⟨hIdle.region, hIdle.leases⟩ hClaimed hGranted
  | running hBacked hBounds hClaimed hGranted =>
    exact .running ⟨hBacked.tracks, hBacked.lodged⟩ hBounds hClaimed hGranted

/-- A heap that was set up backs a program that holds nothing. -/
theorem backed_of_laidOut {heap : SharedHeap} {p : Program} {r : Region} {config : Config}
    {s : Store} (hIdle : p.Idle) (hLaidOut : Store.LaidOut r config s heap.store) :
    Program.Backed { p with heap := heap } r (Tiling.initial r.size) := by
  refine ⟨?_, fun l hl => ?_⟩
  · have hClient : Program.client { p with heap := heap } = ⟨heap.store, []⟩ := by
      unfold Program.client
      rw [hIdle.leases]
      rfl
    rw [hClient]
    exact Client.tracks_of_laidOut hLaidOut
  · rw [show Program.leases { p with heap := heap } = [] from hIdle.leases] at hl
    exact absurd hl List.not_mem_nil

/-- **Booting** takes a waiting machine to its running stage, or changes no stage. -/
theorem boot (h : m.Stage granted)
    (hBoot : Kernel.boot .silent m.kernel map offset = .ok (answer, kernel)) :
    (m.withKernel kernel).Stage
      (granted ++ (Occurrence.boot map offset answer).granted?.toList) := by
  obtain ⟨answer', kernel', hBoot', hAnswers⟩ := m.kernel.boot_answers map offset
  obtain ⟨rfl, rfl⟩ := Prod.mk.inj (Except.ok.inj (hBoot'.symm.trans hBoot))
  cases hAnswers with
  | unselected =>
    rw [Occurrence.granted?, Option.toList_none, List.append_nil]
    exact h
  | refused =>
    rw [Occurrence.granted?, Option.toList_none, List.append_nil]
    exact h.record _
  | hosted hSelect hRegion hBounds hLaidOut =>
    cases h with
    | waiting hIdle hClaimed hGranted =>
      refine .running (backed_of_laidOut hIdle hLaidOut) hBounds ?_ ?_
      · show (m.claimed <|> some _) = _
        rw [hClaimed]
        rfl
      · rw [hGranted]
        rfl
    | running hBacked =>
      -- the heap of a running machine has a region
      exact absurd (hBacked.represents.holds.region.symm.trans hRegion) (by simp)

/-- **An errand** changes no stage. -/
theorem attend {wanted : Errand} {p : Program} (h : m.Stage granted)
    (hPermits : m.program.Permits wanted) (hCall : m.program.attend wanted = .ok p) :
    Stage { m with program := p } granted := by
  cases h with
  | waiting hIdle hClaimed hGranted =>
    obtain ⟨p', hCall', hIdle'⟩ := hIdle.attend hPermits
    obtain rfl := Except.ok.inj (hCall'.symm.trans hCall)
    exact .waiting hIdle' hClaimed hGranted
  | running hBacked hBounds hClaimed hGranted =>
    obtain ⟨p', hCall', ⟨t', hBacked'⟩, -⟩ :=
      hBacked.attend hPermits (hBacked.hasRoomFor hPermits hCall)
    obtain rfl := Except.ok.inj (hCall'.symm.trans hCall)
    exact .running hBacked' hBounds hClaimed hGranted

/-- **Writing** into blocks changes no stage. -/
theorem write {written : Memory} {bytes : Nat → Option UInt8} (h : m.Stage granted)
    (hWrites : m.program.Writes written bytes) :
    Stage { m with
      program := m.program.write written fun x => (bytes x).or (m.program.known x) } granted := by
  cases h with
  | waiting hIdle hClaimed hGranted => exact .waiting ⟨hIdle.region, hIdle.leases⟩ hClaimed hGranted
  | running hBacked hBounds hClaimed hGranted =>
    exact .running (hBacked.writes hWrites) hBounds hClaimed hGranted

end Stage

/-- **After any history** the machine is in one of the two stages. -/
theorem History.stage (hRun : History memory log m) : m.Stage (Occurrence.granted log) := by
  induction hRun with
  | fresh => exact .waiting ⟨rfl, rfl⟩ rfl rfl
  | boot _ hBoot ih =>
    rw [Occurrence.granted_concat]
    exact ih.boot hBoot
  | attend _ hPermits hCall ih =>
    rw [Occurrence.granted_concat, Occurrence.granted?, Option.toList_none, List.append_nil]
    exact ih.attend hPermits hCall
  | write _ hWrites ih => exact ih.write hWrites

-- ---------------------------------------------------------------------------
-- What the heap and the kernel agree on
-- ---------------------------------------------------------------------------

/-- The kernel remembers the one span that was granted, and its heap has a region exactly if there
is one: the largest aligned region in it. -/
structure Consistent (m : Machine) (granted : List Span) : Prop where
  once : granted.length ≤ 1
  claimed : m.claimed = granted.head?
  initialized : m.kernel.heap.store.heap.isInitialized = m.claimed.isSome
  bounds : ∀ span, m.claimed = some span → ∃ base, Word.alignUp? span.start = some base ∧
    m.kernel.heap.store.heap.bounds = some (base, Word.alignDown span.stop)

/-- In either stage heap and kernel agree. -/
theorem Stage.consistent (h : m.Stage granted) : m.Consistent granted := by
  cases h with
  | waiting hIdle hClaimed hGranted =>
    subst hGranted
    refine ⟨Nat.zero_le _, hClaimed, ?_, fun span hSpan => ?_⟩
    · show m.program.heap.store.heap.region.isSome = _
      rw [hIdle.region, hClaimed]
      rfl
    · rw [hClaimed] at hSpan
      exact absurd hSpan (by simp)
  | @running span r t hBacked hBounds hClaimed hGranted =>
    subst hGranted
    have hRegion := hBacked.represents.holds.region
    refine ⟨Nat.le_refl _, hClaimed, ?_, fun other hOther => ?_⟩
    · show m.program.heap.store.heap.region.isSome = _
      rw [hRegion, hClaimed]
      rfl
    · obtain rfl := Option.some.inj (hClaimed.symm.trans hOther)
      obtain ⟨hUp, hDown⟩ := Region.rounded_of_ofBounds? hBounds
      refine ⟨r.base, hUp, ?_⟩
      show m.program.heap.store.heap.region.map _ = _
      rw [hRegion, ← hDown]
      rfl

/-- **A machine boots** if nothing was granted yet and there is room in what is chosen. What was
refused before makes no difference. -/
theorem Stage.boots_iff (h : m.Stage granted)
    (hAnswers : m.kernel.Answers map offset answer kernel) (span : Span) :
    answer = .ok span ↔ m.claimed = none ∧
      ∃ selection, selectRegion map offset maxHeapSize = .ok selection ∧
        selection.mapped = span ∧ minRegionSize ≤ span.room := by
  have hSelected := fun (selection : Selection)
    (hSelect : selectRegion map offset maxHeapSize = .ok selection)
    (hRegion : m.kernel.heap.store.heap.region = none) => hAnswers.of_selected hRegion hSelect
  constructor
  · rintro rfl
    cases hAnswers with
    | hosted hSelect hRegion _ _ =>
      cases h with
      | waiting hIdle hClaimed _ =>
        rcases hSelected _ hSelect hRegion with ⟨hRoom, -⟩ | ⟨-, hAnswer⟩
        · exact ⟨hClaimed, _, hSelect, rfl, hRoom⟩
        · exact absurd hAnswer (by simp)
      | running hBacked =>
        exact absurd (hBacked.represents.holds.region.symm.trans hRegion) (by simp)
  · rintro ⟨hNone, selection, hSelect, rfl, hRoom⟩
    cases h with
    | waiting hIdle _ _ =>
      rcases hSelected selection hSelect hIdle.region with ⟨-, hAnswer⟩ | ⟨hShort, -⟩
      · exact hAnswer
      · rw [hShort] at hRoom
        exact absurd hRoom (by decide)
    | running _ _ hClaimed _ => exact absurd (hClaimed.symm.trans hNone) (by simp)

end Machine

/-- A kernel that does not boot is as it was, but for what it told. -/
theorem Kernel.Answers.unchanged {before : Kernel} {e : BootError}
    (h : before.Answers map offset (.error e) kernel) :
    ∃ events, kernel =
      { before with heap := { before.heap with journal := before.heap.journal ++ events } } := by
  cases h with
  | unselected => exact ⟨[], by rw [List.append_nil]⟩
  | refused => exact ⟨[_], rfl⟩

/-- **A kernel boots once.** After any history of a kernel, of which the memory maps may be
anything, no more than one span was granted. That is the span which the kernel remembers, and it
remembers one exactly if its heap has a region, which is then the largest aligned region in that
span. Booting always comes to an end: it is refused and nothing changes, heap and bytes included,
or nothing was granted before and there is room in what is chosen. -/
theorem kernel_boots_once (hRun : Machine.History memory log m) :
    m.Consistent (Occurrence.granted log) ∧
      ∀ map offset, ∃ answer kernel,
        Kernel.boot .silent m.kernel map offset = .ok (answer, kernel) ∧
        (∀ e, answer = .error e → kernel.heap.store = m.kernel.heap.store ∧
          kernel.claimed = m.kernel.claimed ∧ kernel.heap.reporting = m.kernel.heap.reporting) ∧
        ∀ span, answer = .ok span ↔ m.claimed = none ∧
          ∃ selection, selectRegion map offset maxHeapSize = .ok selection ∧
            selection.mapped = span ∧ minRegionSize ≤ span.room := by
  have hStage := hRun.stage
  refine ⟨hStage.consistent, fun map offset => ?_⟩
  obtain ⟨answer, kernel, hBoot, hAnswers⟩ := m.kernel.boot_answers map offset
  refine ⟨answer, kernel, hBoot, fun e hRefused => ?_, hStage.boots_iff hAnswers⟩
  subst hRefused
  obtain ⟨events, rfl⟩ := hAnswers.unchanged
  exact ⟨rfl, rfl, rfl⟩

/-- A kernel that is given too little at first, so that it has no block for its program, then one
kibibyte above low memory, from which it hands out a block, and then a megabyte that it refuses. -/
theorem kernel_boots_once_second_map :
    ∃ log m, Machine.History .blank log m ∧
      log = [.boot [⟨1048577, 1048689, .usable⟩] 68718428160
          (.error (.heap (.regionTooSmall 96 112))),
        .errand (.block (.alloc ⟨24, 64⟩)),
        .boot [⟨0xFFE00, 0x100400, .usable⟩] 0x10000000000
          (.ok ⟨0x10000100000, 0x10000100400⟩),
        .errand (.block (.alloc ⟨24, 64⟩)),
        .boot [⟨0x200000, 0x300000, .usable⟩] 0 (.error (.heap .alreadyInitialized))] ∧
      m.program.leases.length = 1 ∧ m.claimed = some ⟨0x10000100000, 0x10000100400⟩ ∧
      m.kernel.heap.store.heap.bounds = some (0x10000100000, 0x10000100400) := by
  let m₀ : Machine := .fresh .blank
  have hReturns : (do
      let (answer₁, kernel₁) ← Kernel.boot .silent m₀.kernel [⟨1048577, 1048689, .usable⟩]
        68718428160
      let p₂ ← (m₀.withKernel kernel₁).program.attend (.block (.alloc ⟨24, 64⟩))
      let (answer₃, kernel₃) ← Kernel.boot .silent ⟨p₂.heap, kernel₁.claimed⟩
        [⟨0xFFE00, 0x100400, .usable⟩] 0x10000000000
      let p₄ ← Program.attend { p₂ with heap := kernel₃.heap } (.block (.alloc ⟨24, 64⟩))
      let (answer₅, _) ← Kernel.boot .silent ⟨p₄.heap, kernel₃.claimed⟩
        [⟨0x200000, 0x300000, .usable⟩] 0
      return (answer₁, answer₃, answer₅, p₄.leases.length) : Checked _) =
      .ok (.error (.heap (.regionTooSmall 96 112)), .ok ⟨0x10000100000, 0x10000100400⟩,
        .error (.heap .alreadyInitialized), 1) := by
    decide +kernel
  obtain ⟨⟨answer₁, kernel₁⟩, hFirst, hReturns⟩ := bind_eq_ok_iff.mp hReturns
  obtain ⟨p₂, hSecond, hReturns⟩ := bind_eq_ok_iff.mp hReturns
  obtain ⟨⟨answer₃, kernel₃⟩, hThird, hReturns⟩ := bind_eq_ok_iff.mp hReturns
  obtain ⟨p₄, hFourth, hReturns⟩ := bind_eq_ok_iff.mp hReturns
  obtain ⟨⟨answer₅, kernel₅⟩, hFifth, hReturns⟩ := bind_eq_ok_iff.mp hReturns
  obtain ⟨hAnswer₁, hRest⟩ := Prod.mk.inj (Except.ok.inj hReturns)
  obtain ⟨hAnswer₃, hRest⟩ := Prod.mk.inj hRest
  obtain ⟨hAnswer₅, hLeases⟩ := Prod.mk.inj hRest
  subst hAnswer₁ hAnswer₃ hAnswer₅
  have hPermits (p : Program) : p.Permits (.block (.alloc ⟨24, 64⟩)) :=
    show Layout.Valid ⟨24, 64⟩ by decide
  have hStarved := Machine.History.attend (.boot .fresh hFirst) (hPermits _) hSecond
  have hRun := Machine.History.boot (.attend (.boot hStarved hThird) (hPermits _) hFourth) hFifth
  obtain ⟨⟨-, hClaimed, -, hBounds⟩, -⟩ := kernel_boots_once hRun
  refine ⟨_, _, hRun, rfl, hLeases, hClaimed, ?_⟩
  obtain ⟨base, hUp, hRegion⟩ := hBounds _ hClaimed
  rw [hRegion, ← Option.some.inj hUp]
  rfl

end RegionHeap
