import RegionHeap.Proofs.Errands

/-!
# The kernel's heap stays in its memory

At boot the heap is given memory of one usable region of the memory map. From then on, whatever the
kernel asks of it, every byte that is written and every byte that is handed out is a byte of that
region, above low memory and within the size limit, at its mapped address.

* `MemoryRegion.Lends`: the mapped addresses of a region that a heap may use.
* `lends_of_selectRegion`: all that is chosen is lent by one region.
* `Kernel.boot_inv`: the heap of a kernel that booted was set up in what was chosen.
* `Program.Confined`, `booted_run_confined`: where the bytes are that a heap writes and hands out.
-/

namespace RegionHeap

variable {map : List MemoryRegion} {offset most : Nat} {selection : Selection} {span : Span}
variable {r : Region} {t : Tiling} {p : Program} {memory : Memory} {kernel : Kernel}

-- ---------------------------------------------------------------------------
-- The memory that is chosen
-- ---------------------------------------------------------------------------

/-- At `address` the byte `x` of the region is mapped. It is above low memory, and less than the
largest heap away from the start of what is usable of the region. -/
def MemoryRegion.Lends (region : MemoryRegion) (offset address : Nat) : Prop :=
  ∃ x, address = offset + x ∧ offset + x < Word.limit ∧ region.start ≤ x ∧ x < region.stop ∧
    lowMemoryLimit ≤ x ∧ ∃ span, region.usableSpan? = some span ∧ x < span.start + maxHeapSize

/-- **All that is chosen is lent** by one usable region. -/
theorem lends_of_selectRegion (h : selectRegion map offset maxHeapSize = .ok selection) :
    ∃ region ∈ map, region.kind = .usable ∧
      ∀ a, selection.mapped.start ≤ a → a < selection.mapped.stop → region.Lends offset a := by
  obtain ⟨region, hRegion, span, hSpan, -, hMapped, hStop⟩ := mapped_of_selectRegion h
  obtain ⟨hKind, hAbove, rfl⟩ := MemoryRegion.usableSpan?_eq_some_iff.mp hSpan
  rw [hMapped] at hStop ⊢
  unfold Span.length at hStop ⊢
  refine ⟨region, hRegion, hKind, fun a hLow hHigh => ⟨a - offset, ?_⟩⟩
  simp only at hStop hLow hHigh
  refine ⟨by omega, by omega, by omega, by omega, by omega, _, hSpan, ?_⟩
  show a - offset < max region.start lowMemoryLimit + maxHeapSize
  omega

-- ---------------------------------------------------------------------------
-- Booting
-- ---------------------------------------------------------------------------

/-- A heap that was given a span was set up in it. -/
theorem SharedHeap.initSpan_inv {s s' : SharedHeap}
    (h : s.initSpan .silent span = .ok (.ok (), s')) :
    s.store.init span.start span.stop .hardened = .ok (.ok (), s'.store) := by
  obtain ⟨⟨answer, s₁⟩, hWith, h⟩ := bind_eq_ok_iff.mp h
  obtain ⟨store, hInit, rfl⟩ := SharedHeap.withStore_eq_ok_iff.mp hWith
  cases answer with
  | error e => exact absurd (Prod.mk.inj (Except.ok.inj h)).1 (by simp)
  | ok _ =>
    obtain ⟨stats, -, h⟩ := bind_eq_ok_iff.mp h
    obtain ⟨s₂, hAnnounce, h⟩ := bind_eq_ok_iff.mp h
    obtain rfl := Except.ok.inj hAnnounce
    obtain ⟨-, rfl⟩ := Prod.mk.inj (Except.ok.inj h)
    exact hInit

/-- **A kernel that booted** has a heap that was set up in what was chosen. -/
theorem Kernel.boot_inv
    (h : Kernel.boot .silent (.fresh memory) map offset = .ok (.ok span, kernel)) :
    ∃ selection, selectRegion map offset maxHeapSize = .ok selection ∧ selection.mapped = span ∧
      Store.init ⟨Heap.empty, memory⟩ span.start span.stop .hardened =
        .ok (.ok (), kernel.heap.store) := by
  unfold Kernel.boot at h
  split at h
  · exact absurd (Prod.mk.inj (Except.ok.inj h)).1 (by simp)
  · next selection hSelect =>
    obtain ⟨event, -, h⟩ := bind_eq_ok_iff.mp h
    obtain ⟨heap, hAnnounce, h⟩ := bind_eq_ok_iff.mp h
    obtain rfl := Except.ok.inj hAnnounce
    obtain ⟨⟨answer, heap'⟩, hSpan, h⟩ := bind_eq_ok_iff.mp h
    cases answer with
    | error e => exact absurd (Prod.mk.inj (Except.ok.inj h)).1 (by simp)
    | ok _ =>
      obtain ⟨hAnswer, rfl⟩ := Prod.mk.inj (Except.ok.inj h)
      obtain rfl := Except.ok.inj hAnswer
      exact ⟨selection, hSelect, rfl, SharedHeap.initSpan_inv hSpan⟩

-- ---------------------------------------------------------------------------
-- Confinement
-- ---------------------------------------------------------------------------

/-- Every byte that is not as it was in `memory`, every byte of a block, and every byte of a payload
that a block lies in has a lent address. -/
structure Program.Confined (p : Program) (memory : Memory) (Lent : Nat → Prop) : Prop where
  written : ∀ x, p.memory.byte x ≠ memory.byte x → Lent x
  blocks : ∀ l ∈ p.leases, ∀ x, l.Covers x → Lent x
  payloads : ∀ l ∈ p.leases, ∃ n, p.heap.store.usableSize l.raw = .ok (.ok n) ∧
    ∀ x, l.raw ≤ x → x < l.raw + n → Lent x

/-- Blocks and their payloads are inside the region. -/
theorem Program.Backed.confined {Lent : Nat → Prop} (h : p.Backed r t)
    (hOutside : ∀ x, x < r.base ∨ r.stop ≤ x → p.memory.byte x = memory.byte x)
    (hLent : ∀ x, r.base ≤ x → x < r.stop → Lent x) : p.Confined memory Lent where
  written x hx := by
    by_contra hNotLent
    refine hx (hOutside x ?_)
    by_contra hInside
    exact hNotLent (hLent x (by omega) (by omega))
  blocks l hl := by
    rintro x ⟨hFrom, hTo⟩
    have := h.inside hl
    exact hLent x (by omega) (by omega)
  payloads l hl := by
    obtain ⟨b, hb, hLodged⟩ := h.lodged l hl
    rw [hLodged.raw]
    have := h.represents.payload_inside hb
    exact ⟨b.size, h.represents.usableSize hb, fun x hLow hHigh => hLent x (by omega) (by omega)⟩

/-- **The kernel's heap is confined.** If a fresh kernel booted, there is one usable region of the
memory map such that in every run of a correct program every byte that was written since, and every
byte that is handed out, is lent by that region; and no errand is stuck. -/
theorem booted_run_confined
    (hBoot : Kernel.boot .silent (.fresh memory) map offset = .ok (.ok span, kernel)) :
    ∃ region ∈ map, region.kind = .usable ∧
      ∀ log p, Program.Mixed (.fresh kernel.heap) log p →
        p.Confined memory (region.Lends offset) ∧
        ∀ errand, p.Permits errand → log.length + 1 < Word.limit →
          ∃ p', p.attend errand = .ok p' := by
  obtain ⟨selection, hSelect, rfl, hInit⟩ := Kernel.boot_inv hBoot
  obtain ⟨region, hRegion, hKind, hLends⟩ := lends_of_selectRegion hSelect
  obtain ⟨r, hBounds, hLaidOut⟩ := Store.laidOut_of_init hInit
  obtain ⟨hBase, hStop⟩ := Region.ofBounds?_inside hBounds
  refine ⟨region, hRegion, hKind, fun log p hRun => ⟨?_, fun errand hPermits hCalls => ?_⟩⟩
  · obtain ⟨⟨t, hBacked⟩, -, -, hOutside⟩ := Program.Mixed.backed hLaidOut hRun
    exact hBacked.confined hOutside fun x hLow hHigh => hLends x (by omega) (by omega)
  · exact Program.Mixed.progress hLaidOut hRun hPermits hCalls

/-- A kernel that boots from one kibibyte above low memory takes a payload, a block whose alignment
exceeds that of payloads, and gives the payload back. -/
theorem booted_run_confined_over_aligned :
    ∃ kernel p, Kernel.boot .silent (.fresh .blank) [⟨0xFFE00, 0x100400, .usable⟩] 0x10000000000 =
        .ok (.ok ⟨0x10000100000, 0x10000100400⟩, kernel) ∧
      Program.Mixed (.fresh kernel.heap) [.payload (.allocateZeroed 100), .block (.alloc ⟨24, 64⟩),
        .payload (.free 0x10000100040)] p ∧
      p.leases = [⟨0x10000100100, ⟨24, 64⟩, 0x100001000D0⟩] ∧
      p.Confined .blank (MemoryRegion.Lends ⟨0xFFE00, 0x100400, .usable⟩ 0x10000000000) := by
  have hReturns : (do
      let (answer, kernel) ← Kernel.boot .silent (.fresh .blank) [⟨0xFFE00, 0x100400, .usable⟩]
        0x10000000000
      let p₁ ← (Program.fresh kernel.heap).attend (.payload (.allocateZeroed 100))
      let p₂ ← p₁.attend (.block (.alloc ⟨24, 64⟩))
      let p₃ ← p₂.attend (.payload (.free 0x10000100040))
      return (answer, p₂.leases, p₃.leases) : Checked _) =
      .ok (.ok ⟨0x10000100000, 0x10000100400⟩,
        [⟨0x10000100100, ⟨24, 64⟩, 0x100001000D0⟩, ⟨0x10000100040, ⟨112, 1⟩, 0x10000100040⟩],
        [⟨0x10000100100, ⟨24, 64⟩, 0x100001000D0⟩]) := by
    decide +kernel
  obtain ⟨⟨answer, kernel⟩, hBoot, hReturns⟩ := bind_eq_ok_iff.mp hReturns
  obtain ⟨p₁, hFirst, hReturns⟩ := bind_eq_ok_iff.mp hReturns
  obtain ⟨p₂, hSecond, hReturns⟩ := bind_eq_ok_iff.mp hReturns
  obtain ⟨p₃, hThird, hReturns⟩ := bind_eq_ok_iff.mp hReturns
  obtain ⟨rfl, hLeases⟩ := Prod.mk.inj (Except.ok.inj hReturns)
  obtain ⟨hLeases₂, hLeases₃⟩ := Prod.mk.inj hLeases
  have hZeroed : (Program.fresh kernel.heap).Permits (.payload (.allocateZeroed 100)) := trivial
  have hBlock : p₁.Permits (.block (.alloc ⟨24, 64⟩)) :=
    show Layout.Valid ⟨24, 64⟩ by decide
  have hFree : p₂.Permits (.payload (.free 0x10000100040)) :=
    ⟨⟨0x10000100040, ⟨112, 1⟩, 0x10000100040⟩, by simp [hLeases₂], rfl, rfl⟩
  have hRun : Program.Mixed (.fresh kernel.heap) _ p₃ :=
    .attend (.attend (.attend .start hZeroed hFirst) hBlock hSecond) hFree hThird
  obtain ⟨region, hRegion, -, hConfined⟩ := booted_run_confined hBoot
  obtain rfl := List.mem_singleton.mp hRegion
  exact ⟨kernel, p₃, hBoot, hRun, hLeases₃, (hConfined _ _ hRun).1⟩

end RegionHeap
