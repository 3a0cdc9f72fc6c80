import RegionHeap.Proofs.Leases

/-!
# Blocks keep their contents

Whatever a correct program asks for, in whatever alignment, its blocks are aligned, inside the
region and apart, and it reads back what it wrote.

* `Program.Sound`: what this says of one state.
* `program_run_keeps_contents`: it holds in every state that a correct program can bring about,
  no request is stuck, and every answer keeps its promise.
-/

namespace RegionHeap

variable {r : Region} {t : Tiling} {s : Store} {p : Program} {heap : SharedHeap}

/-- The blocks of the program are aligned, inside the region and apart, and hold what their
owners know. -/
structure Program.Sound (p : Program) (r : Region) : Prop where
  aligned : ∀ l ∈ p.leases, l.address ≠ null ∧ l.address % l.layout.align = 0
  inside : ∀ l ∈ p.leases, r.base ≤ l.address ∧ l.address + l.layout.size ≤ r.stop
  apart : p.leases.Pairwise fun l k =>
    l.address + l.layout.size ≤ k.address ∨ k.address + k.layout.size ≤ l.address
  contents : ∀ l ∈ p.leases, ∀ x, l.Covers x → ∀ byte, p.known x = some byte →
    p.memory.byte x = byte

/-- A program whose blocks are backed is sound. -/
theorem Program.Backed.sound (h : p.Backed r t) : p.Sound r where
  aligned l hl := ⟨h.address_ne_null hl, (h.granted hl).1⟩
  inside _ hl := h.inside hl
  apart := by
    have hNodup : p.leases.Nodup := h.tracks.nodup.of_map Lease.raw
    refine hNodup.imp_of_mem fun {l k} hl hk hne => ?_
    have := h.gap hl hk hne
    omega
  contents l hl := by
    obtain ⟨b, -, hLodged⟩ := h.lodged l hl
    exact hLodged.contents

/-- **In every run of a correct program blocks keep their contents.** Every state is sound;
every next request returns, so no sum in it runs over; and every answer keeps its promise: what
is granted is aligned, a cleared block is zero, a moved one begins as the old one did, and
where null is the answer, nothing has changed. -/
theorem program_run_keeps_contents {start stop : Nat} {config : Config} {log : List Demand}
    (hInit : s.init start stop config = .ok (.ok (), heap.store))
    (hRun : Program.Run (.fresh heap) log p) :
    ∃ r, Region.ofBounds? start stop = .ok r ∧ p.Sound r ∧
      (∀ demand, p.Allows demand → log.length + 1 < Word.limit →
        ∃ address p', p.perform demand = .ok (address, p')) ∧
      ∀ demand address p', p.Allows demand → p.perform demand = .ok (address, p') →
        p'.Sound r ∧ p.Answers address p' demand := by
  obtain ⟨r, hBounds, hLaidOut⟩ := Store.laidOut_of_init hInit
  obtain ⟨⟨t, hBacked⟩, -⟩ := Program.Run.backed hLaidOut hRun
  refine ⟨r, hBounds, hBacked.sound, ?_, ?_⟩
  · intro demand hAllowed hCalls
    exact Program.Run.progress hLaidOut hRun hAllowed hCalls
  · intro demand address p' hAllowed hCall
    obtain ⟨address', p'', hCall', ⟨t', hBacked'⟩, -, hAnswers⟩ :=
      hBacked.perform hAllowed (hBacked.hasRoom hAllowed hCall)
    obtain ⟨rfl, rfl⟩ := Prod.mk.inj (Except.ok.inj (hCall.symm.trans hCall'))
    exact ⟨hBacked'.sound, hAnswers⟩

/-- A zeroed block whose alignment exceeds that of payloads, and another that was moved past
it; a third request is refused. -/
theorem program_run_keeps_contents_over_aligned :
    ∃ log p, Store.init ⟨Heap.empty, Memory.blank⟩ 65536 66560 .hardened =
        .ok (.ok (), (SharedHeap.kibibyte .hardened).store) ∧
      Program.Run (.fresh (.kibibyte .hardened)) log p ∧
      log = [.alloc ⟨24, 8⟩, .allocZeroed ⟨100, 64⟩, .realloc 65600 ⟨24, 8⟩ 40,
        .alloc ⟨900, 16⟩] ∧
      p.leases = [⟨65872, ⟨40, 8⟩, 65872⟩, ⟨65728, ⟨100, 64⟩, 65664⟩] ∧ p.Sound .kibibyte := by
  have hPlay : ((Program.fresh (.kibibyte .hardened)).play [.alloc ⟨24, 8⟩,
      .allocZeroed ⟨100, 64⟩, .realloc 65600 ⟨24, 8⟩ 40, .alloc ⟨900, 16⟩]).map (·.leases) =
      some [⟨65872, ⟨40, 8⟩, 65872⟩, ⟨65728, ⟨100, 64⟩, 65664⟩] := by
    decide +kernel
  obtain ⟨p, hp, hLeases⟩ := Option.map_eq_some_iff.mp hPlay
  have hInit := SharedHeap.init_kibibyte .hardened
  have hRun := Program.Run.play _ .start hp
  obtain ⟨r, hBounds, hSound, -⟩ := program_run_keeps_contents hInit hRun
  obtain rfl : r = .kibibyte := (Except.ok.inj hBounds).symm
  exact ⟨_, p, hInit, hRun, rfl, hLeases, hSound⟩

end RegionHeap
