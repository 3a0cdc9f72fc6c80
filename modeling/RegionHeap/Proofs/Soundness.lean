import RegionHeap.Proofs.Setup
import RegionHeap.Proofs.Vetting

/-!
# When the audit is sound

A passed audit means a sound heap as long as no back link and no ring leads away from the chain.

* `Store.Sound`, `Store.Confined`: what this says of one heap.
* `audit_vets`: in a heap that passes the audit, the one is as good as the other.
* `audit_passes_stray_back_link`: a back link to the stale header of a merged chunk passes.
* `audit_passes_stray_member`: so does a ring that holds a forged header in place of a free
  chunk of the chain.
-/

namespace RegionHeap

variable {r : Region} {s : Store} {chain : List ChunkInfo} {a b : ChunkInfo} {o : Nat}

/-- Neighbours on the chain point at each other, and the rings hold exactly the free chunks of the
chain, each in the ring of its class, once. -/
structure Store.Sound (s : Store) (r : Region) (chain : List ChunkInfo) : Prop where
  linked : chain.IsChain fun a b => r.read s.memory a.offset .next = .ok b.offset ∧
    r.read s.memory b.offset .previous = .ok a.offset
  rings : ∀ k, ∃ ring, s.heap.bins.ring r s.memory k = .ok ring ∧ ring.Nodup ∧
    ∀ o, o ∈ ring ↔ ∃ a ∈ chain, a.isFree = true ∧ a.offset = o ∧ SizeClass.ofSize a.size = k

/-- Back links and rings do not lead away from the chain. -/
structure Store.Confined (s : Store) (r : Region) (chain : List ChunkInfo) : Prop where
  previous : ∀ b ∈ chain, b.offset ≠ 0 → ∀ p, r.read s.memory b.offset .previous = .ok p →
    ∃ a ∈ chain, a.offset = p
  members : ∀ o ∈ s.heap.bins.allMembers r s.memory, ∃ a ∈ chain, a.offset = o

namespace Store.Vetted

variable (h : s.Vetted r chain)

include h

-- ---------------------------------------------------------------------------
-- Back links
-- ---------------------------------------------------------------------------

theorem ascending : chain.Pairwise fun a b => a.offset < b.offset :=
  Region.ascending_of_isChain h.ascends

/-- Two places on the chain that have the same offset are the same. -/
theorem index_injective {i j : Nat} (hi : i < chain.length) (hj : j < chain.length)
    (hOffset : chain[i].offset = chain[j].offset) : i = j := by
  have hAscending := List.pairwise_iff_getElem.mp h.ascending
  rcases Nat.lt_trichotomy i j with hLt | hEq | hGt
  · have := hAscending i j hi hj hLt
    omega
  · exact hEq
  · have := hAscending j i hj hi hGt
    omega

/-- Only its predecessor on the chain leads to a chunk of the chain. -/
theorem index_of_next {i j : Nat} (hi : i + 1 < chain.length) (hj : j < chain.length)
    (hNext : r.read s.memory chain[j].offset .next = .ok chain[i + 1].offset) : j = i := by
  have hSteps := List.isChain_iff_getElem.mp h.ascends
  by_cases hLast : j + 1 < chain.length
  · have hOffset := Except.ok.inj ((hSteps j hLast).next.symm.trans hNext)
    have := h.index_injective hLast hi hOffset
    omega
  · -- the tail leads to the head, which no chunk precedes
    have hTail : chain[j].offset = r.tail := by
      have hEnd := h.ends.2
      rw [List.getLast?_eq_getElem?, show chain.length - 1 = j by omega,
        List.getElem?_eq_getElem hj] at hEnd
      simpa using hEnd
    rw [hTail, h.closed.1] at hNext
    have hZero := Except.ok.inj hNext
    have := (hSteps i hi).lt
    omega

/-- A back link that stays on the chain leads to the predecessor. -/
theorem linked (hConfined : s.Confined r chain) :
    chain.IsChain fun a b => r.read s.memory a.offset .next = .ok b.offset ∧
      r.read s.memory b.offset .previous = .ok a.offset := by
  refine List.isChain_iff_getElem.mpr fun i hi => ?_
  have hStep := List.isChain_iff_getElem.mp h.ascends i hi
  have hOffset : chain[i + 1].offset ≠ 0 := by
    have := hStep.lt
    omega
  have hMem : chain[i + 1] ∈ chain := List.getElem_mem hi
  obtain ⟨p, hPrevious, hNext⟩ := (h.header _ hMem).returned hOffset
  obtain ⟨a, ha, rfl⟩ := hConfined.previous _ hMem hOffset p hPrevious
  obtain ⟨j, hj, rfl⟩ := List.mem_iff_getElem.mp ha
  obtain rfl := h.index_of_next hi hj hNext
  exact ⟨hStep.next, hPrevious⟩

-- ---------------------------------------------------------------------------
-- Rings
-- ---------------------------------------------------------------------------

/-- No chunk is in two rings, or twice in one. -/
theorem allMembers_nodup : (s.heap.bins.allMembers r s.memory).Nodup :=
  Bins.nodup_flatMap_members (List.nodup_finRange 64) fun k _ => h.rings k

/-- Rings that stay on the chain hold all its free chunks. -/
theorem allMembers_perm (hConfined : s.Confined r chain) :
    (s.heap.bins.allMembers r s.memory).Perm ((chain.filter (·.isFree)).map (·.offset)) := by
  have hSubset : s.heap.bins.allMembers r s.memory ⊆
      (chain.filter (·.isFree)).map (·.offset) := by
    intro o ho
    obtain ⟨a, ha, rfl⟩ := hConfined.members o ho
    obtain ⟨k, -, hk⟩ := List.mem_flatMap.mp ho
    have hFree := ((h.rings k).member _ hk).2.1
    rw [(Region.chunkAt_inv (h.chunk a ha)).2] at hFree
    exact List.mem_map_of_mem (List.mem_filter.mpr ⟨ha, Except.ok.inj hFree⟩)
  refine (List.subperm_of_subset h.allMembers_nodup hSubset).perm_of_length_le ?_
  rw [List.length_map, h.members]

/-- In a sound heap no link leads away from the chain. -/
theorem confined_of_sound (hSound : s.Sound r chain) : s.Confined r chain := by
  refine ⟨fun b hb hOffset p hPrevious => ?_, fun o ho => ?_⟩
  · obtain ⟨i, hi, rfl⟩ := List.mem_iff_getElem.mp hb
    cases i with
    | zero =>
      have hHead := h.ends.1
      rw [List.head?_eq_getElem?, List.getElem?_eq_getElem hi] at hHead
      exact absurd (by simpa using hHead) hOffset
    | succ i =>
      have hLink := List.isChain_iff_getElem.mp hSound.linked i hi
      obtain rfl := Except.ok.inj (hLink.2.symm.trans hPrevious)
      exact ⟨chain[i], List.getElem_mem _, rfl⟩
  · obtain ⟨k, -, hk⟩ := List.mem_flatMap.mp ho
    obtain ⟨ring, hRing, -, hMem⟩ := hSound.rings k
    rw [Bins.members_eq hRing] at hk
    obtain ⟨a, ha, -, hOffset, -⟩ := (hMem o).mp hk
    exact ⟨a, ha, hOffset⟩

/-- Rings that stay on the chain hold each of its free chunks in the ring of its class. -/
theorem mem_members_iff (hConfined : s.Confined r chain) (k : SizeClass) (o : Nat) :
    o ∈ s.heap.bins.members r s.memory k ↔
      ∃ a ∈ chain, a.isFree = true ∧ a.offset = o ∧ SizeClass.ofSize a.size = k := by
  have hPerm := h.allMembers_perm hConfined
  have hClass : ∀ j, ∀ a ∈ chain, a.offset ∈ s.heap.bins.members r s.memory j →
      SizeClass.ofSize a.size = j := fun j a ha hj =>
    ((h.rings j).member _ hj).class_eq (Region.chunkAt_inv (h.chunk a ha)).1
  constructor
  · intro ho
    have hAll : o ∈ s.heap.bins.allMembers r s.memory :=
      List.mem_flatMap.mpr ⟨k, List.mem_finRange k, ho⟩
    obtain ⟨a, ha, rfl⟩ := List.mem_map.mp (hPerm.mem_iff.mp hAll)
    obtain ⟨ha, hFree⟩ := List.mem_filter.mp ha
    exact ⟨a, ha, hFree, rfl, hClass k a ha ho⟩
  · rintro ⟨a, ha, hFree, rfl, hk⟩
    have hAll : a.offset ∈ s.heap.bins.allMembers r s.memory :=
      hPerm.mem_iff.mpr (List.mem_map_of_mem (List.mem_filter.mpr ⟨ha, hFree⟩))
    obtain ⟨j, -, hj⟩ := List.mem_flatMap.mp hAll
    rwa [← hk, hClass j a ha hj]

/-- **A vetted heap is sound exactly when its links do not lead away from the chain.** -/
theorem sound_iff : s.Sound r chain ↔ s.Confined r chain := by
  constructor
  · exact h.confined_of_sound
  · intro hConfined
    exact ⟨h.linked hConfined, fun k =>
      ⟨_, (h.rings k).walk, (h.rings k).nodup, h.mem_members_iff hConfined k⟩⟩

end Store.Vetted

-- ---------------------------------------------------------------------------
-- Every heap
-- ---------------------------------------------------------------------------

/-- **What a passed audit says of any heap**, whatever is in its memory, its bins and its
counters: it is vetted, and it is sound exactly when no back link and no ring leads away from
the chain. -/
theorem audit_vets (hRegion : s.heap.region = some r) (hAudit : s.audit = .ok (.ok ())) :
    ∃ chain, s.Vetted r chain ∧ (s.Sound r chain ↔ s.Confined r chain) := by
  obtain ⟨chain, hVetted⟩ := Store.vetted_of_audit hRegion hAudit
  exact ⟨chain, hVetted, hVetted.sound_iff⟩

/-- The heap in a fresh region is vetted. -/
theorem audit_vets_fresh :
    ∃ s chain, Store.init ⟨Heap.empty, Memory.blank⟩ 65536 66560 .hardened = .ok (.ok (), s) ∧
      s.Vetted .kibibyte chain ∧ (s.Sound .kibibyte chain ↔ s.Confined .kibibyte chain) := by
  obtain ⟨s, hInit, hLaidOut⟩ := Store.init_kibibyte .hardened
  obtain ⟨chain, hVetted⟩ :=
    audit_vets hLaidOut.represents.holds.region hLaidOut.represents.audit_eq
  exact ⟨s, chain, hInit, hVetted⟩

-- ---------------------------------------------------------------------------
-- Heaps that are not sound
-- ---------------------------------------------------------------------------

/-- Three blocks, of which the first two were freed and merged. The back link of the third leads
to the header that was given up, which still leads to the third. -/
def Store.strayBackLink : Checked Store := do
  let (_, s) ← Store.init ⟨Heap.empty, Memory.blank⟩ 65536 66560 .hardened
  let (_, s) ← s.allocate 16
  let (_, s) ← s.allocate 16
  let (_, s) ← s.allocate 16
  let (_, s) ← s.free 65600
  let (_, s) ← s.free 65648
  return { s with memory := s.memory.store (65536 + 128) 8 80 }

/-- **A stray back link passes the audit.** -/
theorem audit_passes_stray_back_link :
    ∃ s r chain, Store.strayBackLink = .ok s ∧ s.heap.region = some r ∧
      s.audit = .ok (.ok ()) ∧ s.chunks = .ok chain ∧ ¬s.Sound r chain := by
  have hShows : Store.Shows Store.strayBackLink fun s r => s.audit = .ok (.ok ()) ∧
      s.chunks = .ok [⟨0, 65568, 0, some .sentinel⟩, ⟨32, 65600, 64, some .free⟩,
        ⟨128, 65696, 16, some .used⟩, ⟨176, 65744, 784, some .free⟩,
        ⟨992, 66560, 0, some .sentinel⟩] ∧
      r.read s.memory 128 .previous = .ok 80 := by
    decide +kernel
  obtain ⟨s, r, hStore, hRegion, hAudit, hChunks, hPrevious⟩ := hShows
  refine ⟨s, r, _, hStore, hRegion, hAudit, hChunks, fun hSound => ?_⟩
  have hLink := (List.isChain_cons_cons.mp (List.isChain_cons_cons.mp hSound.linked).2).1.2
  exact absurd (Except.ok.inj (hLink.symm.trans hPrevious)) (by decide)

/-- Four blocks, of which the first and the third were freed. Inside the second, which is used,
there is a header that says that it is free, and the third is linked with it in place of the
first. -/
def Store.strayMember : Checked Store := do
  let (_, s) ← Store.init ⟨Heap.empty, Memory.blank⟩ 65536 66560 .hardened
  let (_, s) ← s.allocate 16
  let (_, s) ← s.allocate 64
  let (_, s) ← s.allocate 16
  let (_, s) ← s.allocate 16
  let (_, s) ← s.free 65600
  let (_, s) ← s.free 65744
  let r := Region.kibibyte
  let m ← r.writeHeader s.memory 112 0 160 .free
  let m ← r.write m 112 .ringPrevious 176
  let m ← r.write m 112 .ringNext 176
  let m ← r.write m 176 .ringPrevious 112
  let m ← r.write m 176 .ringNext 112
  return { s with memory := m }

/-- **A stray member of a ring passes the audit**, while a free chunk of the chain is in no
ring. -/
theorem audit_passes_stray_member :
    ∃ s r chain, Store.strayMember = .ok s ∧ s.heap.region = some r ∧
      s.audit = .ok (.ok ()) ∧ s.chunks = .ok chain ∧ ¬s.Sound r chain := by
  have hShows : Store.Shows Store.strayMember fun s r => s.audit = .ok (.ok ()) ∧
      s.chunks = .ok [⟨0, 65568, 0, some .sentinel⟩, ⟨32, 65600, 16, some .free⟩,
        ⟨80, 65648, 64, some .used⟩, ⟨176, 65744, 16, some .free⟩, ⟨224, 65792, 16, some .used⟩,
        ⟨272, 65840, 688, some .free⟩, ⟨992, 66560, 0, some .sentinel⟩] ∧
      s.heap.bins.ring r s.memory 4 = .ok [176, 112] := by
    decide +kernel
  obtain ⟨s, r, hStore, hRegion, hAudit, hChunks, hRing⟩ := hShows
  refine ⟨s, r, _, hStore, hRegion, hAudit, hChunks, fun hSound => ?_⟩
  obtain ⟨ring, hRing', -, hMem⟩ := hSound.rings 4
  obtain rfl := Except.ok.inj (hRing.symm.trans hRing')
  exact absurd ((hMem 32).mpr ⟨⟨32, 65600, 16, some .free⟩, by simp, rfl, rfl, rfl⟩) (by decide)

end RegionHeap
