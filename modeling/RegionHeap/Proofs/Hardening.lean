import RegionHeap.Proofs.Client
import RegionHeap.Proofs.Footprint

/-!
# Freeing in damaged memory

A validating heap that finds nothing wrong with a pointer goes on to free its chunk, and follows
links of the neighbours and of rings that it has not judged. Memory that was overwritten there
stops it halfway. Memory that was overwritten anywhere else makes no difference: what a free
depends on is a few fields of the chunk, of its two neighbours and of the tops of the rings.

* `Store.Judges`: what a validating heap may answer, whatever its memory holds.
* `Region.Consults`: the fields that freeing a chunk depends on.
* `Represents.free_twin`: as long as these are intact, a live pointer is freed as if all was.
* `overwritten_run_frees`: both, after any correct run and for anything written over the memory.
* `overwritten_run_free_faults`: one damaged word is enough to stop a free that was accepted.
-/

namespace RegionHeap

variable {r : Region} {m : Memory} {a b c : Block} {blocks settled pre post : List Block}
variable {stack : SizeClass → List Nat} {k : SizeClass} {x : Nat} {s s' s₁ : Store} {t : Tiling}

-- ---------------------------------------------------------------------------
-- Whatever memory holds
-- ---------------------------------------------------------------------------

/-- What a validating heap makes of a pointer, whatever its memory holds: it refuses it for a
defect and changes nothing, or the header passes as used, and then there is no other answer than
that the pointer was freed. -/
inductive Store.Judges (s : Store) (r : Region) (p : Nat) : Prop
  | refuses (defect : Defect) : s.free p = .ok (.error (.corruption p defect), s) → Judges s r p
  | accepts (o : Nat) : p = r.payload o → r.PassesAsUsed s.memory o →
      (∀ outcome, s.free p = .ok outcome → outcome.1 = .ok ()) → Judges s r p

theorem Store.judges (hRegion : s.heap.region = some r)
    (hValidate : s.heap.config.validateFrees = true) (p : Nat) : s.Judges r p := by
  rcases Store.validate_cases r s.memory p with
    ⟨defect, hRefused⟩ | ⟨o, hPayload, hAccepted, hPasses⟩
  · exact .refuses defect ((Store.refused_of_validate hRegion hRefused).2 hValidate)
  · refine .accepts o hPayload hPasses fun outcome hOutcome => ?_
    unfold Store.free Store.resolve at hOutcome
    simp only [hRegion, hValidate, if_true] at hOutcome
    rw [hAccepted, ok_bind] at hOutcome
    obtain ⟨s', -, hOutcome⟩ := bind_eq_ok_iff.mp hOutcome
    rw [← Except.ok.inj hOutcome]

-- ---------------------------------------------------------------------------
-- What freeing depends on
-- ---------------------------------------------------------------------------

/-- The fields that freeing the chunk at `o` depends on. -/
inductive Region.Consults (r : Region) (m : Memory) (bins : Bins) (o : Nat) : Nat → Field → Prop
  /-- The header of the chunk. -/
  | own {f : Field} : f.reach = headerSize → Consults r m bins o o f
  /-- The back link and the state of the chunk after it. -/
  | successor {f : Field} : f = .previous ∨ f = .tag →
      Consults r m bins o (r.content m .next o) f
  /-- If that chunk is free, where it ends and its ring links. -/
  | freeSuccessor {f : Field} : r.isFree m (r.content m .next o) = .ok true →
      f = .next ∨ f = .ringNext ∨ f = .ringPrevious → Consults r m bins o (r.content m .next o) f
  /-- The forward link and the state of the chunk before it. -/
  | predecessor {f : Field} : f = .next ∨ f = .tag →
      Consults r m bins o (r.content m .previous o) f
  /-- If that chunk is free, its ring links. -/
  | freePredecessor {f : Field} : r.isFree m (r.content m .previous o) = .ok true →
      f = .ringNext ∨ f = .ringPrevious → Consults r m bins o (r.content m .previous o) f
  /-- The ring back link of the chunk that is on top of a ring when both neighbours have left. -/
  | top {k : SizeClass} {ring : List Nat} {x : Nat} : bins.ring r m k = .ok ring →
      (ring.filter fun y => y ≠ r.content m .next o ∧ y ≠ r.content m .previous o).head? = some x →
        Consults r m bins o x .ringPrevious

/-- The fields that freeing the chunk at `o` of a store depends on. -/
abbrev Store.Consults (s : Store) (r : Region) (o : Nat) : Nat → Field → Prop :=
  r.Consults s.memory s.heap.bins o

-- ---------------------------------------------------------------------------
-- Rings without the neighbours
-- ---------------------------------------------------------------------------

/-- A free block leaves all stacks when it leaves its own. -/
theorem Binned.stackErase_eq_filter (h : Binned blocks stack)
    (hDistinct : (blocks.map Block.offset).Nodup) (hc : c ∈ blocks) (hFree : c.isFree = true)
    (k : SizeClass) : stackErase stack c k = (stack k).filter (· ≠ c.offset) := by
  unfold stackErase restack
  split
  · next hk =>
    rw [hk]
    refine ((h.nodup _).erase_eq_filter c.offset).trans (List.filter_congr fun y _ => ?_)
    simp [bne, beq_eq_decide]
  · next hk =>
    refine (List.filter_eq_self.mpr fun y hy => decide_eq_true ?_).symm
    rintro rfl
    exact hk (h.class_eq hDistinct hy (h.mem_of_free hc hFree))

namespace Store.Holds

/-- What is not free is on no stack. -/
theorem not_stacked (h : s.Holds r blocks settled stack) (hUsed : r.isFree s.memory x = .ok false)
    (k : SizeClass) : x ∉ stack k := by
  intro hx
  obtain ⟨c, hc, hFree, rfl, -⟩ := h.exists_free hx
  rw [h.chained.isFree_eq (h.sub.subset hc), hFree] at hUsed
  exact absurd hUsed (by simp)

theorem filter_eq_of_not_free (h : s.Holds r blocks settled stack)
    (hUsed : r.isFree s.memory x = .ok false) (k : SizeClass) :
    (stack k).filter (· ≠ x) = stack k := by
  refine List.filter_eq_self.mpr fun y hy => decide_eq_true ?_
  rintro rfl
  exact h.not_stacked hUsed k hy

/-- Merging with the successor takes it from the stacks. -/
theorem mergeNext_stack (h : s.Holds r (pre ++ b :: post) (pre ++ post) stack) (k : SizeClass) :
    (mergeNext stack b post).1 k = (stack k).filter (· ≠ b.stop) := by
  rcases free_or_usedFirst post with ⟨next, rest, rfl, hFree⟩ | hUsed
  · obtain ⟨middle, -, -, -, -, hPost⟩ := tiled_append.mp h.tiled
    have hStop : next.offset = b.stop := hPost.1
    rw [mergeNext_free hFree, ← hStop]
    exact h.binned.stackErase_eq_filter h.distinct (by simp) hFree k
  · rw [mergeNext_used hUsed, h.filter_eq_of_not_free (h.isFree_next_used hUsed)]

-- ---------------------------------------------------------------------------
-- Releasing in two memories
-- ---------------------------------------------------------------------------

/-- What is on top of the rings once the neighbours have left them is consulted. -/
theorem headsKnown {bins : Bins} {stack' : SizeClass → List Nat} {o : Nat}
    (h : s.Holds r blocks settled stack) (hFiled : bins.Filed r m stack')
    (hStack : ∀ k, stack' k = (stack k).filter fun y => y ≠ r.content s.memory .next o ∧
      y ≠ r.content s.memory .previous o) : bins.HeadsKnown (s.Consults r o) := by
  intro k head hHead
  refine .top (h.filed.ring_eq h.placed k) ?_
  rw [← hStack, ← hFiled.head k, hHead]

theorem absorbKnown_next (s : Store) (r : Region) (o : Nat) :
    s.AbsorbKnown r (s.Consults r o) (r.content s.memory .next o) where
  tag := .successor (Or.inr rfl)
  free hFree := ⟨.successor (Or.inl rfl), .freeSuccessor hFree (Or.inl rfl),
    .freeSuccessor hFree (Or.inr (Or.inl rfl)), .freeSuccessor hFree (Or.inr (Or.inr rfl))⟩

/-- What settling a block depends on has been consulted, although the successor was absorbed
before. -/
theorem settleKnown_previous {b₁ : Block} {post₁ : List Block} {stack₁ : SizeClass → List Nat}
    (h : s.Holds r (pre ++ b :: post) (pre ++ post) stack)
    (h₁ : s₁.Holds r (pre ++ b₁ :: post₁) (pre ++ post₁) stack₁)
    (hStack : ∀ k, stack₁ k = (stack k).filter (· ≠ r.content s.memory .next b.offset)) :
    s₁.SettleKnown r (s.Consults r b.offset) (r.content s.memory .previous b.offset) := by
  have hTag : s.Consults r b.offset (r.content s.memory .previous b.offset) .tag :=
    .predecessor (Or.inr rfl)
  rcases free_or_usedLast pre with ⟨front, a, rfl, hFree⟩ | hUsed
  · have hAssoc : ∀ l : List Block, front ++ [a] ++ l = front ++ a :: l := by simp
    have hPrevious : r.content s.memory .previous b.offset = a.offset := by
      rw [h.chained.previous_eq, List.getLast?_concat]
      rfl
    have hIsFree : ∀ {s : Store} {c settled stack post},
        s.Holds r (front ++ [a] ++ c :: post) settled stack →
          r.isFree s.memory a.offset = .ok true := fun h => by
      rw [h.chained.isFree_eq (b := a) (by simp), hFree]
    refine ⟨hTag, fun _ => ⟨⟨.predecessor (Or.inl rfl), ?_, ?_⟩, fun s₂ hUnfile => ?_⟩,
      fun hNot => ?_⟩
    · exact .freePredecessor (hPrevious ▸ hIsFree h) (Or.inl rfl)
    · exact .freePredecessor (hPrevious ▸ hIsFree h) (Or.inr rfl)
    · rw [hAssoc, hAssoc] at h₁
      have hNone : ∀ c ∈ ([] : List Block), c ∈ front ++ a :: b₁ :: post₁ ∧ c.isFree = false := by
        simp
      obtain ⟨s₂', hUnfile', h₂, -⟩ := h₁.unfile [] hFree hNone
      rw [hPrevious] at hUnfile
      obtain rfl := Except.ok.inj (hUnfile.symm.trans hUnfile')
      refine h.headsKnown h₂.filed fun k => ?_
      rw [h₁.binned.stackErase_eq_filter h₁.distinct (by simp) hFree, hStack, List.filter_filter,
        hPrevious]
      exact List.filter_congr fun y _ => by simp [Bool.and_comm]
    · rw [hPrevious, hIsFree h₁] at hNot
      exact absurd hNot (by simp)
  · refine ⟨hTag, fun hFree => ?_, fun _ => h.headsKnown h₁.filed fun k => ?_⟩
    · rw [h.chained.previous_eq, ← h₁.chained.previous_eq, h₁.isFree_previous_used hUsed] at hFree
      exact absurd hFree (by simp)
    · rw [hStack]
      nth_rewrite 1 [← h.filter_eq_of_not_free (h.isFree_previous_used hUsed) k]
      rw [List.filter_filter]
      exact List.filter_congr fun y _ => by simp

/-- **Releasing** a used block does the same wherever the fields that it consults are the same. -/
theorem release_twin (h : s.Holds r (pre ++ b :: post) (pre ++ b :: post) stack)
    (hUsed : b.isFree = false) (hFrees : s.heap.counters.frees + 1 < Word.limit)
    (hTwin : s.Twin r (s.Consults r b.offset) s') :
    ∃ s₁ s₁', s.release r b.offset = .ok s₁ ∧ s'.release r b.offset = .ok s₁' ∧
      s₁.Twin r (s.Consults r b.offset) s₁' := by
  have hHeader := Region.offset_mem_headers (r := r) (List.mem_append_right pre
    (List.mem_cons_self (a := b) (l := post)))
  have hSize : r.chunkSize s.memory b.offset = .ok b.size := h.chained.chunkSize_eq (by simp)
  have hSize' : r.chunkSize s'.memory b.offset = .ok b.size := by
    rw [hTwin.same.chunkSize (.own rfl), hSize]
  have hBytes := h.size_le_usedBytes hUsed
  -- the run in the memory that is intact
  have hLifted := h.lifted hUsed
  have hNone : ∀ c ∈ ([] : List Block), c ∈ pre ++ post ∧ c.isFree = false := by simp
  obtain ⟨stack₁, b₁, post₁, s₁, hMerge, hAbsorb, h₁, hOffset, hKept, -⟩ :=
    hLifted.absorbNext hNone
  obtain ⟨-, -, -, s₂, -, hSettle, -⟩ := h₁.settle fun c hc => ⟨hKept c hc, (hNone c hc).2⟩
  rw [hOffset] at hSettle
  have hStack : ∀ k, stack₁ k = (stack k).filter (· ≠ r.content s.memory .next b.offset) := by
    intro k
    rw [h.chained.next_eq (by simp), ← hLifted.mergeNext_stack k, hMerge]
  have hPrevious : ∀ previous, r.read s₁.memory b.offset .previous = .ok previous →
      previous = r.content s.memory .previous b.offset := by
    intro previous hRead
    have hHeader₁ := Region.offset_mem_headers (r := r) (List.mem_append_right pre
      (List.mem_cons_self (a := b₁) (l := post₁)))
    rw [← hOffset, h₁.chained.read_header hHeader₁ rfl, h₁.chained.previous_eq,
      ← h.chained.previous_eq] at hRead
    exact (Except.ok.inj hRead).symm
  -- and step by step the run in the other
  have hTwin₀ : (s.lifted b.size).Twin r (s.Consults r b.offset) (s'.lifted b.size) := by
    obtain ⟨heap, m'⟩ := s'
    obtain ⟨rfl, hSame⟩ := hTwin
    exact ⟨rfl, hSame⟩
  obtain ⟨s₁', hAbsorb', hTwin₁⟩ := hTwin₀.absorbNext (.own rfl) (fun next hNext => by
    obtain rfl := Except.ok.inj ((h.chained.read_header hHeader rfl).symm.trans hNext)
    exact absorbKnown_next (s.lifted b.size) r b.offset) s₁ hAbsorb
  obtain ⟨s₂', hSettle', hTwin₂⟩ := hTwin₁.settle (.own rfl) (.own rfl) (fun previous hRead => by
    obtain rfl := hPrevious previous hRead
    exact hLifted.settleKnown_previous h₁ hStack) s₂ hSettle
  exact ⟨s₂, s₂', release_of_steps hSize hBytes hFrees hAbsorb hSettle,
    release_of_steps hSize' (hTwin.heap ▸ hBytes) (hTwin.heap ▸ hFrees) hAbsorb' hSettle', hTwin₂⟩

end Store.Holds

/-- **Freeing a live pointer** does the same wherever the fields that it consults are the same. -/
theorem Store.Represents.free_twin (h : s.Represents r t) (hb : b ∈ t.used)
    (hFrees : s.heap.counters.frees + 1 < Word.limit)
    (hTwin : s.Twin r (s.Consults r b.offset) s') :
    ∃ s₁ s₁', s.free (r.payload b.offset) = .ok (.ok (), s₁) ∧
      s'.free (r.payload b.offset) = .ok (.ok (), s₁') ∧
      s₁.Twin r (s.Consults r b.offset) s₁' := by
  obtain ⟨hMem, hUsed⟩ := Tiling.mem_used.mp hb
  obtain ⟨pre, post, hBlocks⟩ := List.append_of_mem hMem
  have hHolds := h.holds
  rw [hBlocks] at hHolds
  obtain ⟨s₁, s₁', hRelease, hRelease', hTwin₁⟩ := hHolds.release_twin hUsed hFrees hTwin
  have hPasses := h.passes hb
  have hPasses' : r.PassesAsUsed s'.memory b.offset :=
    hTwin.same.passes (fun _ hf => .own hf) (.predecessor (Or.inl rfl)) (.successor (Or.inl rfl))
      hPasses
  exact ⟨s₁, s₁', Store.free_of_release h.holds.region (Store.resolve_of_passes hPasses) hRelease,
    Store.free_of_release (hTwin.heap ▸ h.holds.region) (Store.resolve_of_passes hPasses')
      hRelease', hTwin₁⟩

-- ---------------------------------------------------------------------------
-- Every correct run
-- ---------------------------------------------------------------------------

/-- **After a correct run of a validating heap, and with anything written over the memory**, a
pointer is refused for a defect and nothing changes, or its header passes as used and nothing is
refused any more; and a live pointer is freed, with the bins and counters that it would have left
anyway, unless something was written over a field that freeing it consults. -/
theorem overwritten_run_frees {start stop : Nat} {config : Config} {log : List Exchange}
    {c : Client} (hInit : s.init start stop config = .ok (.ok (), s'))
    (hValidate : config.validateFrees = true) (hRun : Client.Run .correct ⟨s', []⟩ log c)
    (m : Memory) :
    ∃ r, Region.ofBounds? start stop = .ok r ∧
      (∀ p, Store.Judges { c.store with memory := m } r p) ∧
      ∀ p ∈ c.live, ∃ o, r.payload o = p ∧
        (r.SameOn (c.store.Consults r o) c.store.memory m →
          ∃ s₁ s₂, c.store.free p = .ok (.ok (), s₁) ∧
            Store.free { c.store with memory := m } p = .ok (.ok (), s₂) ∧ s₂.heap = s₁.heap) := by
  obtain ⟨r, hBounds, hStart⟩ := Store.laidOut_of_init hInit
  obtain ⟨hTracks, -, hConfig, -⟩ := Client.Run.tracks hStart hRun
  have hJudges : ∀ p, Store.Judges { c.store with memory := m } r p :=
    Store.judges hTracks.represents.holds.region (hConfig ▸ hValidate)
  refine ⟨r, hBounds, hJudges, fun p hp => ?_⟩
  obtain ⟨b, hb, rfl⟩ := hTracks.exists_used hp
  refine ⟨b.offset, rfl, fun hSame => ?_⟩
  have hTwin : c.store.Twin r (c.store.Consults r b.offset) { c.store with memory := m } :=
    ⟨rfl, hSame⟩
  obtain ⟨s₁, s₂, hFree, hFree', hTwin'⟩ :=
    hTracks.represents.free_twin hb (hTracks.frees_lt hp) hTwin
  exact ⟨s₁, s₂, hFree, hFree', hTwin'.heap⟩

/-- The header of the tail is erased under a live block that does not touch it. -/
theorem overwritten_run_frees_tail_erased :
    ∃ s' log c s₁, Store.init ⟨Heap.empty, Memory.blank⟩ 65536 66560 .hardened =
        .ok (.ok (), s') ∧
      Client.Run .correct ⟨s', []⟩ log c ∧ requests log = [.allocate 24] ∧ c.live = [65600] ∧
      Store.free { c.store with memory := c.store.memory.fill 66528 32 0xEE } 65600 =
        .ok (.ok (), s₁) := by
  obtain ⟨s', hInit, hLaidOut⟩ := Store.init_kibibyte .hardened
  obtain ⟨log, c, hRun, hRequests⟩ := Client.Run.extend hLaidOut [.allocate 24] (.start trivial)
    (by decide +kernel) (by decide)
  have hTracks := (Client.Run.tracks hLaidOut hRun).1
  have hReplay : Tiling.replay .kibibyte log =
      (Tiling.initial 1024).after .kibibyte [.allocate 24] := by
    rw [Tiling.replay, hRequests]
    rfl
  have hBlocks : (Tiling.replay .kibibyte log).blocks = [⟨32, 32, false⟩, ⟨96, 864, true⟩] := by
    rw [hReplay]
    decide +kernel
  have hLive : c.live = [65600] := by
    have hPerm := hTracks.live
    rw [hReplay] at hPerm
    exact List.perm_singleton.mp hPerm
  have hHolds := hTracks.represents.holds
  rw [hBlocks] at hHolds
  have hNext : Region.kibibyte.content c.store.memory .next 32 = 96 :=
    hHolds.chained.next_eq (b := ⟨32, 32, false⟩) (by simp)
  have hPrevious : Region.kibibyte.content c.store.memory .previous 32 = 0 := by
    rw [← List.nil_append [_, _]] at hHolds
    exact hHolds.chained.previous_eq
  -- no header is consulted but those of the head, the live block and the free rest
  have hBelow : ∀ o f, c.store.Consults .kibibyte 32 o f → o ≤ 96 := by
    intro o f hConsults
    cases hConsults with
    | own _ => decide
    | successor _ | freeSuccessor _ _ => exact Nat.le_of_eq hNext
    | predecessor _ | freePredecessor _ _ => exact Nat.le_trans (Nat.le_of_eq hPrevious) (by decide)
    | top hRing hTop =>
      obtain rfl := Except.ok.inj (hRing.symm.trans (hHolds.filed.ring_eq hHolds.placed _))
      obtain ⟨hMem, -⟩ := List.mem_filter.mp (List.mem_of_head? hTop)
      obtain ⟨b, hb, hFree, rfl, -⟩ := hHolds.exists_free hMem
      have hCases : b = ⟨32, 32, false⟩ ∨ b = ⟨96, 864, true⟩ := by simpa using hb
      rcases hCases with rfl | rfl
      · exact absurd hFree (by decide)
      · exact Nat.le_refl 96
  have hSame : Region.kibibyte.SameOn (c.store.Consults .kibibyte 32) c.store.memory
      (c.store.memory.fill 66528 32 0xEE) := by
    intro o f hConsults x _ hHigh
    have hBase : Region.kibibyte.base = 65536 := rfl
    have hOffset := hBelow o f hConsults
    have hField : f.position + f.width ≤ 48 :=
      Nat.le_trans f.position_add_width_le_reach f.reach_le
    exact Memory.byte_fill_of_outside (Or.inl (by omega))
  obtain ⟨r, hBounds, -, hFrees⟩ := overwritten_run_frees hInit rfl hRun
    (c.store.memory.fill 66528 32 0xEE)
  obtain rfl : Region.kibibyte = r := Except.ok.inj hBounds
  obtain ⟨o, hPayload, hFrees⟩ := hFrees 65600 (by simp [hLive])
  obtain rfl : o = 32 := Client.payload_injective .kibibyte hPayload
  obtain ⟨-, s₂, -, hFree, -⟩ := hFrees hSame
  exact ⟨s', log, c, s₂, hInit, hRun, hRequests, hLive, hFree⟩

/-- **One word is enough**: a ring link of the free chunk behind it that leads out of the region
stops a live pointer's free, and a tag stops a free that would take more than is in use. Neither
pointer has a defect. -/
theorem overwritten_run_free_faults :
    ∃ s' c, Store.init ⟨Heap.empty, Memory.blank⟩ 65536 66560 .hardened = .ok (.ok (), s') ∧
      Client.Run .correct ⟨s', []⟩ [⟨.allocate 16, .allocated (.ok 65600)⟩] c ∧
      c.live = [65600] ∧
      Store.validate .kibibyte (c.store.memory.store (65536 + 120) 8 (2 ^ 40)) 65600 =
        .ok (.ok 32) ∧
      (Store.free { c.store with memory := c.store.memory.store (65536 + 120) 8 (2 ^ 40) }
        65600).map (·.1) = .error .outOfRegion ∧
      Store.validate .kibibyte (s'.memory.store (65536 + 48) 4 Mark.used.tag) 65600 =
        .ok (.ok 32) ∧
      (Store.free { s' with memory := s'.memory.store (65536 + 48) 4 Mark.used.tag }
        65600).map (·.1) = .error .overflow := by
  have hFresh : Store.Shows
      ((Store.init ⟨Heap.empty, Memory.blank⟩ 65536 66560 .hardened).map (·.2)) fun s _ =>
        Store.validate .kibibyte (s.memory.store (65536 + 48) 4 Mark.used.tag) 65600 =
          .ok (.ok 32) ∧
        (Store.free { s with memory := s.memory.store (65536 + 48) 4 Mark.used.tag }
          65600).map (·.1) = .error .overflow := by
    decide +kernel
  have hGranted : Store.Shows
      (Store.init ⟨Heap.empty, Memory.blank⟩ 65536 66560 .hardened >>= fun outcome =>
        (Client.perform ⟨outcome.2, []⟩ (.allocate 16)).map (·.2.store)) fun s _ =>
          Store.validate .kibibyte (s.memory.store (65536 + 120) 8 (2 ^ 40)) 65600 = .ok (.ok 32) ∧
          (Store.free { s with memory := s.memory.store (65536 + 120) 8 (2 ^ 40) }
            65600).map (·.1) = .error .outOfRegion := by
    decide +kernel
  obtain ⟨s', hInit, hLaidOut⟩ := Store.init_kibibyte .hardened
  have hAllowed : Protocol.correct.allows ⟨s', []⟩ (.allocate 16) := trivial
  obtain ⟨c, hCall, hTracks, -⟩ :=
    (Client.tracks_of_laidOut hLaidOut).perform hAllowed (Client.hasRoom_of_laidOut hLaidOut)
  obtain ⟨s₁, -, hStore₁, -, hPasses₁, hFault₁⟩ := hFresh
  rw [hInit] at hStore₁
  obtain rfl : s' = s₁ := Except.ok.inj hStore₁
  obtain ⟨s₂, -, hStore₂, -, hPasses₂, hFault₂⟩ := hGranted
  rw [hInit, ok_bind, hCall] at hStore₂
  obtain rfl : c.store = s₂ := Except.ok.inj hStore₂
  exact ⟨s', c, hInit, .call (.start trivial) trivial hCall trivial,
    List.perm_singleton.mp hTracks.live, hPasses₂, hFault₂, hPasses₁, hFault₁⟩

end RegionHeap
