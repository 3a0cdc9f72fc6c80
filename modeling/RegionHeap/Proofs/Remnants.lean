import RegionHeap.Proofs.Client
import RegionHeap.Proofs.Imprint
import RegionHeap.Proofs.Widening

/-!
# Headers that were given up

When a chunk is freed, its header is that of a free chunk, or it is merged away and its bytes lie
in the payload of one. There they stay: behind the ring links of the free chunk around them, where
no further free writes anything but the tag that they hold anyway, and no caller writes at all. So
the pointer that was freed is recognised until an allocation takes its bytes.

* `Tiling.Buries`: a place for a header in a free block.
* `Store.Remembers`: the header of a freed chunk, with its canary and its tag.
* `Remembers.refuses`: its pointer is refused as freed already.
* `Represents.remembers_freed`, `Remembers.free`, `Remembers.write`: a free leaves such a header,
  and neither further frees nor writes spoil it.
* `Protocol.shrinking`: nothing is allocated any more.
* `correct_run_remembers_freed`: in every state that a client can bring about so.
-/

namespace RegionHeap

variable {r : Region} {m m' : Memory} {f g : Field} {o y : Nat} {b d : Block}
variable {s s' : Store} {t t' : Tiling} {c c' : Client} {log log' : List Exchange}

-- ---------------------------------------------------------------------------
-- Places in free blocks
-- ---------------------------------------------------------------------------

/-- A header at `o` is that of a free block, or lies in its payload behind the ring links. -/
def Tiling.Buries (t : Tiling) (o : Nat) : Prop :=
  ∃ d ∈ t.blocks, d.isFree = true ∧
    (d.offset = o ∨ d.offset + (headerSize + minPayload) ≤ o) ∧ o + headerSize ≤ d.stop

namespace Tiling

/-- No field of the chain overlaps a buried header in part. -/
theorem Buries.clear (h : t.Buries o) (hTiled : Tiled headerSize t.blocks r.tail)
    (hSited : r.Sited t.blocks f y) (hg : g.reach = headerSize) : Region.Clear f y g o := by
  obtain ⟨d, hd, -, hPlace, hStop⟩ := h
  rcases hPlace with rfl | hBehind
  · exact hSited.clear hTiled (Region.sited_block hd)
  · have hSizes := sizes_eq
    have hBounds := hTiled.bounds hd
    have hReach := f.reach_le
    unfold Region.Clear
    rcases hSited.cases hTiled with ⟨rfl, hf⟩ | ⟨b, hb, rfl, hf⟩ | ⟨rfl, hf⟩
    · omega
    · rcases hTiled.apart hb hd with rfl | hBelow | hAbove
      · omega
      · omega
      · omega
    · omega

/-- What lies in a free block is aside from what is used. -/
theorem Buries.apart (h : t.Buries o) (hTiled : Tiled headerSize t.blocks r.tail)
    (hb : b ∈ t.used) : o + headerSize ≤ b.offset + headerSize ∨ b.stop ≤ o := by
  obtain ⟨d, hd, hFree, hPlace, hStop⟩ := h
  obtain ⟨hMem, hUsed⟩ := mem_used.mp hb
  have hBegins : d.offset ≤ o := by omega
  rcases hTiled.apart hd hMem with rfl | hBelow | hAbove
  · exact absurd (hFree.symm.trans hUsed) (by decide)
  · omega
  · exact Or.inr (hAbove.trans hBegins)

theorem Buries.inside (h : t.Buries o) (hTiled : Tiled headerSize t.blocks r.tail) :
    headerSize ≤ o ∧ o + headerSize ≤ r.tail := by
  obtain ⟨d, hd, -, hPlace, hStop⟩ := h
  have := hTiled.bounds hd
  omega

end Tiling

namespace Store.Represents

/-- **A free buries** the header of the block that it frees, and leaves buried what was. -/
theorem buries_free (h : s.Represents r t) (hb : b ∈ t.used) :
    (t.free b.offset).Buries b.offset ∧ ∀ o, t.Buries o → (t.free b.offset).Buries o := by
  obtain ⟨pre, post, hBlocks, hFreed⟩ := Tiling.exists_free_eq_freed h.holds.distinct hb
  have hTiled := h.holds.tiled
  rw [hBlocks] at hTiled
  obtain ⟨pre', b', post', hMerged, hFree', hAbsorbs, hOffsets⟩ :=
    Tiling.freed_absorbs t.stack hTiled
  rw [hFreed]
  -- a block that grew downwards has at least a header and the ring links more below
  have hGrown : ∀ d ∈ pre ++ b :: post, d.Within b' →
      b'.offset = d.offset ∨ b'.offset + (headerSize + minPayload) ≤ d.offset := by
    intro d hd hWithin
    obtain ⟨a, ha, hOffset⟩ := List.mem_map.mp (hOffsets (List.mem_map_of_mem (by simp :
      b' ∈ pre' ++ b' :: post')))
    have hLe := hWithin.offset_le
    have hSize := (hTiled.payload ha).1
    rcases hTiled.apart ha hd with rfl | hBelow | hAbove
    · exact Or.inl hOffset.symm
    · unfold Block.stop at hBelow
      omega
    · have := d.offset_lt_stop
      omega
  have hMem : b' ∈ pre' ++ b' :: post' := by simp
  unfold Tiling.Buries
  rw [hMerged]
  constructor
  · have hSize := (hTiled.payload (b := b) (by simp)).1
    have hStop := hAbsorbs.own.stop_le
    refine ⟨b', hMem, hFree', hGrown b (by simp) hAbsorbs.own, ?_⟩
    unfold Block.stop at *
    omega
  · rintro o ⟨d, hd, hFree, hPlace, hStop⟩
    rw [hBlocks] at hd
    have hOther : d ∈ pre ++ post := by
      have hne := ne_of_used hFree (Tiling.mem_used.mp hb).2
      simpa [hne.symm] using hd
    rcases hAbsorbs.others d hOther hFree with hWithin | hKept
    · have hEnd := hWithin.stop_le
      have := hGrown d hd hWithin
      exact ⟨b', hMem, hFree', by omega, by omega⟩
    · refine ⟨d, ?_, hFree, hPlace, hStop⟩
      simp only [List.mem_append, List.mem_cons] at hKept ⊢
      tauto

end Store.Represents

-- ---------------------------------------------------------------------------
-- Headers that are remembered
-- ---------------------------------------------------------------------------

namespace Store

/-- The header at `o` was that of a chunk that was freed, and still says so. -/
structure Remembers (s : Store) (r : Region) (t : Tiling) (o : Nat) : Prop where
  aligned : o % Word.alignment = 0
  buried : t.Buries o
  stamped : r.Stamped s.memory o .free

/-- **Its pointer** is refused as freed already. -/
theorem Remembers.refuses (h : s.Remembers r t o) (hRepresents : s.Represents r t)
    (hValidate : s.heap.config.validateFrees = true) :
    s.free (r.payload o) = .ok (.error (.corruption (r.payload o) .doubleFree), s) ∧
      s.usableSize (r.payload o) = .ok (.error (.corruption (r.payload o) .doubleFree)) := by
  obtain ⟨hCanary, hTag⟩ := h.stamped
  have hInside := h.buried.inside hRepresents.holds.tiled
  have hSizes := sizes_eq
  have hAligned : r.payload o % Word.alignment = 0 :=
    (r.payload_mod_alignment o).trans h.aligned
  have hOffset : r.offsetOfPayload? (r.payload o) = some o :=
    Region.offsetOfPayload?_eq_some_iff.mpr ⟨rfl, by omega⟩
  have hDefect : usedDefect? r s.memory o = .ok (some .doubleFree) := by
    have hMark : r.mark? s.memory o = .ok (some .free) := by
      unfold Region.mark?
      rw [Region.read_of_le_tail (by omega) h.aligned rfl, ok_bind, hTag]
      rfl
    unfold usedDefect?
    rw [if_neg (by omega), Region.read_of_le_tail (by omega) h.aligned rfl, ok_bind, hCanary,
      if_neg (by simp), hMark, ok_bind]
    rfl
  have hRefused : validate r s.memory (r.payload o) =
      .ok (.error (.corruption (r.payload o) .doubleFree)) := by
    unfold validate
    rw [if_neg (by simp [hAligned]), hOffset]
    simp only
    rw [hDefect, ok_bind]
    rfl
  obtain ⟨hQuery, hFree⟩ := refused_of_validate hRepresents.holds.region hRefused
  exact ⟨hFree hValidate, hQuery⟩

/-- **What was freed** is remembered. -/
theorem Represents.remembers_freed (h : s.Represents r t) (hb : b ∈ t.used)
    (hFree : s.free (r.payload b.offset) = .ok (.ok (), s')) (hFreed : Freed r t b.offset s s') :
    s'.Remembers r (t.free b.offset) b.offset := by
  obtain ⟨hMem, -⟩ := Tiling.mem_used.mp hb
  have hTiled := h.holds.tiled
  obtain ⟨hCanary, hTag⟩ := (h.free_edits hb hFree).stamp_cases fun f y hSited g _ =>
    hSited.clear hTiled (Region.sited_block hMem)
  refine ⟨hTiled.aligned rfl hMem, (h.buries_free hb).1, ?_, hTag.resolve_left fun hSame => ?_⟩
  · exact hCanary.trans (h.holds.chained.canary _ (Region.offset_mem_headers hMem))
  · exact hFreed.tag (hSame.trans (h.passes hb).tag)

namespace Remembers

/-- **A further free** leaves it so. -/
theorem free (h : s.Remembers r t o) (hRepresents : s.Represents r t) (hb : b ∈ t.used)
    (hFree : s.free (r.payload b.offset) = .ok (.ok (), s')) :
    s'.Remembers r (t.free b.offset) o := by
  obtain ⟨hCanary, hTag⟩ := (hRepresents.free_edits hb hFree).stamp_cases fun f y hSited g hg =>
    h.buried.clear hRepresents.holds.tiled hSited hg
  refine ⟨h.aligned, (hRepresents.buries_free hb).2 o h.buried, hCanary.trans h.stamped.1, ?_⟩
  exact hTag.elim (fun hSame => hSame.trans h.stamped.2) id

/-- **What callers write** into their payloads leaves it so. -/
theorem write (h : s.Remembers r t o) (hRepresents : s.Represents r t)
    (hSame : ∀ x, (∀ b ∈ t.used, x < r.payload b.offset ∨ r.payload b.offset + b.size ≤ x) →
      m.byte x = s.memory.byte x) : Remembers { s with memory := m } r t o where
  aligned := h.aligned
  buried := h.buried
  stamped := h.stamped.congr fun g hg _ _ => by
    refine Region.content_congr fun x hLow hHigh => hSame x fun b hb => ?_
    have hApart := h.buried.apart hRepresents.holds.tiled hb
    have hWidth := g.position_add_width_le_reach
    unfold Region.payload
    unfold Block.stop at hApart
    omega

end Remembers

end Store

-- ---------------------------------------------------------------------------
-- Clients that allocate no more
-- ---------------------------------------------------------------------------

/-- Anything may be asked for, but no allocation succeeds, and nothing is freed that is not live. -/
def Protocol.shrinking : Protocol where
  allows c request := ∃ answer c', c.perform request = .ok (answer, c') ∧
    answer.isGranted = false ∧ (answer.isAccepted = true → Protocol.correct.allows c request)
  admits _ := True

/-- A free that is refused changes nothing. -/
theorem Store.free_refused {e : HeapError} {p : Nat} (h : s.free p = .ok (.error e, s')) :
    s' = s := by
  unfold Store.free at h
  cases hRegion : s.heap.region with
  | none =>
    simp only [hRegion] at h
    exact (Prod.mk.inj (Except.ok.inj h)).2.symm
  | some r =>
    simp only [hRegion] at h
    obtain ⟨resolved, -, h⟩ := bind_eq_ok_iff.mp h
    cases resolved with
    | error e => exact (Prod.mk.inj (Except.ok.inj h)).2.symm
    | ok o =>
      obtain ⟨s₁, -, h⟩ := bind_eq_ok_iff.mp h
      exact absurd (Prod.mk.inj (Except.ok.inj h)).1 (by simp)

namespace Client

variable {request : Call} {answer : Answer} {e : HeapError} {p : Nat}

/-- An allocation that is refused changes a counter, and nothing that the client tracks. -/
theorem Tracks.refused (h : c.Tracks r t)
    (hCall : c.perform request = .ok (.allocated (.error e), c')) :
    c'.Tracks r t ∧ Store.Refused r t c.store c'.store := by
  have hAllowed : Protocol.correct.allows c request := by
    cases request with
    | allocate size | allocateZeroed size => trivial
    | free q =>
      obtain ⟨outcome, -, hOutcome⟩ := bind_eq_ok_iff.mp hCall
      exact absurd (Prod.mk.inj (Except.ok.inj hOutcome)).1 (by simp)
  obtain ⟨_, hCall', hTracks, hConducted, hCounted⟩ :=
    h.perform_counted hAllowed (h.hasRoom_of_perform hCall)
  obtain ⟨hAnswer, rfl⟩ := Prod.mk.inj (Except.ok.inj (hCall.symm.trans hCall'))
  rw [← hAnswer] at hCounted
  -- it was neither counted as granted nor as a free
  cases hConducted with
  | allocated o size hAllocated =>
    have := hAllocated.allocations.symm.trans hCounted.allocations
    exact absurd this (by simp [Answer.isGranted])
  | refused hSame hRefused =>
    rw [hSame] at hTracks
    exact ⟨hTracks, hRefused⟩
  | freed b _ _ hFreed =>
    have := hFreed.frees.symm.trans hCounted.frees
    exact absurd this (by simp [Answer.isAccepted])

/-- A free of a live pointer that returned is the tiling's. -/
theorem Tracks.freed (h : c.Tracks r t) (hp : p ∈ c.live)
    (hCall : c.perform (.free p) = .ok (answer, c')) :
    ∃ b ∈ t.used, r.payload b.offset = p ∧ c.store.free p = .ok (.ok (), c'.store) ∧
      c'.Tracks r (t.free b.offset) ∧ Store.Freed r t b.offset c.store c'.store := by
  obtain ⟨b, hb, rfl⟩ := h.exists_used hp
  obtain ⟨s', hFree, hPerm, hFreed⟩ := h.represents.free hb (h.frees_lt hp)
  obtain ⟨outcome, hFree', hOutcome⟩ := bind_eq_ok_iff.mp hCall
  obtain rfl := Except.ok.inj (hFree.symm.trans hFree')
  obtain ⟨-, rfl⟩ := Prod.mk.inj (Except.ok.inj hOutcome)
  exact ⟨b, hb, rfl, hFree, h.of_freed hb hPerm hFreed, hFreed⟩

/-- A free that is refused changes nothing. -/
theorem eq_of_free_refused (hCall : c.perform (.free p) = .ok (.freed (.error e), c')) :
    c' = c := by
  obtain ⟨⟨result, s'⟩, hFree, hOutcome⟩ := bind_eq_ok_iff.mp hCall
  obtain ⟨hAnswer, rfl⟩ := Prod.mk.inj (Except.ok.inj hOutcome)
  obtain rfl : result = .error e := Answer.freed.inj hAnswer
  obtain rfl := Store.free_refused hFree
  rfl

/-- **A call of a client that allocates no more** leaves every freed header as it was. -/
theorem Tracks.remembers_call {o : Nat} (h : c.Tracks r t) (hRemembers : c.store.Remembers r t o)
    (hAllowed : Protocol.shrinking.allows c request)
    (hCall : c.perform request = .ok (answer, c')) :
    ∃ t', c'.Tracks r t' ∧ c'.store.Remembers r t' o ∧
      c'.store.heap.config = c.store.heap.config := by
  obtain ⟨_, _, hCall', hGranted, hAccepted⟩ := hAllowed
  obtain ⟨rfl, rfl⟩ := Prod.mk.inj (Except.ok.inj (hCall.symm.trans hCall'))
  cases answer with
  | allocated result =>
    cases result with
    | ok q => exact absurd hGranted (by simp [Answer.isGranted])
    | error e =>
      obtain ⟨hTracks, hRefused⟩ := h.refused hCall
      refine ⟨t, hTracks, ⟨hRemembers.aligned, hRemembers.buried, ?_⟩, hRefused.config⟩
      rw [hRefused.memory]
      exact hRemembers.stamped
  | freed result =>
    cases request with
    | allocate size | allocateZeroed size =>
      obtain ⟨outcome, -, hOutcome⟩ := bind_eq_ok_iff.mp hCall
      exact absurd (Prod.mk.inj (Except.ok.inj hOutcome)).1 (by simp)
    | free p =>
      cases result with
      | ok _ =>
        obtain ⟨b, hb, rfl, hFree, hTracks, hFreed⟩ := h.freed (hAccepted rfl) hCall
        exact ⟨_, hTracks, hRemembers.free h.represents hb hFree, hFreed.config⟩
      | error e =>
        obtain rfl := eq_of_free_refused hCall
        exact ⟨t, h, hRemembers, rfl⟩

/-- **What a client writes** into its payloads leaves every freed header as it was. -/
theorem Tracks.remembers_write {o : Nat} {m : Memory} (h : c.Tracks r t)
    (hRemembers : c.store.Remembers r t o)
    (hSame : ∀ x, ¬c.Owns x → m.byte x = c.store.memory.byte x) :
    (c.write m).store.Remembers r t o :=
  hRemembers.write h.represents fun x hx => hSame x fun hOwns => by
    obtain ⟨b, hb, hLow, hHigh⟩ := h.owns_iff.mp hOwns
    have := hx b hb
    omega

-- ---------------------------------------------------------------------------
-- Every run
-- ---------------------------------------------------------------------------

/-- **A run that allocates no more** leaves every freed header as it was. -/
theorem Run.remembers {o : Nat} (hStart : c.Tracks r t) (hRemembers : c.store.Remembers r t o)
    (hRun : Run .shrinking c log c') :
    ∃ t', c'.Tracks r t' ∧ c'.store.Remembers r t' o ∧
      c'.store.heap.config = c.store.heap.config := by
  induction hRun with
  | start _ => exact ⟨t, hStart, hRemembers, rfl⟩
  | call _ hAllowed hCall _ ih =>
    obtain ⟨t₁, hTracks₁, hRemembers₁, hConfig₁⟩ := ih
    obtain ⟨t₂, hTracks₂, hRemembers₂, hConfig₂⟩ :=
      hTracks₁.remembers_call hRemembers₁ hAllowed hCall
    exact ⟨t₂, hTracks₂, hRemembers₂, hConfig₂.trans hConfig₁⟩
  | write _ hSame _ ih =>
    obtain ⟨t₁, hTracks₁, hRemembers₁, hConfig₁⟩ := ih
    exact ⟨t₁, hTracks₁.write hSame, hTracks₁.remembers_write hRemembers₁ hSame, hConfig₁⟩

/-- **A correct run whose last call freed a pointer** has left its header so. -/
theorem Run.remembers_last {start : Client} {p : Nat} (hStart : start.Tracks r t)
    (hRun : Run .correct start log c) (hLast : log.getLast? = some ⟨.free p, answer⟩) :
    ∃ o t', r.payload o = p ∧ c.Tracks r t' ∧ c.store.Remembers r t' o := by
  induction hRun with
  | start _ => exact absurd hLast (by simp)
  | @call log c c' request answer' hRun hAllowed hCall _ _ =>
    rw [List.getLast?_concat] at hLast
    obtain ⟨rfl, rfl⟩ := Exchange.mk.inj (Option.some.inj hLast)
    have hTracks := (hRun.continues hStart).tracks
    obtain ⟨b, hb, rfl, hFree, hTracks', hFreed⟩ := hTracks.freed hAllowed hCall
    exact ⟨_, _, rfl, hTracks', hTracks.represents.remembers_freed hb hFree hFreed⟩
  | write _ hSame _ ih =>
    obtain ⟨o, t', hPayload, hTracks, hRemembers⟩ := ih hLast
    exact ⟨o, t', hPayload, hTracks.write hSame, hTracks.remembers_write hRemembers hSame⟩

end Client

/-- **A pointer that was freed is refused as freed already**, for as long as nothing is allocated:
however many pointers are freed after it, whatever is asked for in vain, and whatever is written
into the payloads that are still live. -/
theorem correct_run_remembers_freed {start stop : Nat} {config : Config} {p : Nat}
    (hInit : s.init start stop config = .ok (.ok (), s')) (hValidate : config.validateFrees = true)
    (hRun : Client.Run .correct ⟨s', []⟩ (log ++ [⟨.free p, .freed (.ok ())⟩]) c)
    (hShrinking : Client.Run .shrinking c log' c') :
    c'.store.free p = .ok (.error (.corruption p .doubleFree), c'.store) ∧
      c'.store.usableSize p = .ok (.error (.corruption p .doubleFree)) := by
  obtain ⟨r, -, hLaidOut⟩ := Store.laidOut_of_init hInit
  have hStart := Client.tracks_of_laidOut hLaidOut
  obtain ⟨o, t, rfl, hTracks, hRemembers⟩ := hRun.remembers_last hStart List.getLast?_concat
  obtain ⟨t', hTracks', hRemembers', hConfig⟩ := hShrinking.remembers hTracks hRemembers
  have hConfigured := (Client.Run.tracks hLaidOut hRun).2.2.1
  exact hRemembers'.refuses hTracks'.represents (by rw [hConfig, hConfigured, hValidate])

/-- The second of three payloads is freed. Then the first one is written, so that it looks like a
header, and freed, so that the chunk before takes the freed one in; the second is freed once more in
vain; the third is freed, so that one free chunk is left; and too much is asked for. -/
theorem correct_run_remembers_freed_merged :
    ∃ s' c c', Store.init ⟨Heap.empty, Memory.blank⟩ 65536 66560 .hardened = .ok (.ok (), s') ∧
      Client.Run .correct ⟨s', []⟩ [⟨.allocate 32, .allocated (.ok 65600)⟩,
        ⟨.allocate 32, .allocated (.ok 65664)⟩, ⟨.allocate 32, .allocated (.ok 65728)⟩,
        ⟨.free 65664, .freed (.ok ())⟩] c ∧
      Client.Run .shrinking c [⟨.free 65600, .freed (.ok ())⟩,
        ⟨.free 65664, .freed (.error (.corruption 65664 .doubleFree))⟩,
        ⟨.free 65728, .freed (.ok ())⟩, ⟨.allocate 4096, .allocated (.error (.outOfMemory 4096))⟩]
        c' ∧
      c'.store.free 65664 = .ok (.error (.corruption 65664 .doubleFree), c'.store) := by
  have hReturns : (do
      let ready ← Store.init ⟨Heap.empty, Memory.blank⟩ 65536 66560 .hardened
      let (a₁, c₁) ← Client.perform ⟨ready.2, []⟩ (.allocate 32)
      let (a₂, c₂) ← c₁.perform (.allocate 32)
      let (a₃, c₃) ← c₂.perform (.allocate 32)
      let (a₄, c₄) ← c₃.perform (.free 65664)
      let size ← c₄.store.usableSize 65600
      let (a₅, c₅) ← (c₄.write (c₄.store.memory.store 65616 4 Mark.used.tag)).perform (.free 65600)
      let (a₆, c₆) ← c₅.perform (.free 65664)
      let (a₇, c₇) ← c₆.perform (.free 65728)
      let (a₈, _) ← c₇.perform (.allocate 4096)
      return ([a₁, a₂, a₃, a₄, a₅, a₆, a₇, a₈], size, c₃.live, c₄.live, c₆.live) : Checked _) =
      .ok ([.allocated (.ok 65600), .allocated (.ok 65664), .allocated (.ok 65728),
        .freed (.ok ()), .freed (.ok ()), .freed (.error (.corruption 65664 .doubleFree)),
        .freed (.ok ()), .allocated (.error (.outOfMemory 4096))],
        .ok 32, [65728, 65664, 65600], [65728, 65600], [65728]) := by
    decide +kernel
  obtain ⟨⟨_, s'⟩, hInit, hReturns⟩ := bind_eq_ok_iff.mp hReturns
  obtain ⟨⟨a₁, c₁⟩, h₁, hReturns⟩ := bind_eq_ok_iff.mp hReturns
  obtain ⟨⟨a₂, c₂⟩, h₂, hReturns⟩ := bind_eq_ok_iff.mp hReturns
  obtain ⟨⟨a₃, c₃⟩, h₃, hReturns⟩ := bind_eq_ok_iff.mp hReturns
  obtain ⟨⟨a₄, c₄⟩, h₄, hReturns⟩ := bind_eq_ok_iff.mp hReturns
  obtain ⟨size, hSize, hReturns⟩ := bind_eq_ok_iff.mp hReturns
  obtain ⟨⟨a₅, c₅⟩, h₅, hReturns⟩ := bind_eq_ok_iff.mp hReturns
  obtain ⟨⟨a₆, c₆⟩, h₆, hReturns⟩ := bind_eq_ok_iff.mp hReturns
  obtain ⟨⟨a₇, c₇⟩, h₇, hReturns⟩ := bind_eq_ok_iff.mp hReturns
  obtain ⟨⟨a₈, c₈⟩, h₈, hReturns⟩ := bind_eq_ok_iff.mp hReturns
  have hValues := Except.ok.inj hReturns
  simp only [Prod.mk.injEq, List.cons.injEq, and_true] at hValues
  obtain ⟨⟨rfl, rfl, rfl, rfl, rfl, rfl, rfl, rfl⟩, rfl, hLive₃, hLive₄, hLive₆⟩ := hValues
  obtain ⟨s'', hInit', -⟩ := Store.init_kibibyte .hardened
  obtain ⟨rfl, rfl⟩ := Prod.mk.inj (Except.ok.inj (hInit.symm.trans hInit'))
  have hRun₃ : Client.Run .correct ⟨s', []⟩ ([] ++ [⟨.allocate 32, _⟩] ++ [⟨.allocate 32, _⟩] ++
      [⟨.allocate 32, _⟩]) c₃ :=
    .call (.call (.call (.start trivial) trivial h₁ trivial) trivial h₂ trivial) trivial h₃ trivial
  have hFreed : Protocol.correct.allows c₃ (.free 65664) := show 65664 ∈ c₃.live by simp [hLive₃]
  have hOwned : ∀ x, ¬c₄.Owns x →
      (c₄.store.memory.store 65616 4 Mark.used.tag).byte x = c₄.store.memory.byte x := by
    intro x hx
    refine Memory.byte_store_of_outside ?_
    by_contra hInside
    exact hx ⟨65600, by simp [hLive₄], 32, hSize, by omega, by omega⟩
  have hFreed₅ : 65600 ∈ (c₄.write (c₄.store.memory.store 65616 4 Mark.used.tag)).live :=
    show 65600 ∈ c₄.live by simp [hLive₄]
  have hFreed₇ : 65728 ∈ c₆.live := by simp [hLive₆]
  have hShrinking : Client.Run .shrinking c₄ ([] ++ [⟨.free 65600, _⟩] ++ [⟨.free 65664, _⟩] ++
      [⟨.free 65728, _⟩] ++ [⟨.allocate 4096, _⟩]) c₈ :=
    .call (.call (.call (.call (.write (.start trivial) hOwned trivial)
      ⟨_, _, h₅, rfl, fun _ => hFreed₅⟩ h₅ trivial)
      ⟨_, _, h₆, rfl, fun hAccepted => absurd hAccepted (by simp [Answer.isAccepted])⟩ h₆ trivial)
      ⟨_, _, h₇, rfl, fun _ => hFreed₇⟩ h₇ trivial) ⟨_, _, h₈, rfl, fun _ => trivial⟩ h₈ trivial
  have hRun₄ := Client.Run.call hRun₃ hFreed h₄ trivial
  exact ⟨s', c₄, c₈, hInit, hRun₄, hShrinking,
    (correct_run_remembers_freed hInit rfl hRun₄ hShrinking).1⟩

end RegionHeap
