import RegionHeap.Proofs.Integrity
import RegionHeap.Proofs.Vetting

/-!
# Diagnostics of a damaged heap

Whatever is written over the memory of a heap, a walk that returns lists ascending chunks, and
an audit that finds a defect names it as corruption. Neither hangs. Both may stop with a fault:
they follow links that they have not checked.

* `Audit.Settles`: an audit comes to an end, if it is safe.
* `Region.Passable`, `Region.RingPassable`: the headers and the ring members that an audit gets
  past.
* `Store.audit_settles`: links that lead neither out of the region nor to where no header or ring
  link can be make an audit safe.
* `overwritten_run_diagnosed`: the diagnostics after a correct run, over any memory.
* `overwritten_run_faults`: one damaged link is enough to stop an audit, or a walk.
-/

namespace RegionHeap

variable {α β : Type} {safe : Prop} {r : Region} {m : Memory} {t : Tally} {a : ChunkInfo}
variable {o next : Nat} {k : SizeClass} {bins : Bins} {s s' : Store}

-- ---------------------------------------------------------------------------
-- Audits that come to an end
-- ---------------------------------------------------------------------------

/-- The audit passes, or finds a defect that it names as corruption. If it is `safe`, no fault
stops it. -/
def Audit.Settles (safe : Prop) : Audit α → Prop
  | .ok (.ok _) => True
  | .ok (.error e) => ∃ address defect, e = .corruption address defect
  | .error _ => ¬safe

namespace Audit

theorem settles_pure (a : α) : Settles safe (pure a) := trivial

theorem settles_throw (address : Nat) (defect : Defect) :
    Settles safe (throw (.corruption address defect) : Audit α) :=
  ⟨address, defect, rfl⟩

theorem settles_lift {x : Checked α} (h : safe → ∃ a, x = .ok a) :
    Settles safe (liftM x : Audit α) := by
  match x with
  | .ok a => trivial
  | .error fault =>
    intro hSafe
    obtain ⟨a, ha⟩ := h hSafe
    cases ha

theorem settles_add {x y : Nat} (h : x + y < Word.limit) :
    Settles safe (liftM (Word.add x y) : Audit Nat) :=
  settles_lift fun _ => ⟨x + y, Word.add_eq_ok_iff.mpr ⟨rfl, h⟩⟩

theorem Settles.bind {x : Audit α} {f : α → Audit β} (h : Settles safe x)
    (hf : ∀ a, x = pure a → Settles safe (f a)) : Settles safe (x >>= f) := by
  match x with
  | .ok (.ok a) => exact hf a rfl
  | .ok (.error e) => exact h
  | .error fault => exact h

/-- A check that is made before the audit goes on. -/
theorem settles_check {c : Prop} [Decidable c] {address : Nat} {defect : Defect}
    {f : α → Audit β} {x : Audit β} (h : ¬c → Settles safe x) :
    Settles safe (if c then throw (.corruption address defect) >>= f else x) := by
  split
  · exact (settles_throw address defect).bind fun _ hThrow => absurd hThrow audit_throw_ne
  · exact h ‹_›

end Audit

-- ---------------------------------------------------------------------------
-- One chunk of the chain
-- ---------------------------------------------------------------------------

/-- The audit gets past the header at `o`: its successor is not inside it, and unless it is the
head, its back link leads to where a header can be, inside the region and aligned. -/
structure Region.Passable (r : Region) (m : Memory) (o : Nat) : Prop where
  apart : ¬r.Overlapped m o
  previous : o ≠ 0 → ∃ p, r.read m o .previous = .ok p ∧ r.Accessible .next p

/-- What has been counted lies below `o`. -/
structure Tally.Within (t : Tally) (o : Nat) : Prop where
  bytes : t.freeBytes + t.usedBytes + t.metaBytes ≤ o
  chunks : t.freeChunks ≤ t.metaBytes

namespace Tally

theorem checkHeader_settles (ho : o ≤ r.tail) (hAligned : o % Word.alignment = 0)
    (h : safe → r.Passable m o) : Audit.Settles safe (checkHeader r m o) := by
  unfold checkHeader
  refine (Audit.settles_lift fun _ => Region.read_header_returns ho hAligned rfl).bind
    fun canary _ => ?_
  refine Audit.settles_check fun _ => ?_
  by_cases hHead : o ≠ 0
  · rw [if_pos hHead]
    refine (Audit.settles_lift fun _ => Region.read_header_returns ho hAligned rfl).bind
      fun previous hPrevious => ?_
    rw [audit_lift_eq_pure] at hPrevious
    refine (Audit.settles_lift fun hSafe => ?_).bind fun returned _ => ?_
    · obtain ⟨p, hRead, hp⟩ := (h hSafe).previous hHead
      obtain rfl := Except.ok.inj (hPrevious.symm.trans hRead)
      exact ⟨_, Region.read_eq_content hp⟩
    · split
      · exact Audit.settles_throw _ _
      · exact Audit.settles_pure ()
  · rw [if_neg hHead]
    exact Audit.settles_pure ()

/-- Counting a chunk does not run over. -/
theorem count_settles (hWithin : t.Within a.offset) (ho : a.offset ≤ r.tail)
    (hSize : a.offset + a.size < Word.limit) : Audit.Settles safe (t.count r a) := by
  have hBytes := hWithin.bytes
  have hChunks := hWithin.chunks
  have hTail := r.tail_add_headerSize
  have hLimit := r.size_lt_limit
  have hOne : t.freeChunks + 1 < Word.limit := by
    unfold headerSize at *
    omega
  unfold count
  split
  · exact Audit.settles_pure _
  · refine (Audit.settles_add (by omega)).bind fun _ _ => ?_
    refine (Audit.settles_add (by omega)).bind fun _ _ => ?_
    exact Audit.settles_pure _
  · refine Audit.settles_check fun _ => ?_
    refine (Audit.settles_add hOne).bind fun _ _ => ?_
    refine (Audit.settles_add (by omega)).bind fun _ _ => ?_
    refine (Audit.settles_add (by omega)).bind fun _ _ => ?_
    exact Audit.settles_pure _
  · exact (Audit.settles_throw _ _).bind fun _ hThrow => absurd hThrow audit_throw_ne

theorem visit_settles (hWithin : t.Within a.offset) (ho : a.offset ≤ r.tail)
    (hAligned : a.offset % Word.alignment = 0) (hSize : a.offset + a.size < Word.limit)
    (h : safe → r.Passable m a.offset) : Audit.Settles safe (t.visit r m a) := by
  rw [visit_eq]
  exact (checkHeader_settles ho hAligned h).bind fun _ _ => count_settles hWithin ho hSize

theorem within_zero : zero.Within 0 := ⟨Nat.le_refl 0, Nat.le_refl 0⟩

/-- A chunk is counted up to where it stops. -/
theorem Within.add (h : t.Within a.offset) (hNext : a.offset + headerSize + a.size = next) :
    (t.add r a).Within next := by
  obtain ⟨hBytes, hChunks⟩ := h
  have := sizes_eq
  unfold Tally.add ChunkInfo.isFree
  match hMark : a.mark with
  | some .free =>
    constructor
    · show t.freeBytes + a.size + (t.usedBytes + 0) + (t.metaBytes + headerSize) ≤ next
      omega
    · show t.freeChunks + 1 ≤ t.metaBytes + headerSize
      omega
  | some .used =>
    constructor
    · show t.freeBytes + 0 + (t.usedBytes + a.size) + (t.metaBytes + headerSize) ≤ next
      omega
    · show t.freeChunks + 0 ≤ t.metaBytes + headerSize
      omega
  | some .sentinel =>
    constructor
    · show t.freeBytes + 0 + (t.usedBytes + 0) + (t.metaBytes + 0) ≤ next
      omega
    · exact hChunks
  | none =>
    constructor
    · show t.freeBytes + 0 + (t.usedBytes + 0) + (t.metaBytes + headerSize) ≤ next
      omega
    · show t.freeChunks + 0 ≤ t.metaBytes + headerSize
      omega

end Tally

-- ---------------------------------------------------------------------------
-- The whole chain
-- ---------------------------------------------------------------------------

/-- A chunk's size is the distance to its successor, and so less than a word. -/
theorem Region.chunkAt_size (h : r.chunkAt m o = .ok a) (ho : o ≤ r.tail)
    (hAligned : o % Word.alignment = 0) :
    o + a.size < Word.limit ∧
      ∀ next, r.read m o .next = .ok next → o < next → o + headerSize + a.size = next := by
  obtain ⟨next, hRead⟩ := read_header_returns (m := m) ho hAligned (f := .next) rfl
  have hSize := (chunkAt_inv h).1
  have hLimit := r.size_lt_limit
  have hTail := r.tail_add_headerSize
  have hNext : next < Word.limit := by
    rw [← (read_eq_ok_iff.mp hRead).2]
    exact Memory.load_lt _ _ _
  unfold chunkSize at hSize
  rw [hRead, ok_bind] at hSize
  split at hSize
  · have hZero := Except.ok.inj hSize
    refine ⟨by omega, fun next' hRead' hUp => ?_⟩
    obtain rfl := Except.ok.inj (hRead.symm.trans hRead')
    omega
  · obtain ⟨hApart, hEq⟩ := Word.sub_eq_ok_iff.mp hSize
    refine ⟨by omega, fun next' hRead' _ => ?_⟩
    obtain rfl := Except.ok.inj (hRead.symm.trans hRead')
    omega

/-- **An audit of the chain** settles, and is safe where it gets past every header. -/
theorem Audit.chainFrom_settles : ∀ (t : Tally) (o : Nat), t.Within o → o ≤ r.tail →
    o % Word.alignment = 0 → (safe → ∀ x, r.Walked m o x → r.Passable m x) →
      Settles safe (Audit.chainFrom r m t o) := by
  intro t o
  induction t, o using Audit.chainFrom.induct (r := r) with
  | case1 t o ih =>
    intro hWithin ho hAligned hPassable
    have hHere : safe → r.Passable m o := fun hSafe => hPassable hSafe o (.here o)
    unfold Audit.chainFrom
    refine (settles_lift fun hSafe => (Region.chunkAt_returns_iff ho hAligned).mpr
      (hHere hSafe).apart).bind fun a hChunk => ?_
    rw [audit_lift_eq_pure] at hChunk
    obtain ⟨hSize, hStop⟩ := Region.chunkAt_size hChunk ho hAligned
    obtain rfl := Region.chunkAt_offset hChunk
    refine (Tally.visit_settles hWithin ho hAligned hSize hHere).bind fun t' hVisit => ?_
    obtain ⟨-, -, rfl⟩ := Tally.of_visit hVisit
    refine (settles_lift fun _ => Region.successor?_returns ho hAligned).bind
      fun successor hSuccessor => ?_
    rw [audit_lift_eq_pure] at hSuccessor
    cases successor with
    | none => exact settles_pure _
    | some successor =>
      obtain ⟨next, hNext⟩ := successor
      obtain ⟨hRead, hNextAligned⟩ := Region.successor?_some hSuccessor
      exact ih _ next hNext (hWithin.add (hStop next hRead hNext.1)) hNext.2 hNextAligned
        fun hSafe x hWalked => hPassable hSafe x (.on hSuccessor hWalked)

theorem Audit.chain_settles (h : safe → ∀ x, r.Walked m 0 x → r.Passable m x) :
    Settles safe (Audit.chain r m) := by
  unfold Audit.chain
  refine (chainFrom_settles _ 0 Tally.within_zero (Nat.zero_le _) rfl h).bind fun t _ => ?_
  refine settles_check fun _ => ?_
  refine (settles_lift fun _ => Region.read_header_returns (Nat.le_refl _) r.tail_aligned rfl).bind
    fun _ _ => ?_
  refine settles_check fun _ => ?_
  refine (settles_lift fun _ => Region.read_header_returns (Nat.zero_le _) rfl rfl).bind
    fun _ _ => ?_
  exact settles_check fun _ => settles_pure t

-- ---------------------------------------------------------------------------
-- The rings
-- ---------------------------------------------------------------------------

/-- Links that are confirmed from both sides lead from one offset to another. -/
def Region.RingWalked (r : Region) (m : Memory) : Nat → Nat → Prop :=
  Relation.ReflTransGen (Link (r.content m .ringNext) (r.content m .ringPrevious))

/-- The audit gets past the ring member at `o`: it is where a header can be, its successor on the
chain is not inside that header, and the next member is where ring links can be, inside the region
and aligned as these have to be. -/
structure Region.RingPassable (r : Region) (m : Memory) (o : Nat) : Prop where
  aligned : o % Word.alignment = 0
  apart : ¬r.Overlapped m o
  next : r.Accessible .ringPrevious (r.content m .ringNext o)

namespace Audit

theorem checkMember_settles (ho : r.Accessible .ringNext o)
    (h : safe → r.RingPassable m o) : Settles safe (checkMember r m k o) := by
  have hRoom : o + (headerSize + minPayload) ≤ r.size := ho.reach
  have hStop := r.stop_lt
  have hTail := r.tail_add_headerSize
  have hBelow : o ≤ r.tail := by omega
  unfold checkMember
  refine (settles_add (by omega)).bind fun address _ => ?_
  refine (settles_lift fun hSafe => (Region.chunkSize_returns_iff hBelow (h hSafe).aligned).mpr
    (h hSafe).apart).bind fun size _ => ?_
  refine (settles_lift fun hSafe => Region.isFree_returns hBelow (h hSafe).aligned).bind
    fun isFree _ => ?_
  refine settles_check fun _ => ?_
  refine (settles_lift fun _ => ⟨_, Region.read_eq_content ho⟩).bind fun next hNext => ?_
  rw [audit_lift_eq_pure, Region.read_eq_content ho] at hNext
  obtain rfl := Except.ok.inj hNext
  refine (settles_lift fun hSafe => ⟨_, Region.read_eq_content (h hSafe).next⟩).bind
    fun previous _ => ?_
  exact settles_check fun _ => settles_pure _

/-- **An audit of a ring** settles, and is safe where it gets past every member. -/
theorem ringFrom_settles {head : Nat} : ∀ (allowed o seen : Nat), r.Accessible .ringNext o →
    (safe → ∀ x, r.RingWalked m o x → r.RingPassable m x) →
      Settles safe (ringFrom r m k head allowed o seen) := by
  intro allowed
  induction allowed with
  | zero =>
    intro o seen ho hPassable
    rw [ringFrom_eq_bind]
    exact (checkMember_settles ho fun hSafe => hPassable hSafe o .refl).bind
      fun _ _ => settles_throw _ _
  | succ allowed ih =>
    intro o seen ho hPassable
    rw [ringFrom_eq_bind]
    refine (checkMember_settles ho fun hSafe => hPassable hSafe o .refl).bind fun next hNext => ?_
    obtain ⟨-, hLink, hAccess⟩ := checkMember_inv hNext
    dsimp only
    split
    · exact settles_pure _
    · exact ih next (seen + 1) ⟨hAccess.reach, hAccess.aligned⟩ fun hSafe x hWalked =>
        hPassable hSafe x (.head hLink hWalked)

theorem ring_settles (hHeads : ∀ head, bins.head k = some head → r.Accessible .ringNext head)
    (h : safe → ∀ head, bins.head k = some head → ∀ x, r.RingWalked m head x →
      r.RingPassable m x) : Settles safe (ring r m bins k) := by
  unfold ring
  cases hHead : bins.head k with
  | none => exact settles_pure 0
  | some head =>
    exact ringFrom_settles _ head 0 (hHeads head hHead) fun hSafe => h hSafe head hHead

end Audit

/-- Rings that pass have no more members than the region has bytes. -/
theorem Bins.length_flatMap_members_le {classes : List SizeClass} (hClasses : classes.Nodup)
    (h : ∀ k ∈ classes, bins.RingPasses r m k) :
    (classes.flatMap (bins.members r m)).length ≤ r.size := by
  refine Region.length_le_of_nodup_of_lt (nodup_flatMap_members hClasses h) fun o ho => ?_
  obtain ⟨k, hk, ho⟩ := List.mem_flatMap.mp ho
  obtain ⟨hRoom, -⟩ := (h k hk).member o ho
  have := sizes_eq
  omega

/-- The members of rings are counted without running over: those that were counted are in rings
that pass. -/
theorem Audit.foldlM_ring_settles (classes : List SizeClass) : ∀ done : List SizeClass,
    (done ++ classes).Nodup → (∀ k ∈ done, bins.RingPasses r m k) →
    (∀ k ∈ classes, Settles safe (ring r m bins k)) →
      Settles safe (classes.foldlM (fun total k => do Word.add total (← ring r m bins k))
        (done.flatMap (bins.members r m)).length) := by
  induction classes with
  | nil => exact fun _ _ _ _ => settles_pure _
  | cons k rest ih =>
    intro done hNodup hDone hSettles
    have hAssoc : done ++ k :: rest = (done ++ [k]) ++ rest := by simp
    rw [hAssoc] at hNodup
    rw [List.foldlM_cons, bind_assoc]
    refine (hSettles k (by simp)).bind fun n hRing => ?_
    obtain ⟨hPasses, rfl⟩ := ring_inv hRing
    have hAll : ∀ j ∈ done ++ [k], bins.RingPasses r m j := by
      intro j hj
      rcases List.mem_append.mp hj with hj | hj
      · exact hDone j hj
      · rw [List.mem_singleton.mp hj]
        exact hPasses
    have hLimit := r.size_lt_limit
    have hLength :=
      Bins.length_flatMap_members_le (List.nodup_append.mp hNodup).1 hAll
    have hSplit : ((done ++ [k]).flatMap (bins.members r m)).length =
        (done.flatMap (bins.members r m)).length + (bins.members r m k).length := by
      rw [List.flatMap_append, List.length_append, List.flatMap_singleton]
    have hAdd : Word.add (done.flatMap (bins.members r m)).length (bins.members r m k).length =
        .ok ((done ++ [k]).flatMap (bins.members r m)).length :=
      Word.add_eq_ok_iff.mpr ⟨hSplit.symm, by omega⟩
    rw [audit_lift hAdd, pure_bind]
    exact ih (done ++ [k]) hNodup hAll fun j hj => hSettles j (List.mem_cons_of_mem k hj)

theorem Audit.rings_settles
    (hHeads : ∀ k head, bins.head k = some head → r.Accessible .ringNext head)
    (h : safe → ∀ k head, bins.head k = some head → ∀ x, r.RingWalked m head x →
      r.RingPassable m x) : Settles safe (Audit.rings r m bins t) := by
  unfold Audit.rings
  refine Settles.bind ?_ fun binned _ => ?_
  · exact foldlM_ring_settles SizeClass.all [] (List.nodup_finRange 64) (by simp) fun k _ =>
      ring_settles (hHeads k) fun hSafe => h hSafe k
  · split
    · exact settles_throw _ _
    · exact settles_pure ()

-- ---------------------------------------------------------------------------
-- The whole audit
-- ---------------------------------------------------------------------------

/-- Counters that make up the region are summed without running over. -/
theorem Audit.totals_settles {counters : Counters}
    (hBalanced : counters.freeBytes + counters.usedBytes + counters.metaBytes + 2 * headerSize =
      r.size) : Settles safe (Audit.totals r counters t) := by
  have hLimit := r.size_lt_limit
  unfold Audit.totals
  refine settles_check fun hSame => ?_
  rw [not_or, not_or, not_not, not_not, not_not] at hSame
  refine (settles_lift fun _ => ⟨r.size, Word.sum_eq_ok_iff.mpr ⟨?_, hLimit⟩⟩).bind fun _ _ => ?_
  · simp only [List.sum_cons, List.sum_nil]
    omega
  · split
    · exact settles_throw _ _
    · exact settles_pure ()

/-- No link that an audit of the heap follows leads to where it cannot go on. -/
structure Store.Passable (s : Store) (r : Region) : Prop where
  chain : ∀ x, r.Walked s.memory 0 x → r.Passable s.memory x
  rings : ∀ k head, s.heap.bins.head k = some head → ∀ x, r.RingWalked s.memory head x →
    r.RingPassable s.memory x

/-- **An audit settles** whatever memory holds, if bins and counters fit the region. -/
theorem Store.audit_settles (hRegion : s.heap.region = some r)
    (hHeads : ∀ k head, s.heap.bins.head k = some head → r.Accessible .ringNext head)
    (hBalanced : s.heap.counters.freeBytes + s.heap.counters.usedBytes +
      s.heap.counters.metaBytes + 2 * headerSize = r.size) :
    Audit.Settles (s.Passable r) s.audit := by
  unfold Store.audit
  simp only [hRegion]
  refine (Audit.chain_settles fun hPassable => hPassable.chain).bind fun t _ => ?_
  refine (Audit.rings_settles hHeads fun hPassable => hPassable.rings).bind fun _ _ => ?_
  exact Audit.totals_settles hBalanced

-- ---------------------------------------------------------------------------
-- Every correct run
-- ---------------------------------------------------------------------------

/-- What the diagnostics of a heap tell, whatever its memory holds. -/
structure Store.Diagnosed (s : Store) (r : Region) : Prop where
  /-- A walk that returns has listed aligned chunks, each above the one before it. -/
  ascending : ∀ chain, s.chunks = .ok chain → chain.head?.map (·.offset) = some 0 ∧
    chain.Pairwise (fun a b => a.offset < b.offset) ∧
    ∀ a ∈ chain, a.offset ≤ r.tail ∧ a.offset % Word.alignment = 0
  /-- It returns unless it comes to a header that has its successor inside. -/
  listed : (∃ chain, s.chunks = .ok chain) ↔
    ∀ x, r.Walked s.memory 0 x → ¬r.Overlapped s.memory x
  /-- An error that an audit reports is a corruption. -/
  reported : ∀ e, s.audit = .ok (.error e) → ∃ address defect, e = .corruption address defect
  /-- It does report or pass unless a link leads it to where it cannot go on. -/
  settled : s.Passable r → ∃ result, s.audit = .ok result

theorem Store.diagnosed_of_settles (hRegion : s.heap.region = some r)
    (h : Audit.Settles (s.Passable r) s.audit) : s.Diagnosed r := by
  refine ⟨fun chain hChunks => ?_, ?_, fun e hAudit => ?_, fun hPassable => ?_⟩
  · obtain ⟨hHead, hAscends, hBounds⟩ := Store.chunks_spec hRegion hChunks
    exact ⟨hHead, Region.ascending_of_isChain hAscends, hBounds⟩
  · unfold Store.chunks
    simp only [hRegion]
    exact Region.chunksFrom_returns_iff 0 (Nat.zero_le _) rfl
  · rw [hAudit] at h
    exact h
  · cases hAudit : s.audit with
    | ok result => exact ⟨result, rfl⟩
    | error fault =>
      rw [hAudit] at h
      exact absurd hPassable h

/-- **After a correct run, and with anything written over the memory**, the diagnostics work as
long as they do not come to a link that leads them out of the region, into a header, or to where no
header or ring link can be. -/
theorem overwritten_run_diagnosed {start stop : Nat} {config : Config} {log : List Exchange}
    {c : Client} (hInit : s.init start stop config = .ok (.ok (), s'))
    (hRun : Client.Run .correct ⟨s', []⟩ log c) (m : Memory) :
    ∃ r, Region.ofBounds? start stop = .ok r ∧ Store.Diagnosed { c.store with memory := m } r := by
  obtain ⟨r, hBounds, hStart⟩ := Store.laidOut_of_init hInit
  obtain ⟨hTracks, -⟩ := Client.Run.tracks hStart hRun
  have hIntact := hTracks.represents.intact
  have hHolds := hTracks.represents.holds
  refine ⟨r, hBounds, Store.diagnosed_of_settles hHolds.region ?_⟩
  refine Store.audit_settles hHolds.region (fun k head hHead => ?_) hIntact.balanced
  have hFiled := (hHolds.filed.head k).symm.trans hHead
  exact hHolds.placed.accessible (List.mem_of_head? hFiled) rfl

/-- A heap whose memory was erased. -/
theorem overwritten_run_diagnosed_erased :
    ∃ s' r, Store.init ⟨Heap.empty, Memory.blank⟩ 65536 66560 .hardened = .ok (.ok (), s') ∧
      Region.ofBounds? 65536 66560 = .ok r ∧
      Store.Diagnosed { s' with memory := Memory.blank } r := by
  obtain ⟨s', hInit, -⟩ := Store.init_kibibyte .hardened
  obtain ⟨r, hBounds, hDiagnosed⟩ :=
    overwritten_run_diagnosed hInit (.start trivial) Memory.blank
  exact ⟨s', r, hInit, hBounds, hDiagnosed⟩

/-- **One word is enough**: a back link that leads out of the region stops the audit, and so does
one, or a ring link, that is not aligned. A successor inside its own header stops the walk. -/
theorem overwritten_run_faults :
    ∃ s', Store.init ⟨Heap.empty, Memory.blank⟩ 65536 66560 .hardened = .ok (.ok (), s') ∧
      Client.Run .correct ⟨s', []⟩ [] ⟨s', []⟩ ∧
      Store.audit { s' with memory := s'.memory.store (65536 + 32) 8 (2 ^ 40) } =
        .error .outOfRegion ∧
      Store.audit { s' with memory := s'.memory.store (65536 + 32) 8 17 } = .error .misaligned ∧
      Store.audit { s' with memory := s'.memory.store (65536 + 72) 8 41 } = .error .misaligned ∧
      Store.chunks { s' with memory := s'.memory.store (65536 + 8) 8 16 } = .error .overflow := by
  have hShows : Store.Shows
      ((Store.init ⟨Heap.empty, Memory.blank⟩ 65536 66560 .hardened).map Prod.snd) fun s _ =>
        Store.audit { s with memory := s.memory.store (65536 + 32) 8 (2 ^ 40) } =
          .error .outOfRegion ∧
        Store.audit { s with memory := s.memory.store (65536 + 32) 8 17 } = .error .misaligned ∧
        Store.audit { s with memory := s.memory.store (65536 + 72) 8 41 } = .error .misaligned ∧
        Store.chunks { s with memory := s.memory.store (65536 + 8) 8 16 } = .error .overflow := by
    decide +kernel
  obtain ⟨s', hInit, -⟩ := Store.init_kibibyte .hardened
  obtain ⟨s, r, hStore, -, hFaults⟩ := hShows
  rw [hInit] at hStore
  obtain rfl : s' = s := Except.ok.inj hStore
  exact ⟨s', hInit, .start trivial, hFaults⟩

end RegionHeap
