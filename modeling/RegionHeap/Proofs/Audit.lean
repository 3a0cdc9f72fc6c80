import RegionHeap.Heap.Audit
import RegionHeap.Proofs.Walk

/-!
# The audit finds nothing

A store that represents a tiling passes every check there is.

* `Represents.chain_eq`: along the chain, the tally is that of the blocks.
* `Represents.rings_eq`: around the rings, there are as many chunks as there are free
  blocks.
* `Represents.audit_eq`: the audit finds no defect.
-/

namespace RegionHeap

variable {r : Region} {m : Memory} {b : Block} {blocks pre post : List Block} {o : Nat}
variable {k : SizeClass} {s : Store} {t : Tiling}

/-- A read inside an audit. -/
theorem audit_lift {α : Type} {x : Checked α} {a : α} (h : x = .ok a) :
    (liftM x : Audit α) = pure a := by
  rw [h]
  rfl

-- ---------------------------------------------------------------------------
-- Along the chain
-- ---------------------------------------------------------------------------

/-- The tally of the head and the blocks after it. -/
def Tally.of (blocks : List Block) : Tally where
  freeChunks := (blocks.filter (·.isFree)).length
  freeBytes := RegionHeap.freeBytes blocks
  usedBytes := RegionHeap.usedBytes blocks
  metaBytes := headerSize * blocks.length
  lastFree := blocks.getLast?.any (·.isFree)
  atTail := false

namespace Region.Chained

theorem visit_head (h : r.Chained m blocks) :
    Tally.zero.visit r m (r.boundary 0) = pure (Tally.of []) := by
  have hMem : (0 : Nat) ∈ r.headers blocks := mem_headers.mpr (Or.inl rfl)
  have hTail : ((0 : Nat) == r.tail) = false := by
    have := r.tail_add_headerSize
    have := r.minRegionSize_le
    have := sizes_eq
    simp
    omega
  unfold Tally.visit boundary
  dsimp only
  rw [audit_lift (h.read_header hMem rfl), pure_bind, if_neg (by simp [h.canary 0 hMem]),
    if_neg (by simp), hTail]
  rfl

/-- The checks that every header but the first has to pass. -/
theorem visit_links (h : r.Chained m blocks) (ho : o ∈ r.headers blocks) :
    (liftM (r.read m o .canary) : Audit Nat) = pure (canaryOf o) ∧
      (liftM (r.read m o .previous) : Audit Nat) = pure (r.content m .previous o) ∧
      (liftM (r.read m (r.content m .previous o) .next) : Audit Nat) = pure o := by
  obtain ⟨hMem, hNext⟩ := h.circle.next_previous ho
  refine ⟨audit_lift ?_, audit_lift (h.read_header ho rfl), audit_lift ?_⟩
  · rw [h.read_header ho rfl, h.canary o ho]
  · rw [h.read_header hMem rfl, hNext]

/-- Blocks lie between the boundaries. -/
theorem offset_ne_boundary (h : r.Chained m blocks) (hb : b ∈ blocks) :
    b.offset ≠ 0 ∧ b.offset ≠ r.tail := by
  have hBounds := h.tiled.bounds hb
  have := sizes_eq
  have := b.offset_lt_stop
  omega

/-- What has been tallied up to a block, with the block, fits into a word. -/
theorem tally_lt (h : r.Chained m (pre ++ b :: post)) :
    freeBytes pre + usedBytes pre + b.size + headerSize * pre.length + headerSize <
      Word.limit := by
  have hTotal := h.tiled.total
  have := r.tail_add_headerSize
  have := r.size_lt_limit
  simp only [freeBytes_append, freeBytes_cons, usedBytes_append, usedBytes_cons,
    List.length_append, List.length_cons, Nat.mul_add] at hTotal
  cases hFree : b.isFree <;> simp only [hFree, if_true, Bool.false_eq_true, if_false] at hTotal <;>
    omega

theorem visit_used (h : r.Chained m (pre ++ b :: post)) (hUsed : b.isFree = false) :
    (Tally.of pre).visit r m (b.info r) = pure (Tally.of (pre ++ [b])) := by
  have hb : b ∈ pre ++ b :: post := by simp
  obtain ⟨hCanary, hPrevious, hNext⟩ := h.visit_links (offset_mem_headers hb)
  obtain ⟨hHead, hTail⟩ := h.offset_ne_boundary hb
  have hLimit := h.tally_lt
  have hMark : b.mark = .used := by simp [Block.mark, hUsed]
  have hBytes : Word.add (Tally.of pre).usedBytes b.size = .ok (usedBytes pre + b.size) :=
    Word.add_eq_ok_iff.mpr ⟨rfl, by omega⟩
  have hMeta : Word.add (Tally.of pre).metaBytes headerSize =
      .ok (headerSize * pre.length + headerSize) :=
    Word.add_eq_ok_iff.mpr ⟨rfl, by omega⟩
  unfold Tally.visit Block.info
  dsimp only
  rw [hCanary, pure_bind, if_neg (by simp), if_pos hHead, hPrevious, pure_bind, hNext,
    pure_bind, if_neg (by simp), beq_false_of_ne hHead, beq_false_of_ne hTail, Bool.or_false,
    hMark]
  dsimp only
  rw [audit_lift hBytes, pure_bind, audit_lift hMeta, pure_bind, pure_bind]
  simp [Tally.of, hUsed, ChunkInfo.isFree, Nat.mul_add]
  rfl

theorem visit_free (h : r.Chained m (pre ++ b :: post)) (hFree : b.isFree = true)
    (hLast : (Tally.of pre).lastFree = false) :
    (Tally.of pre).visit r m (b.info r) = pure (Tally.of (pre ++ [b])) := by
  have hb : b ∈ pre ++ b :: post := by simp
  obtain ⟨hCanary, hPrevious, hNext⟩ := h.visit_links (offset_mem_headers hb)
  obtain ⟨hHead, hTail⟩ := h.offset_ne_boundary hb
  have hLimit := h.tally_lt
  have hMark : b.mark = .free := by simp [Block.mark, hFree]
  have hCount : Word.add (Tally.of pre).freeChunks 1 =
      .ok ((pre.filter (·.isFree)).length + 1) := by
    have := List.length_filter_le (·.isFree) pre
    refine Word.add_eq_ok_iff.mpr ⟨rfl, ?_⟩
    unfold headerSize at *
    omega
  have hBytes : Word.add (Tally.of pre).freeBytes b.size = .ok (freeBytes pre + b.size) :=
    Word.add_eq_ok_iff.mpr ⟨rfl, by omega⟩
  have hMeta : Word.add (Tally.of pre).metaBytes headerSize =
      .ok (headerSize * pre.length + headerSize) :=
    Word.add_eq_ok_iff.mpr ⟨rfl, by omega⟩
  unfold Tally.visit Block.info
  dsimp only
  rw [hCanary, pure_bind, if_neg (by simp), if_pos hHead, hPrevious, pure_bind, hNext,
    pure_bind, if_neg (by simp), beq_false_of_ne hHead, beq_false_of_ne hTail, Bool.or_false,
    hMark]
  dsimp only
  rw [if_neg (by simp [hLast]), audit_lift hCount, pure_bind, audit_lift hBytes, pure_bind,
    audit_lift hMeta, pure_bind, pure_bind]
  simp [Tally.of, hFree, ChunkInfo.isFree, Nat.mul_add]

/-- Visiting a block adds it to the tally. -/
theorem visit_block (h : r.Chained m (pre ++ b :: post))
    (hCoalesced : Coalesced (pre ++ b :: post)) :
    (Tally.of pre).visit r m (b.info r) = pure (Tally.of (pre ++ [b])) := by
  cases hFree : b.isFree with
  | false => exact h.visit_used hFree
  | true =>
    -- a free block comes after a used one, so the audit has not just seen a free chunk
    have hUsedLast := ((coalesced_append_cons.mp hCoalesced).2.2 hFree).1
    refine h.visit_free hFree ?_
    show pre.getLast?.any (·.isFree) = false
    cases hPre : pre.getLast? with
    | none => rfl
    | some c => exact hUsedLast c hPre

theorem visit_tail (h : r.Chained m blocks) (t : Tally) :
    t.visit r m (r.boundary r.tail) = pure { t with lastFree := false, atTail := true } := by
  obtain ⟨hCanary, hPrevious, hNext⟩ :=
    h.visit_links (o := r.tail) (mem_headers.mpr (Or.inr (Or.inr rfl)))
  have hPos : r.tail ≠ 0 := by
    have := r.tail_add_headerSize
    have := r.minRegionSize_le
    have := sizes_eq
    omega
  unfold Tally.visit boundary
  dsimp only
  rw [hCanary, pure_bind, if_neg (by simp), if_pos hPos, hPrevious, pure_bind, hNext, pure_bind,
    if_neg (by simp)]
  simp [ChunkInfo.isFree]
  rfl

/-- From where a block stops, the rest of the chain is added to the tally. -/
theorem chainFrom_eq (post : List Block) : ∀ (pre : List Block) (o : Nat),
    r.Chained m (pre ++ post) → Coalesced (pre ++ post) → Tiled o post r.tail →
      Audit.chainFrom r m (Tally.of pre) o =
        pure { Tally.of (pre ++ post) with lastFree := false, atTail := true } := by
  induction post with
  | nil =>
    intro pre o h hCoalesced hTiled
    have ho : o = r.tail := hTiled
    rw [ho, Audit.chainFrom, audit_lift (h.chunkAt_boundary (Or.inr rfl)), pure_bind,
      h.visit_tail, pure_bind, audit_lift h.successor?_tail, pure_bind, List.append_nil]
  | cons b rest ih =>
    rintro pre _ h hCoalesced ⟨rfl, -, -, hRest⟩
    have hb : b ∈ pre ++ b :: rest := by simp
    have hAssoc : pre ++ b :: rest = (pre ++ [b]) ++ rest := by simp
    have hUp : b.offset < r.content m .next b.offset := by
      rw [h.next_eq hb]
      exact b.offset_lt_stop
    rw [Audit.chainFrom, audit_lift (h.chunkAt_block hb), pure_bind, h.visit_block hCoalesced,
      pure_bind, audit_lift (h.successor?_eq (offset_mem_headers hb) hUp), pure_bind]
    simp only
    rw [h.next_eq hb, ih (pre ++ [b]) b.stop (hAssoc ▸ h) (hAssoc ▸ hCoalesced) hRest, ← hAssoc]

end Region.Chained

namespace Store.Represents

/-- **Along the chain**, the audit tallies the blocks. -/
theorem chain_eq (h : s.Represents r t) : Audit.chain r s.memory =
    pure { Tally.of t.blocks with lastFree := false, atTail := true } := by
  have hChained := h.holds.chained
  have hHead : (0 : Nat) ∈ r.headers t.blocks := Region.mem_headers.mpr (Or.inl rfl)
  have hTail : r.tail ∈ r.headers t.blocks := Region.mem_headers.mpr (Or.inr (Or.inr rfl))
  have hUp : 0 < r.content s.memory .next 0 := by
    rw [hChained.next_head]
    decide
  unfold Audit.chain
  rw [Audit.chainFrom, audit_lift (hChained.chunkAt_boundary (Or.inl rfl)), pure_bind,
    hChained.visit_head, pure_bind, audit_lift (hChained.successor?_eq hHead hUp), pure_bind]
  simp only
  rw [hChained.next_head,
    hChained.chainFrom_eq t.blocks [] headerSize h.coalesced hChained.tiled, pure_bind]
  rw [if_neg (by simp), audit_lift (hChained.read_header hTail rfl), pure_bind,
    if_neg (by simp [hChained.next_tail.1]), audit_lift (hChained.read_header hHead rfl),
    pure_bind, if_neg (by simp [hChained.next_tail.2])]
  rfl

end Store.Represents

-- ---------------------------------------------------------------------------
-- Around the rings
-- ---------------------------------------------------------------------------

/-- What the audit checks of a ring's member besides its links. -/
def Region.Member (r : Region) (m : Memory) (k : SizeClass) (o : Nat) : Prop :=
  o + (headerSize + minPayload) ≤ r.size ∧ r.isFree m o = .ok true ∧
    ∃ size, r.chunkSize m o = .ok size ∧ k.range.1 ≤ size ∧ size ≤ k.range.2

/-- Only the tag of an aligned header can be read. -/
theorem Region.Member.aligned (h : r.Member m k o) : o % Word.alignment = 0 := by
  obtain ⟨mark, hMark, -⟩ := bind_eq_ok_iff.mp h.2.1
  obtain ⟨tag, hTag, -⟩ := bind_eq_ok_iff.mp hMark
  exact (Region.read_eq_ok_iff.mp hTag).1.aligned

theorem Region.Member.accessible {f : Field} (h : r.Member m k o)
    (hf : f.reach = headerSize + minPayload) : r.Accessible f o :=
  .of_aligned (hf ▸ h.1) h.aligned

/-- The equation of `Audit.ringFrom` while there is room for more members. -/
theorem Audit.ringFrom_add_one (head allowed o seen : Nat) :
    Audit.ringFrom r m k head (allowed + 1) o seen = (do
      let address ← Word.add r.base o
      let size ← r.chunkSize m o
      if !(← r.isFree m o) || size < k.range.1 || k.range.2 < size then
        throw (.corruption address .misplaced)
      let next ← r.read m o .ringNext
      if (← r.read m next .ringPrevious) ≠ o then
        throw (.corruption address .brokenLinks)
      if next = head then return seen + 1
        else Audit.ringFrom r m k head allowed next (seen + 1)) := rfl

/-- A member that passes leads the audit to the next one. -/
theorem Audit.ringFrom_succ {head x allowed seen : Nat} (ho : r.Member m k o)
    (hx : r.Member m k x)
    (hLink : Link (r.content m .ringNext) (r.content m .ringPrevious) o x) :
    Audit.ringFrom r m k head (allowed + 1) o seen =
      if x = head then pure (seen + 1) else Audit.ringFrom r m k head allowed x (seen + 1) := by
  have hAccess := ho.accessible (f := .ringNext) rfl
  obtain ⟨hRoom, hFree, size, hSize, hLow, hHigh⟩ := ho
  obtain ⟨hNext, hPrevious⟩ := hLink
  have hAddress : Word.add r.base o = .ok (r.base + o) := by
    have := r.stop_lt
    exact Word.add_eq_ok_iff.mpr ⟨rfl, by omega⟩
  have hReadNext : r.read m o .ringNext = .ok x := by
    rw [Region.read_eq_content hAccess, hNext]
  have hReadPrevious : r.read m x .ringPrevious = .ok o := by
    rw [Region.read_eq_content (hx.accessible rfl), hPrevious]
  have hFits : ¬((!true || decide (size < k.range.1) || decide (k.range.2 < size)) = true) := by
    simp [hLow, hHigh]
  rw [Audit.ringFrom_add_one, audit_lift hAddress, pure_bind, audit_lift hSize, pure_bind,
    audit_lift hFree, pure_bind, if_neg hFits, audit_lift hReadNext, pure_bind,
    audit_lift hReadPrevious, pure_bind, if_neg (not_not_intro rfl)]

/-- Around a ring, the audit counts the members. -/
theorem Audit.ringFrom_eq {head : Nat} (hHead : r.Member m k head) :
    ∀ (rest : List Nat) (o allowed seen : Nat), (o :: rest).length ≤ allowed →
      (o :: rest ++ [head]).IsChain (Link (r.content m .ringNext) (r.content m .ringPrevious)) →
      head ∉ rest → (∀ x ∈ o :: rest, r.Member m k x) →
      Audit.ringFrom r m k head allowed o seen = pure (seen + (o :: rest).length) := by
  intro rest
  induction rest with
  | nil =>
    intro o allowed seen hAllowed hChain _ hMember
    obtain ⟨allowed, rfl⟩ : ∃ n, allowed = n + 1 := ⟨allowed - 1, by simp at hAllowed; omega⟩
    rw [Audit.ringFrom_succ (hMember o (by simp)) hHead (List.isChain_pair.mp hChain), if_pos rfl]
    rfl
  | cons x rest ih =>
    intro o allowed seen hAllowed hChain hNotMem hMember
    obtain ⟨allowed, rfl⟩ : ∃ n, allowed = n + 1 := ⟨allowed - 1, by simp at hAllowed; omega⟩
    obtain ⟨hLink, hRest⟩ := List.isChain_cons_cons.mp hChain
    rw [List.mem_cons, not_or] at hNotMem
    rw [Audit.ringFrom_succ (hMember o (by simp)) (hMember x (by simp)) hLink,
      if_neg (Ne.symm hNotMem.1), ih x allowed (seen + 1) (by simpa using hAllowed) hRest hNotMem.2
        fun y hy => hMember y (List.mem_cons_of_mem _ hy)]
    rw [List.length_cons (a := o), Nat.add_assoc, Nat.add_comm 1]

namespace Store.Represents

/-- A region has room for a header of every free block. -/
theorem stacked_le (h : s.Represents r t) : stacked t.stack ≤ r.size / headerSize := by
  have hCount := h.holds.binned.stacked_eq h.holds.distinct
  have := List.length_filter_le (·.isFree) t.blocks
  have hLength := h.holds.tiled.length_le
  have := r.tail_add_headerSize
  unfold headerSize at *
  omega

/-- The members of a ring pass. -/
theorem member (h : s.Represents r t) (ho : o ∈ t.stack k) : r.Member s.memory k o := by
  obtain ⟨b, hb, hFree, rfl, hClass⟩ := h.holds.exists_free ho
  have hPayload := (h.holds.tiled.payload hb).1
  have hBounds := h.holds.tiled.bounds hb
  have := r.tail_add_headerSize
  have := r.size_lt_limit
  have := sizes_eq
  refine ⟨h.holds.placed.room ho, ?_, b.size, h.holds.chained.chunkSize_eq hb, ?_, ?_⟩
  · rw [h.holds.chained.isFree_eq hb, hFree]
  · rw [k.range_eq]
    exact SizeClass.two_pow_le_of_ofSize_eq (by omega) hClass
  · have hLt : b.size < 2 ^ (k.val + 1) := by
      refine SizeClass.lt_two_pow_of_ofSize_eq ?_ hClass
      unfold Block.stop at hBounds
      omega
    rw [k.range_eq]
    exact Nat.le_sub_one_of_lt hLt

/-- The audit counts the members of a ring. -/
theorem auditRing_eq (h : s.Represents r t) (k : SizeClass) :
    Audit.ring r s.memory s.heap.bins k = pure (t.stack k).length := by
  unfold Audit.ring
  rw [h.holds.filed.head k]
  cases hStack : t.stack k with
  | nil => rfl
  | cons o rest =>
    have hMember : ∀ x ∈ o :: rest, r.Member s.memory k x := fun x hx =>
      h.member (hStack ▸ hx)
    have hCircle := h.holds.filed.circle k
    have hNodup := h.holds.binned.nodup k
    have hLength := length_le_stacked t.stack k
    have := h.stacked_le
    rw [hStack] at hCircle hNodup hLength
    show Audit.ringFrom r s.memory k o (r.size / headerSize) o 0 = _
    rw [Audit.ringFrom_eq (hMember o (by simp)) rest o _ 0 (by omega) hCircle
      (List.nodup_cons.mp hNodup).1 hMember, Nat.zero_add]

/-- Counting classes one after the other. -/
theorem foldlM_auditRing (h : s.Represents r t) (classes : List SizeClass) : ∀ n : Nat,
    n + (classes.map fun k => (t.stack k).length).sum < Word.limit →
      classes.foldlM (fun total k => do
          Word.add total (← Audit.ring r s.memory s.heap.bins k)) n =
        (pure (n + (classes.map fun k => (t.stack k).length).sum) : Audit Nat) := by
  induction classes with
  | nil =>
    intro n _
    rfl
  | cons k rest ih =>
    intro n hLimit
    rw [List.map_cons, List.sum_cons] at hLimit ⊢
    have hAdd : Word.add n (t.stack k).length = .ok (n + (t.stack k).length) :=
      Word.add_eq_ok_iff.mpr ⟨rfl, by omega⟩
    rw [List.foldlM_cons, h.auditRing_eq k, pure_bind, audit_lift hAdd, pure_bind,
      ih _ (by omega), Nat.add_assoc]

/-- **Around the rings**, the audit finds as many chunks as there are free blocks. -/
theorem rings_eq (h : s.Represents r t) {tally : Tally}
    (hChunks : tally.freeChunks = (t.blocks.filter (·.isFree)).length) :
    Audit.rings r s.memory s.heap.bins tally = pure () := by
  have hSum : (SizeClass.all.map fun k => (t.stack k).length).sum = stacked t.stack :=
    (Fin.sum_univ_def _).symm
  have hCount := h.holds.binned.stacked_eq h.holds.distinct
  have hLimit : 0 + (SizeClass.all.map fun k => (t.stack k).length).sum < Word.limit := by
    have := List.length_filter_le (·.isFree) t.blocks
    have := h.holds.length_lt
    omega
  unfold Audit.rings
  rw [h.foldlM_auditRing SizeClass.all 0 hLimit, pure_bind, hSum, Nat.zero_add,
    h.holds.filed.count, hChunks, hCount, if_neg (by simp)]

end Store.Represents

-- ---------------------------------------------------------------------------
-- The totals
-- ---------------------------------------------------------------------------

namespace Store.Represents

/-- Payloads and headers add up to the region, and their sum is a word. -/
theorem sum_eq (h : s.Represents r t) : Word.sum [freeBytes t.blocks, usedBytes t.blocks,
    headerSize * t.blocks.length, 2 * headerSize] = .ok r.size := by
  have hTotal := h.holds.tiled.total
  have hTail := r.tail_add_headerSize
  refine Word.sum_eq_ok_iff.mpr ⟨?_, r.size_lt_limit⟩
  simp only [List.sum_cons, List.sum_nil]
  omega

/-- The counters agree with the tally, and nothing is missing. -/
theorem totals_eq (h : s.Represents r t) {tally : Tally}
    (hFree : tally.freeBytes = freeBytes t.blocks) (hUsed : tally.usedBytes = usedBytes t.blocks)
    (hMeta : tally.metaBytes = headerSize * t.blocks.length) :
    Audit.totals r s.heap.counters tally = pure () := by
  unfold Audit.totals
  rw [hFree, hUsed, hMeta, h.holds.freeBytes, h.holds.usedBytes, h.holds.metaBytes,
    if_neg (by simp), audit_lift h.sum_eq, pure_bind, if_neg (by simp)]

/-- **The audit finds no defect.** -/
theorem audit_eq (h : s.Represents r t) : s.audit = .ok (.ok ()) := by
  unfold Store.audit
  simp only [h.holds.region]
  rw [h.chain_eq, pure_bind, h.rings_eq rfl, pure_bind, h.totals_eq rfl rfl rfl]
  rfl

end Store.Represents

end RegionHeap
