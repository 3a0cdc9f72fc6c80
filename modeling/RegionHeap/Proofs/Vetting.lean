import RegionHeap.Proofs.Ascent
import RegionHeap.Proofs.Audit

/-!
# What a passed audit guarantees

The audit follows links that it read from memory. Whatever memory holds, when it finds no
defect the chain runs from the head to the tail, every header on it is stamped and in place, no
two neighbours are free, the rings are circles of free chunks of their classes, as many as the
chain has free chunks, and the counters are the sums over the chain.

It looks at links from one side only: a back link has to name some header that leads back, and
a ring's member some header that says it is free.

* `Tally.visit_eq`, `Audit.ringFrom_eq_bind`: an audit takes one step after the other.
* `Tally.of_visit`, `Audit.checkMember_inv`: what passing one step means.
* `Store.Vetted`: what passing the whole audit means.
* `Store.vetted_of_audit`: it does.
-/

namespace RegionHeap

variable {α β : Type} {r : Region} {m : Memory} {t t' : Tally} {a : ChunkInfo} {o : Nat}
variable {chain : List ChunkInfo} {k : SizeClass} {bins : Bins} {s : Store} {size : Nat}

-- ---------------------------------------------------------------------------
-- Passing a step
-- ---------------------------------------------------------------------------

theorem audit_bind_eq_pure {x : Audit α} {f : α → Audit β} {b : β} :
    x >>= f = pure b ↔ ∃ a, x = pure a ∧ f a = pure b := by
  match x with
  | .ok (.ok a) =>
    constructor
    · intro h
      exact ⟨a, rfl, h⟩
    · rintro ⟨a', hPure, h⟩
      obtain rfl : a = a' := Except.ok.inj (Except.ok.inj hPure)
      exact h
  | .ok (.error e) =>
    constructor
    · intro h
      cases Except.ok.inj h
    · rintro ⟨a', hPure, -⟩
      cases Except.ok.inj hPure
  | .error fault =>
    constructor
    · intro h
      cases h
    · rintro ⟨a', hPure, -⟩
      cases hPure

theorem audit_lift_eq_pure {x : Checked α} {a : α} : (liftM x : Audit α) = pure a ↔ x = .ok a := by
  constructor
  · intro h
    match x with
    | .ok b =>
      obtain rfl : b = a := Except.ok.inj (Except.ok.inj h)
      rfl
    | .error fault => cases h
  · exact audit_lift

theorem audit_pure_inj {a b : α} (h : (pure a : Audit α) = pure b) : a = b :=
  Except.ok.inj (Except.ok.inj h)

theorem audit_throw_ne {e : HeapError} {a : α} : (throw e : Audit α) ≠ pure a := by
  intro h
  cases Except.ok.inj h

theorem audit_throw_bind_ne {e : HeapError} {f : α → Audit β} {b : β} :
    (throw e >>= f : Audit β) ≠ pure b := by
  intro h
  obtain ⟨a, hThrow, -⟩ := audit_bind_eq_pure.mp h
  exact audit_throw_ne hThrow

/-- A check that is passed before the audit goes on. -/
theorem audit_check {c : Prop} [Decidable c] {e : HeapError} {f : α → Audit β} {x : Audit β}
    {b : β} (h : (if c then throw e >>= f else x) = pure b) : ¬c ∧ x = pure b := by
  split at h
  · exact absurd h audit_throw_bind_ne
  · exact ⟨‹_›, h⟩

-- ---------------------------------------------------------------------------
-- One chunk of the chain
-- ---------------------------------------------------------------------------

/-- The header is stamped, and unless it is the head, the header that it names as the one before
it names it as the one after. -/
structure Region.HeaderPasses (r : Region) (m : Memory) (o : Nat) : Prop where
  canary : r.read m o .canary = .ok (canaryOf o)
  returned : o ≠ 0 → ∃ p, r.read m o .previous = .ok p ∧ r.read m p .next = .ok o

/-- Boundaries are at the two ends and nowhere else. -/
def ChunkInfo.InPlace (r : Region) (a : ChunkInfo) : Prop :=
  if a.offset = 0 ∨ a.offset = r.tail then a.mark = some .sentinel
  else a.mark = some .used ∨ a.mark = some .free

namespace Tally

/-- Checks the header of a chunk. -/
def checkHeader (r : Region) (m : Memory) (offset : Nat) : Audit Unit := do
  if (← r.read m offset .canary) ≠ canaryOf offset then
    throw (.corruption (r.base + offset) .badCanary)
  if offset ≠ 0 then
    let previous ← r.read m offset .previous
    if (← r.read m previous .next) ≠ offset then
      throw (.corruption (r.base + offset) .brokenLinks)

/-- Adds a chunk to the tally, if its state fits its place. -/
def count (r : Region) (t : Tally) (chunk : ChunkInfo) : Audit Tally := do
  let t ←
    match chunk.mark, chunk.offset == 0 || chunk.offset == r.tail with
    | some .sentinel, true => pure t
    | some .used, false =>
      let usedBytes ← Word.add t.usedBytes chunk.size
      let metaBytes ← Word.add t.metaBytes headerSize
      pure { t with usedBytes := usedBytes, metaBytes := metaBytes }
    | some .free, false =>
      if t.lastFree then
        throw (.corruption (r.base + chunk.offset) .adjacentFree)
      let freeChunks ← Word.add t.freeChunks 1
      let freeBytes ← Word.add t.freeBytes chunk.size
      let metaBytes ← Word.add t.metaBytes headerSize
      pure { t with freeChunks := freeChunks, freeBytes := freeBytes, metaBytes := metaBytes }
    | _, _ => throw (.corruption (r.base + chunk.offset) .badState)
  return { t with lastFree := chunk.isFree, atTail := chunk.offset == r.tail }

/-- **Visiting a chunk** is checking its header and counting it. -/
theorem visit_eq : t.visit r m a = (do checkHeader r m a.offset; t.count r a) := by
  unfold visit checkHeader count
  simp only [bind_assoc]
  congr 1
  funext canary
  split
  · rfl
  · split
    · simp only [bind_assoc]
      congr 1
      funext previous
      congr 1
      funext next
      split
      · rfl
      · rfl
    · rfl

theorem headerPasses_of_check (h : checkHeader r m o = pure ()) : r.HeaderPasses m o := by
  unfold checkHeader at h
  obtain ⟨canary, hCanary, h⟩ := audit_bind_eq_pure.mp h
  obtain ⟨hStamped, h⟩ := audit_check h
  rw [audit_lift_eq_pure, not_not.mp hStamped] at hCanary
  refine ⟨hCanary, fun hOffset => ?_⟩
  rw [if_pos hOffset] at h
  obtain ⟨previous, hPrevious, h⟩ := audit_bind_eq_pure.mp h
  obtain ⟨next, hNext, h⟩ := audit_bind_eq_pure.mp h
  split at h
  · exact absurd h audit_throw_ne
  · rename_i hReturned
    rw [audit_lift_eq_pure, not_not.mp hReturned] at hNext
    exact ⟨previous, audit_lift_eq_pure.mp hPrevious, hNext⟩

/-- The tally with a chunk added. -/
def add (r : Region) (t : Tally) (a : ChunkInfo) : Tally where
  freeChunks := t.freeChunks + if a.isFree then 1 else 0
  freeBytes := t.freeBytes + if a.isFree then a.size else 0
  usedBytes := t.usedBytes + if a.mark = some .used then a.size else 0
  metaBytes := t.metaBytes + if a.mark = some .sentinel then 0 else headerSize
  lastFree := a.isFree
  atTail := a.offset == r.tail

/-- A chunk that is counted is in place, is not the second free one in a row, and is added. -/
theorem of_count (h : t.count r a = pure t') :
    a.InPlace r ∧ ¬(t.lastFree = true ∧ a.isFree = true) ∧ t' = t.add r a := by
  unfold count at h
  unfold ChunkInfo.InPlace
  by_cases hAt : a.offset = 0 ∨ a.offset = r.tail
  · rw [show (a.offset == 0 || a.offset == r.tail) = true by simpa using hAt] at h
    rw [if_pos hAt]
    match hMark : a.mark with
    | some .sentinel =>
      rw [hMark] at h
      obtain rfl := audit_pure_inj h
      unfold add ChunkInfo.isFree
      simp [hMark]
    | some .used | some .free | none =>
      rw [hMark] at h
      exact absurd h audit_throw_bind_ne
  · rw [show (a.offset == 0 || a.offset == r.tail) = false by simpa using hAt] at h
    rw [if_neg hAt]
    match hMark : a.mark with
    | some .used =>
      rw [hMark] at h
      obtain ⟨usedBytes, hUsed, h⟩ := audit_bind_eq_pure.mp h
      obtain ⟨rfl, -⟩ := Word.add_eq_ok_iff.mp (audit_lift_eq_pure.mp hUsed)
      obtain ⟨metaBytes, hMeta, h⟩ := audit_bind_eq_pure.mp h
      obtain ⟨rfl, -⟩ := Word.add_eq_ok_iff.mp (audit_lift_eq_pure.mp hMeta)
      obtain rfl := audit_pure_inj h
      unfold add ChunkInfo.isFree
      simp [hMark]
    | some .free =>
      rw [hMark] at h
      obtain ⟨hApart, h⟩ := audit_check h
      obtain ⟨freeChunks, hChunks, h⟩ := audit_bind_eq_pure.mp h
      obtain ⟨rfl, -⟩ := Word.add_eq_ok_iff.mp (audit_lift_eq_pure.mp hChunks)
      obtain ⟨freeBytes, hFree, h⟩ := audit_bind_eq_pure.mp h
      obtain ⟨rfl, -⟩ := Word.add_eq_ok_iff.mp (audit_lift_eq_pure.mp hFree)
      obtain ⟨metaBytes, hMeta, h⟩ := audit_bind_eq_pure.mp h
      obtain ⟨rfl, -⟩ := Word.add_eq_ok_iff.mp (audit_lift_eq_pure.mp hMeta)
      obtain rfl := audit_pure_inj h
      unfold add ChunkInfo.isFree
      simpa [hMark] using hApart
    | some .sentinel | none =>
      rw [hMark] at h
      exact absurd h audit_throw_bind_ne

/-- What a chunk has to satisfy beside its neighbours. -/
structure Passes (r : Region) (m : Memory) (a : ChunkInfo) : Prop where
  header : r.HeaderPasses m a.offset
  inPlace : a.InPlace r

theorem of_visit (h : t.visit r m a = pure t') :
    Passes r m a ∧ ¬(t.lastFree = true ∧ a.isFree = true) ∧ t' = t.add r a := by
  rw [visit_eq] at h
  obtain ⟨⟨⟩, hHeader, h⟩ := audit_bind_eq_pure.mp h
  obtain ⟨hInPlace, hApart, hTally⟩ := of_count h
  exact ⟨⟨headerPasses_of_check hHeader, hInPlace⟩, hApart, hTally⟩

end Tally

-- ---------------------------------------------------------------------------
-- The whole chain
-- ---------------------------------------------------------------------------

/-- No two neighbours are both free, and the first chunk is not if `lastFree` says that one
before it was. -/
def Separate (lastFree : Bool) (chain : List ChunkInfo) : Prop :=
  (∀ a ∈ chain.head?, ¬(lastFree = true ∧ a.isFree = true)) ∧
    chain.IsChain fun a b => ¬(a.isFree = true ∧ b.isFree = true)

/-- **An audit of the chain** that finds nothing has checked what a walk returns. -/
theorem Audit.chainFrom_inv : ∀ (t : Tally) (o : Nat) {t' : Tally},
    Audit.chainFrom r m t o = pure t' →
      ∃ chain, r.chunksFrom m o = .ok chain ∧ (∀ a ∈ chain, Tally.Passes r m a) ∧
        Separate t.lastFree chain ∧ t' = chain.foldl (Tally.add r) t := by
  intro t o
  induction t, o using Audit.chainFrom.induct (r := r) with
  | case1 t o ih =>
    intro t' h
    unfold Audit.chainFrom at h
    obtain ⟨a, hChunk, h⟩ := audit_bind_eq_pure.mp h
    obtain ⟨next, hVisit, h⟩ := audit_bind_eq_pure.mp h
    obtain ⟨successor, hSuccessor, h⟩ := audit_bind_eq_pure.mp h
    rw [audit_lift_eq_pure] at hChunk hSuccessor
    obtain ⟨hPasses, hApart, rfl⟩ := Tally.of_visit hVisit
    unfold Region.chunksFrom
    rw [hChunk, ok_bind, hSuccessor, ok_bind]
    match successor with
    | none =>
      obtain rfl := audit_pure_inj h
      refine ⟨[a], rfl, ?_, ⟨?_, List.isChain_singleton a⟩, rfl⟩
      · intro b hb
        obtain rfl := List.mem_singleton.mp hb
        exact hPasses
      · intro b hb
        obtain rfl : a = b := by simpa using hb
        exact hApart
    | some ⟨offset, hOffset⟩ =>
      obtain ⟨rest, hRest, hAll, ⟨hFirst, hSeparate⟩, rfl⟩ := ih (t.add r a) offset hOffset h
      refine ⟨a :: rest, ?_, ?_, ⟨?_, List.isChain_cons.mpr ⟨hFirst, hSeparate⟩⟩, rfl⟩
      · simp only
        rw [hRest]
        rfl
      · intro b hb
        rcases List.mem_cons.mp hb with rfl | hb
        · exact hPasses
        · exact hAll b hb
      · intro b hb
        obtain rfl : a = b := by simpa using hb
        exact hApart

/-- Counting chunks adds them up. -/
theorem Tally.foldl_add (chain : List ChunkInfo) : ∀ t : Tally,
    (chain.foldl (add r) t).freeChunks = t.freeChunks + (chain.filter (·.isFree)).length ∧
      (chain.foldl (add r) t).freeBytes =
        t.freeBytes + ((chain.filter (·.isFree)).map (·.size)).sum ∧
      (chain.foldl (add r) t).usedBytes =
        t.usedBytes + ((chain.filter (·.mark = some .used)).map (·.size)).sum ∧
      (chain.foldl (add r) t).metaBytes =
        t.metaBytes + headerSize * (chain.filter (·.mark ≠ some .sentinel)).length := by
  induction chain with
  | nil =>
    intro t
    simp
  | cons a rest ih =>
    intro t
    obtain ⟨hChunks, hFree, hUsed, hMeta⟩ := ih (t.add r a)
    rw [List.foldl_cons, hChunks, hFree, hUsed, hMeta]
    simp only [List.filter_cons, add]
    refine ⟨?_, ?_, ?_, ?_⟩
    · cases a.isFree with
      | true => simp [Nat.add_comm, Nat.add_left_comm]
      | false => simp
    · cases a.isFree with
      | true => simp [Nat.add_assoc]
      | false => simp
    · by_cases hMark : a.mark = some .used
      · simp [hMark, Nat.add_assoc]
      · simp [hMark]
    · by_cases hMark : a.mark = some .sentinel
      · simp [hMark]
      · simp [hMark, Nat.mul_add, Nat.add_assoc, Nat.add_comm, Nat.add_left_comm]

/-- After the last chunk, the tally says whether it was the tail. -/
theorem Tally.atTail_foldl_add (t : Tally) (chain : List ChunkInfo) (a : ChunkInfo) :
    ((chain ++ [a]).foldl (add r) t).atTail = (a.offset == r.tail) := by
  rw [List.foldl_concat]
  rfl

/-- What a passed audit of the chain guarantees of the chunks that a walk returns. -/
structure Region.ChainPasses (r : Region) (m : Memory) (chain : List ChunkInfo) : Prop where
  walk : r.chunksFrom m 0 = .ok chain
  passes : ∀ a ∈ chain, Tally.Passes r m a
  coalesced : chain.IsChain fun a b => ¬(a.isFree = true ∧ b.isFree = true)
  last : chain.getLast?.map (·.offset) = some r.tail
  closed : r.read m r.tail .next = .ok 0 ∧ r.read m 0 .previous = .ok r.tail

theorem Audit.chain_inv (h : Audit.chain r m = pure t) :
    ∃ chain, r.ChainPasses m chain ∧ t = chain.foldl (Tally.add r) .zero := by
  unfold Audit.chain at h
  obtain ⟨t', hFrom, h⟩ := audit_bind_eq_pure.mp h
  obtain ⟨hAtTail, h⟩ := audit_check h
  obtain ⟨next, hNext, h⟩ := audit_bind_eq_pure.mp h
  obtain ⟨hClosed, h⟩ := audit_check h
  obtain ⟨previous, hPrevious, h⟩ := audit_bind_eq_pure.mp h
  obtain ⟨hClosed', h⟩ := audit_check h
  rw [audit_lift_eq_pure, not_not.mp hClosed] at hNext
  rw [audit_lift_eq_pure, not_not.mp hClosed'] at hPrevious
  obtain rfl := audit_pure_inj h
  obtain ⟨chain, hWalk, hPasses, ⟨-, hSeparate⟩, rfl⟩ := Audit.chainFrom_inv _ _ hFrom
  refine ⟨chain, ⟨hWalk, hPasses, hSeparate, ?_, hNext, hPrevious⟩, rfl⟩
  rcases List.eq_nil_or_concat' chain with rfl | ⟨front, a, rfl⟩
  · simp [Tally.zero] at hAtTail
  · rw [Tally.atTail_foldl_add] at hAtTail
    rw [List.getLast?_concat]
    simpa using hAtTail

-- ---------------------------------------------------------------------------
-- The rings
-- ---------------------------------------------------------------------------

/-- Checks one member of a ring and leads to the next. -/
def Audit.checkMember (r : Region) (m : Memory) (k : SizeClass) (offset : Nat) : Audit Nat := do
  let address ← Word.add r.base offset
  let size ← r.chunkSize m offset
  if !(← r.isFree m offset) || size < k.range.1 || k.range.2 < size then
    throw (.corruption address .misplaced)
  let next ← r.read m offset .ringNext
  if (← r.read m next .ringPrevious) ≠ offset then
    throw (.corruption address .brokenLinks)
  return next

/-- The checks of a member, whatever is done with its address and the next member. -/
theorem Audit.checkMember_bind (f : Nat → Nat → Audit β) :
    (do
      let address ← Word.add r.base o
      let size ← r.chunkSize m o
      if !(← r.isFree m o) || size < k.range.1 || k.range.2 < size then
        throw (.corruption address .misplaced)
      let next ← r.read m o .ringNext
      if (← r.read m next .ringPrevious) ≠ o then
        throw (.corruption address .brokenLinks)
      f address next) = (do f (r.base + o) (← Audit.checkMember r m k o)) := by
  unfold checkMember
  by_cases hAddress : r.base + o < Word.limit
  · rw [audit_lift (Word.add_eq_ok_iff.mpr ⟨rfl, hAddress⟩)]
    simp only [pure_bind, bind_assoc]
    congr 1
    funext size
    congr 1
    funext isFree
    split
    · rfl
    · simp only [bind_assoc]
      congr 1
      funext next
      congr 1
      funext previous
      split
      · rfl
      · rfl
  · have hRunsOver : Word.add r.base o = .error .overflow := if_neg hAddress
    rw [hRunsOver]
    rfl

/-- The equation of `Audit.ringFrom` when there is no room for more members. -/
theorem Audit.ringFrom_zero (head o seen : Nat) :
    Audit.ringFrom r m k head 0 o seen = (do
      let address ← Word.add r.base o
      let size ← r.chunkSize m o
      if !(← r.isFree m o) || size < k.range.1 || k.range.2 < size then
        throw (.corruption address .misplaced)
      let next ← r.read m o .ringNext
      if (← r.read m next .ringPrevious) ≠ o then
        throw (.corruption address .brokenLinks)
      throw (.corruption address .brokenLinks)) := rfl

/-- **Going around a ring** is checking a member, and going on from the next one. -/
theorem Audit.ringFrom_eq_bind (head allowed o seen : Nat) :
    Audit.ringFrom r m k head allowed o seen = (do
      let next ← Audit.checkMember r m k o
      match allowed with
      | 0 => throw (.corruption (r.base + o) .brokenLinks)
      | allowed + 1 =>
        if next = head then return seen + 1
        else Audit.ringFrom r m k head allowed next (seen + 1)) := by
  cases allowed with
  | zero =>
    have hBind := Audit.checkMember_bind (r := r) (m := m) (k := k) (o := o)
      fun address _ => (throw (.corruption address .brokenLinks) : Audit Nat)
    rw [Audit.ringFrom_zero, hBind]
  | succ allowed =>
    have hBind := Audit.checkMember_bind (r := r) (m := m) (k := k) (o := o) fun _ next =>
      (if next = head then pure (seen + 1)
        else Audit.ringFrom r m k head allowed next (seen + 1) : Audit Nat)
    rw [Audit.ringFrom_add_one, hBind]

/-- A member that passes is linked with the next both ways. -/
theorem Audit.checkMember_inv {next : Nat} (h : Audit.checkMember r m k o = pure next) :
    r.Member m k o ∧ Link (r.content m .ringNext) (r.content m .ringPrevious) o next ∧
      r.Accessible .ringPrevious next := by
  unfold checkMember at h
  obtain ⟨address, -, h⟩ := audit_bind_eq_pure.mp h
  obtain ⟨size, hSize, h⟩ := audit_bind_eq_pure.mp h
  obtain ⟨isFree, hFree, h⟩ := audit_bind_eq_pure.mp h
  obtain ⟨hFits, h⟩ := audit_check h
  obtain ⟨next', hNext, h⟩ := audit_bind_eq_pure.mp h
  obtain ⟨previous, hPrevious, h⟩ := audit_bind_eq_pure.mp h
  obtain ⟨hLinked, h⟩ := audit_check h
  obtain rfl := audit_pure_inj h
  rw [audit_lift_eq_pure] at hSize hFree hNext
  rw [audit_lift_eq_pure, not_not.mp hLinked] at hPrevious
  simp only [Bool.or_eq_true, Bool.not_eq_true', decide_eq_true_eq, not_or, not_lt,
    Bool.not_eq_false] at hFits
  obtain ⟨⟨hIsFree, hLow⟩, hHigh⟩ := hFits
  rw [hIsFree] at hFree
  obtain ⟨hAccess, hNext⟩ := Region.read_eq_ok_iff.mp hNext
  obtain ⟨hAccess', hPrevious⟩ := Region.read_eq_ok_iff.mp hPrevious
  exact ⟨⟨hAccess.reach, hFree, size, hSize, hLow, hHigh⟩, ⟨hNext, hPrevious⟩, hAccess'⟩

/-- **An audit of a ring** that finds nothing has gone around a list of members. -/
theorem Audit.ringFrom_inv {head n : Nat} : ∀ (allowed o seen : Nat),
    Audit.ringFrom r m k head allowed o seen = pure n →
      ∃ rest, n = seen + (o :: rest).length ∧ (o :: rest).length ≤ allowed ∧
        (o :: rest ++ [head]).IsChain (Link (r.content m .ringNext) (r.content m .ringPrevious)) ∧
        head ∉ rest ∧ ∀ x ∈ o :: rest, r.Member m k x := by
  intro allowed
  induction allowed with
  | zero =>
    intro o seen h
    rw [Audit.ringFrom_eq_bind] at h
    obtain ⟨next, -, h⟩ := audit_bind_eq_pure.mp h
    exact absurd h audit_throw_ne
  | succ allowed ih =>
    intro o seen h
    rw [Audit.ringFrom_eq_bind] at h
    obtain ⟨next, hChecked, h⟩ := audit_bind_eq_pure.mp h
    obtain ⟨hMember, hLink, -⟩ := Audit.checkMember_inv hChecked
    by_cases hHead : next = head
    · obtain rfl := audit_pure_inj ((if_pos hHead).symm.trans h)
      rw [hHead] at hLink
      refine ⟨[], rfl, by simp, List.isChain_pair.mpr hLink, List.not_mem_nil, fun x hx => ?_⟩
      obtain rfl := List.mem_singleton.mp hx
      exact hMember
    · obtain ⟨rest, rfl, hLength, hChain, hFirst, hMembers⟩ :=
        ih next (seen + 1) ((if_neg hHead).symm.trans h)
      refine ⟨next :: rest, ?_, ?_, List.isChain_cons_cons.mpr ⟨hLink, hChain⟩, ?_, ?_⟩
      · simp only [List.length_cons]
        omega
      · simp only [List.length_cons] at hLength ⊢
        omega
      · rw [List.mem_cons, not_or]
        exact ⟨Ne.symm hHead, hFirst⟩
      · intro x hx
        rcases List.mem_cons.mp hx with rfl | hx
        · exact hMember
        · exact hMembers x hx

/-- The members of a ring, newest first; none if they cannot be read. -/
def Bins.members (bins : Bins) (r : Region) (m : Memory) (k : SizeClass) : List Nat :=
  match bins.ring r m k with
  | .ok ring => ring
  | .error _ => []

/-- What a passed audit of a ring guarantees: it can be read, no member occurs twice, and every
member is free and of the ring's class. -/
structure Bins.RingPasses (bins : Bins) (r : Region) (m : Memory) (k : SizeClass) : Prop where
  walk : bins.ring r m k = .ok (bins.members r m k)
  nodup : (bins.members r m k).Nodup
  member : ∀ o ∈ bins.members r m k, r.Member m k o

theorem Bins.members_eq {ring : List Nat} (h : bins.ring r m k = .ok ring) :
    bins.members r m k = ring := by
  unfold Bins.members
  rw [h]

/-- A ring that was audited passes, and was counted. -/
theorem Audit.ring_inv {n : Nat} (h : Audit.ring r m bins k = pure n) :
    bins.RingPasses r m k ∧ n = (bins.members r m k).length := by
  unfold Audit.ring at h
  cases hHead : bins.head k with
  | none =>
    have hRing : bins.ring r m k = .ok [] := by
      unfold Bins.ring
      rw [hHead]
      rfl
    rw [hHead] at h
    obtain rfl := audit_pure_inj h
    rw [Bins.members_eq hRing]
    refine ⟨⟨?_, ?_, ?_⟩, rfl⟩ <;> rw [Bins.members_eq hRing]
    · exact hRing
    · exact List.nodup_nil
    · simp
  | some head =>
    rw [hHead] at h
    obtain ⟨rest, rfl, hLength, hChain, hFirst, hMember⟩ := Audit.ringFrom_inv _ _ _ h
    have hSteps : (head :: rest).length ≤ r.size := hLength.trans (Nat.div_le_self _ _)
    have hRing : bins.ring r m k = .ok (head :: rest) := by
      unfold Bins.ring Region.overRing
      rw [hHead]
      refine (Region.overRingWithin_eq rest head r.size hSteps hChain hFirst
        (fun x hx => (hMember x hx).accessible rfl) fun _ _ => rfl).trans ?_
      rw [List.map_id']
    refine ⟨⟨?_, ?_, ?_⟩, ?_⟩ <;> rw [Bins.members_eq hRing]
    · exact hRing
    · exact Circle.nodup hChain hFirst
    · exact hMember
    · rw [Nat.zero_add]

/-- The members of all rings, class by class. -/
def Bins.allMembers (bins : Bins) (r : Region) (m : Memory) : List Nat :=
  SizeClass.all.flatMap (bins.members r m)

/-- The sizes between the bounds of a class are of that class. -/
theorem SizeClass.ofSize_eq_of_range (hLow : k.range.1 ≤ size) (hHigh : size ≤ k.range.2) :
    ofSize size = k := by
  rw [k.range_eq] at hLow hHigh
  have hLow : 2 ^ k.val ≤ size := hLow
  have hHigh : size ≤ 2 ^ (k.val + 1) - 1 := hHigh
  have hPos := Nat.two_pow_pos k.val
  have hLog : size.log2 = k.val := by
    rw [Nat.log2_eq_iff (by omega)]
    exact ⟨hLow, by omega⟩
  refine Fin.ext ?_
  show min size.log2 63 = k.val
  omega

/-- The size of a ring's member decides which ring it is in. -/
theorem Region.Member.class_eq {m : Memory} (h : r.Member m k o)
    (hSize : r.chunkSize m o = .ok size) : SizeClass.ofSize size = k := by
  obtain ⟨-, -, size', hSize', hLow, hHigh⟩ := h
  obtain rfl := Except.ok.inj (hSize.symm.trans hSize')
  exact SizeClass.ofSize_eq_of_range hLow hHigh

/-- No chunk is in two rings that pass, or twice in one. -/
theorem Bins.nodup_flatMap_members {classes : List SizeClass} (hClasses : classes.Nodup)
    (h : ∀ k ∈ classes, bins.RingPasses r m k) : (classes.flatMap (bins.members r m)).Nodup := by
  refine List.nodup_flatMap.mpr ⟨fun k hk => (h k hk).nodup, ?_⟩
  refine hClasses.imp_of_mem fun {j k} hj hk hne => ?_
  intro o hoj hok
  obtain ⟨-, -, size, hSize, -, -⟩ := (h j hj).member o hoj
  have hClass := ((h j hj).member o hoj).class_eq hSize
  rw [((h k hk).member o hok).class_eq hSize] at hClass
  exact hne hClass.symm

/-- Counting the members of rings one after the other. -/
theorem Audit.foldlM_ring_inv (classes : List SizeClass) : ∀ {n n' : Nat},
    classes.foldlM (fun total k => do Word.add total (← Audit.ring r m bins k)) n =
      (pure n' : Audit Nat) →
    (∀ k ∈ classes, bins.RingPasses r m k) ∧
      n' = n + (classes.flatMap (bins.members r m)).length := by
  induction classes with
  | nil =>
    intro n n' h
    exact ⟨by simp, (audit_pure_inj h).symm⟩
  | cons k rest ih =>
    intro n n' h
    rw [List.foldlM_cons] at h
    obtain ⟨total, hTotal, hRest⟩ := audit_bind_eq_pure.mp h
    obtain ⟨count, hRing, hAdd⟩ := audit_bind_eq_pure.mp hTotal
    obtain ⟨hPasses, hCount⟩ := Audit.ring_inv hRing
    obtain ⟨hSum, -⟩ := Word.add_eq_ok_iff.mp (audit_lift_eq_pure.mp hAdd)
    obtain ⟨hAll, hLength⟩ := ih hRest
    refine ⟨fun j hj => ?_, ?_⟩
    · rcases List.mem_cons.mp hj with rfl | hj
      · exact hPasses
      · exact hAll j hj
    · rw [List.flatMap_cons, List.length_append]
      omega

theorem Audit.rings_inv (h : Audit.rings r m bins t = pure ()) :
    (∀ k, bins.RingPasses r m k) ∧ (bins.allMembers r m).length = t.freeChunks ∧
      bins.count = t.freeChunks := by
  unfold Audit.rings at h
  obtain ⟨binned, hBinned, h⟩ := audit_bind_eq_pure.mp h
  obtain ⟨hAll, hLength⟩ := Audit.foldlM_ring_inv SizeClass.all hBinned
  split at h
  · exact absurd h audit_throw_ne
  · rename_i hSame
    rw [not_or, not_not, not_not] at hSame
    rw [Nat.zero_add] at hLength
    exact ⟨fun k => hAll k (List.mem_finRange k), hLength.symm.trans hSame.1,
      hSame.2.trans hSame.1⟩

-- ---------------------------------------------------------------------------
-- The totals
-- ---------------------------------------------------------------------------

theorem Audit.totals_inv {counters : Counters} (h : Audit.totals r counters t = pure ()) :
    counters.freeBytes = t.freeBytes ∧ counters.usedBytes = t.usedBytes ∧
      counters.metaBytes = t.metaBytes ∧
      t.freeBytes + t.usedBytes + t.metaBytes + 2 * headerSize = r.size := by
  unfold Audit.totals at h
  obtain ⟨hSame, h⟩ := audit_check h
  obtain ⟨total, hTotal, h⟩ := audit_bind_eq_pure.mp h
  rw [not_or, not_or, not_not, not_not, not_not] at hSame
  refine ⟨hSame.1, hSame.2.1, hSame.2.2, ?_⟩
  split at h
  · exact absurd h audit_throw_ne
  · rename_i hSize
    rw [audit_lift_eq_pure, not_not.mp hSize] at hTotal
    obtain ⟨hSum, -⟩ := Word.sum_eq_ok_iff.mp hTotal
    simp only [List.sum_cons, List.sum_nil] at hSum
    omega

-- ---------------------------------------------------------------------------
-- The whole audit
-- ---------------------------------------------------------------------------

/-- What a passed audit guarantees of a heap whose chain is `chain`. -/
structure Store.Vetted (s : Store) (r : Region) (chain : List ChunkInfo) : Prop where
  walk : s.chunks = .ok chain
  ascends : chain.IsChain (r.Ascends s.memory)
  aligned : ∀ a ∈ chain, a.offset % Word.alignment = 0
  ends : chain.head?.map (·.offset) = some 0 ∧ chain.getLast?.map (·.offset) = some r.tail
  chunk : ∀ a ∈ chain, r.chunkAt s.memory a.offset = .ok a
  /-- Every header is stamped, and the one that it names as the one before it leads back. -/
  header : ∀ a ∈ chain, r.HeaderPasses s.memory a.offset
  closed : r.read s.memory r.tail .next = .ok 0 ∧ r.read s.memory 0 .previous = .ok r.tail
  inPlace : ∀ a ∈ chain, a.InPlace r
  coalesced : chain.IsChain fun a b => ¬(a.isFree = true ∧ b.isFree = true)
  /-- Rings have free members of their class, and as many as the chain has free chunks. -/
  rings : ∀ k, s.heap.bins.RingPasses r s.memory k
  members : (s.heap.bins.allMembers r s.memory).length = (chain.filter (·.isFree)).length
  count : s.heap.bins.count = (chain.filter (·.isFree)).length
  freeBytes : s.heap.counters.freeBytes = ((chain.filter (·.isFree)).map (·.size)).sum
  usedBytes : s.heap.counters.usedBytes =
    ((chain.filter (·.mark = some .used)).map (·.size)).sum
  metaBytes : s.heap.counters.metaBytes =
    headerSize * (chain.filter (·.mark ≠ some .sentinel)).length
  balanced : s.heap.counters.freeBytes + s.heap.counters.usedBytes +
    s.heap.counters.metaBytes + 2 * headerSize = r.size

/-- **A heap that passes the audit is vetted**, whatever is in its memory and its counters. -/
theorem Store.vetted_of_audit (hRegion : s.heap.region = some r)
    (hAudit : s.audit = .ok (.ok ())) : ∃ chain, s.Vetted r chain := by
  unfold Store.audit at hAudit
  simp only [hRegion] at hAudit
  obtain ⟨t, hChain, hAudit⟩ := audit_bind_eq_pure.mp hAudit
  obtain ⟨⟨⟩, hRings, hTotals⟩ := audit_bind_eq_pure.mp hAudit
  obtain ⟨chain, hPasses, hTally⟩ := Audit.chain_inv hChain
  obtain ⟨hRing, hMembers, hCount⟩ := Audit.rings_inv hRings
  obtain ⟨hFreeBytes, hUsedBytes, hMetaBytes, hBalanced⟩ := Audit.totals_inv hTotals
  obtain ⟨hChunks, hFree, hUsed, hMeta⟩ := Tally.foldl_add (r := r) chain .zero
  rw [← hTally] at hChunks hFree hUsed hMeta
  simp only [Tally.zero, Nat.zero_add] at hChunks hFree hUsed hMeta
  have hWalk : s.chunks = .ok chain := by
    unfold Store.chunks
    simp only [hRegion]
    exact hPasses.walk
  obtain ⟨hHead, hAscends, hBounds⟩ := Store.chunks_spec hRegion hWalk
  exact ⟨chain,
    { walk := hWalk
      ascends := hAscends
      aligned := fun b hb => (hBounds b hb).2
      ends := ⟨hHead, hPasses.last⟩
      chunk := (Region.chunksFrom_spec 0 hPasses.walk).2.1
      header := fun b hb => (hPasses.passes b hb).header
      closed := hPasses.closed
      inPlace := fun b hb => (hPasses.passes b hb).inPlace
      coalesced := hPasses.coalesced
      rings := hRing
      members := hMembers.trans hChunks
      count := hCount.trans hChunks
      freeBytes := hFreeBytes.trans hFree
      usedBytes := hUsedBytes.trans hUsed
      metaBytes := hMetaBytes.trans hMeta
      balanced := by rw [hFreeBytes, hUsedBytes, hMetaBytes, hBalanced] }⟩

end RegionHeap
