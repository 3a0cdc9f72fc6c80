import RegionHeap.Proofs.Occupancy
import RegionHeap.Proofs.Rings
import RegionHeap.Proofs.Setup

/-!
# Bins as lists

A bin is a list of chunks, the newest first, and that is all there is to know about it. This needs
no heap around the bins: the chunks may lie anywhere in a region, as long as they do not overlap
and the chain gives each of them a size of its class.

* `Region.Classed`: where the chunks of the lists are, and what sizes they have.
* `Bins.Lists`: bins and memory represent lists of chunks, as they are read from the heads on.
* `Lists.filed`, `Lists.of_filed`: lists that are read are the stacks that the rings hold.
* `Lists.push`, `Lists.remove`, `Lists.pop`: each operation changes one list, and no byte but ring
  links.
* `Lists.largest`: the largest chunk of all is in the ring of the last occupied class.
* `bins_are_lists`: all operations.
-/

namespace RegionHeap

open Region

variable {r : Region} {m m' : Memory} {bins : Bins} {lists lists' : SizeClass → List Nat}
variable {S : Nat → Prop} {j k : SizeClass} {o y size : Nat}

theorem foldl_max_le_iff {l : List Nat} {start n : Nat} :
    l.foldl max start ≤ n ↔ start ≤ n ∧ ∀ x ∈ l, x ≤ n := by
  induction l generalizing start with
  | nil => simp
  | cons x rest ih => simp [ih, and_assoc]

theorem le_foldl_max {l : List Nat} {x : Nat} (hx : x ∈ l) : x ≤ l.foldl max 0 :=
  (foldl_max_le_iff.mp (Nat.le_refl _)).2 x hx

-- ---------------------------------------------------------------------------
-- Chunks and their classes
-- ---------------------------------------------------------------------------

namespace Region

/-- The headers and ring links of the chunks at `o` and `y` have no byte in common. -/
def Separate (o y : Nat) : Prop :=
  o + (headerSize + minPayload) ≤ y ∨ y + (headerSize + minPayload) ≤ o

/-- The lists name chunks inside the region that do not overlap, each once, on the list of the
class of its size. -/
structure Classed (r : Region) (m : Memory) (lists : SizeClass → List Nat) : Prop where
  nodup : ∀ k, (lists k).Nodup
  room : ∀ k, ∀ o ∈ lists k, o + (headerSize + minPayload) ≤ r.size
  apart : ∀ j k, ∀ o ∈ lists j, ∀ y ∈ lists k, o = y ∨ Separate o y
  sized : ∀ k, ∀ o ∈ lists k, ∃ size, r.chunkSize m o = .ok size ∧ SizeClass.ofSize size = k

/-- The size of the chunk at `o`, or zero if none can be there. -/
def sizeAt (r : Region) (m : Memory) (o : Nat) : Nat := (r.chunkSize m o).toOption.getD 0

/-- The sizes of the chunks on all lists. -/
def sizesOn (r : Region) (m : Memory) (lists : SizeClass → List Nat) : Set Nat :=
  {size | ∃ k, ∃ o ∈ lists k, r.chunkSize m o = .ok size}

/-- No byte is different but for the ring links of `members`. -/
def SameButLinks (r : Region) (members : List Nat) (m m' : Memory) : Prop :=
  ∀ x, (∀ o ∈ members, x < r.payload o ∨ r.payload o + minPayload ≤ x) → m'.byte x = m.byte x

theorem chunkSize_lt (h : r.chunkSize m o = .ok size) : size < Word.limit := by
  obtain ⟨next, hNext, hSize⟩ := bind_eq_ok_iff.mp h
  have hWord : next < Word.limit := by
    rw [← (read_eq_ok_iff.mp hNext).2]
    exact Memory.load_lt m _ 8
  split at hSize
  · obtain rfl := Except.ok.inj hSize
    decide
  · obtain ⟨-, rfl⟩ := Word.sub_eq_ok_iff.mp hSize
    omega

theorem chunkSize_aligned (h : r.chunkSize m o = .ok size) : o % Word.alignment = 0 := by
  obtain ⟨next, hNext, -⟩ := bind_eq_ok_iff.mp h
  exact (read_eq_ok_iff.mp hNext).1.aligned

theorem separate_ne (h : Separate o y) : o ≠ y := by
  have := sizes_eq
  unfold Separate at h
  omega

namespace Classed

/-- The size of a chunk determines its class. -/
theorem class_eq (h : r.Classed m lists) (hj : o ∈ lists j) (hk : o ∈ lists k) : j = k := by
  obtain ⟨size, hSize, rfl⟩ := h.sized j o hj
  obtain ⟨size', hSize', rfl⟩ := h.sized k o hk
  rw [Except.ok.inj (hSize.symm.trans hSize')]

theorem sizeAt_spec (h : r.Classed m lists) (ho : o ∈ lists k) :
    r.chunkSize m o = .ok (r.sizeAt m o) ∧ SizeClass.ofSize (r.sizeAt m o) = k := by
  obtain ⟨size, hSize, hClass⟩ := h.sized k o ho
  have hAt : r.sizeAt m o = size := by
    rw [sizeAt, hSize]
    rfl
  exact hAt ▸ ⟨hSize, hClass⟩

/-- Only a chunk at an aligned offset has a size. -/
theorem aligned (h : r.Classed m lists) (ho : o ∈ lists k) : o % Word.alignment = 0 := by
  obtain ⟨size, hSize, -⟩ := h.sized k o ho
  exact chunkSize_aligned hSize

theorem placed (h : r.Classed m lists) : r.Placed lists where
  nodup := h.nodup
  class_eq := h.class_eq
  room ho := h.room _ _ ho
  aligned ho := h.aligned ho
  apart ho hy := h.apart _ _ _ ho _ hy

/-- There are fewer chunks than bytes, so they can be counted. -/
theorem stacked_lt (h : r.Classed m lists) : stacked lists + 1 < Word.limit := by
  have hAll : (SizeClass.all.flatMap lists).Nodup := by
    refine List.nodup_flatMap.mpr ⟨fun k _ => h.nodup k, ?_⟩
    refine (List.nodup_finRange 64).imp_of_mem fun {j k} _ _ hne => ?_
    intro o hj hk
    exact hne (h.class_eq hj hk)
  have hLength : (SizeClass.all.flatMap lists).length = stacked lists := by
    rw [List.length_flatMap, stacked, Fin.sum_univ_def]
    rfl
  have hLe : (SizeClass.all.flatMap lists).length ≤ r.size - 47 := by
    refine length_le_of_nodup_of_lt hAll fun o ho => ?_
    obtain ⟨k, -, hk⟩ := List.mem_flatMap.mp ho
    have := h.room k o hk
    have := sizes_eq
    omega
  have := r.stop_lt
  have := r.minRegionSize_le
  have := sizes_eq
  omega

/-- Chunks may be left out. -/
theorem sublist (h : r.Classed m lists) (hSub : ∀ k, (lists' k).Sublist (lists k)) :
    r.Classed m lists' where
  nodup k := (h.nodup k).sublist (hSub k)
  room k o ho := h.room k o ((hSub k).subset ho)
  apart j k o ho y hy := h.apart j k o ((hSub j).subset ho) y ((hSub k).subset hy)
  sized k o ho := h.sized k o ((hSub k).subset ho)

theorem erase (h : r.Classed m lists) (k : SizeClass) (o : Nat) :
    r.Classed m (restack lists k (·.erase o)) := by
  refine h.sublist fun j => ?_
  unfold restack
  split
  · exact List.erase_sublist
  · exact List.Sublist.refl _

/-- A chunk that overlaps none of the others can be put on the list of its class. -/
theorem cons (h : r.Classed m lists) (hRoom : o + (headerSize + minPayload) ≤ r.size)
    (hNew : ∀ k, ∀ y ∈ lists k, Separate o y) (hSize : r.chunkSize m o = .ok size) :
    r.Classed m (restack lists (SizeClass.ofSize size) (o :: ·)) := by
  have hMem : ∀ k y, y ∈ restack lists (SizeClass.ofSize size) (o :: ·) k →
      (y = o ∧ SizeClass.ofSize size = k) ∨ y ∈ lists k := by
    intro k y hy
    rw [restack] at hy
    split at hy
    · next hk => exact (List.mem_cons.mp hy).imp (⟨·, hk.symm⟩) id
    · exact Or.inr hy
  constructor
  · intro k
    rw [restack]
    split
    · exact List.nodup_cons.mpr ⟨fun ho => separate_ne (hNew k o ho) rfl, h.nodup k⟩
    · exact h.nodup k
  · intro k y hy
    rcases hMem k y hy with ⟨rfl, -⟩ | hOld
    · exact hRoom
    · exact h.room k y hOld
  · intro i k x hx y hy
    rcases hMem i x hx with ⟨hxo, -⟩ | hxOld
    · rcases hMem k y hy with ⟨hyo, -⟩ | hyOld
      · exact Or.inl (hxo.trans hyo.symm)
      · exact Or.inr (hxo ▸ hNew k y hyOld)
    · rcases hMem k y hy with ⟨hyo, -⟩ | hyOld
      · exact Or.inr (hyo ▸ (hNew i x hxOld).symm)
      · exact h.apart i k x hxOld y hyOld
  · intro k y hy
    rcases hMem k y hy with ⟨rfl, hk⟩ | hOld
    · exact ⟨size, hSize, hk⟩
    · exact h.sized k y hOld

/-- Writing ring links changes no size. -/
theorem of_edits (h : r.Classed m lists) (hEdits : r.Edits (RingEdit S) m m')
    (hS : ∀ x, S x → ∃ k, x ∈ lists k) : r.Classed m' lists := by
  have hSame : ∀ k, ∀ o ∈ lists k, r.chunkSize m' o = r.chunkSize m o := by
    intro k o ho
    have hNext : r.content m' .next o = r.content m .next o := by
      refine hEdits.content_eq fun x f v hx => ⟨?_, ?_⟩
      · obtain ⟨i, hi⟩ := hS x hx.1
        have hClear := h.apart i k x hi o ho
        have hReach : Field.next.reach ≤ headerSize + minPayload := Field.reach_le .next
        unfold Separate at hClear
        unfold Clear
        rw [hx.2.1]
        omega
      · rintro ⟨-, rfl⟩
        exact absurd hx.2.1 (by decide)
    have hAccess : r.Accessible .next o := by
      have := h.room k o ho
      have := Field.reach_le .next
      exact .of_aligned (by omega) (h.aligned ho)
    unfold chunkSize
    rw [read_eq_content hAccess, read_eq_content hAccess, hNext]
  exact
    { nodup := h.nodup
      room := h.room
      apart := h.apart
      sized := fun k o ho => by
        obtain ⟨size, hSize, hClass⟩ := h.sized k o ho
        exact ⟨size, (hSame k o ho).trans hSize, hClass⟩ }

end Classed

/-- Writing ring links changes no byte but ring links. -/
theorem Edits.sameButLinks {members : List Nat} (h : r.Edits (RingEdit S) m m')
    (hS : ∀ x, S x → x ∈ members) : r.SameButLinks members m m' := by
  intro x hx
  refine h.byte_eq fun o f v hEdit _ => ?_
  have hApart := hx o (hS o hEdit.1)
  have hReach := hEdit.2.1
  unfold payload headerSize minPayload at *
  cases f with
  | ringPrevious | ringNext =>
    unfold Field.position Field.width
    simp only
    omega
  | previous | next | tag | canary => exact absurd hReach (by decide)

end Region

-- ---------------------------------------------------------------------------
-- Lists that are read
-- ---------------------------------------------------------------------------

/-- Bins and memory represent lists of chunks. Read from the head of a class until the links lead
back there, the ring is the list, and the links the other way are the inverse. One bit for each
class says whether its list has a chunk, and all chunks are counted. -/
structure Bins.Lists (bins : Bins) (r : Region) (m : Memory) (lists : SizeClass → List Nat) :
    Prop where
  classed : r.Classed m lists
  ring : ∀ k, bins.ring r m k = .ok (lists k)
  back : ∀ k, ∀ o ∈ lists k, ∃ next,
    r.read m o .ringNext = .ok next ∧ r.read m next .ringPrevious = .ok o
  occupied : ∀ k : SizeClass, bins.occupied.getLsbD k = !(lists k).isEmpty
  count : bins.count = stacked lists

/-- Once around a ring that can be read, from `o` on, the links lead from one member to the next
and at last to the head. -/
theorem Region.overRingWithin_inv {head : Nat} : ∀ {steps o : Nat} {members : List Nat},
    r.overRingWithin m head pure steps o = .ok members →
    (∀ x ∈ members, ∃ next, r.read m x .ringNext = .ok next ∧
      r.read m next .ringPrevious = .ok x) →
    ∃ rest, members = o :: rest ∧
      (o :: rest ++ [head]).IsChain (Link (r.content m .ringNext) (r.content m .ringPrevious)) := by
  intro steps
  induction steps with
  | zero =>
    intro o members h
    exact absurd h (by simp [overRingWithin, throw, throwThe, MonadExceptOf.throw])
  | succ steps ih =>
    intro o members h hBack
    rw [overRingWithin, pure_eq_ok, ok_bind] at h
    obtain ⟨next, hNext, h⟩ := bind_eq_ok_iff.mp h
    have hLink : (∃ after, r.read m o .ringNext = .ok after ∧
        r.read m after .ringPrevious = .ok o) →
        Link (r.content m .ringNext) (r.content m .ringPrevious) o next := by
      rintro ⟨after, hAfter, hPrevious⟩
      obtain rfl := Except.ok.inj (hNext.symm.trans hAfter)
      exact ⟨(read_eq_ok_iff.mp hNext).2, (read_eq_ok_iff.mp hPrevious).2⟩
    split at h
    · next hHead =>
      obtain rfl := Except.ok.inj h
      subst hHead
      exact ⟨[], rfl, List.isChain_pair.mpr (hLink (hBack o List.mem_cons_self))⟩
    · obtain ⟨rest, hRest, h⟩ := bind_eq_ok_iff.mp h
      obtain rfl := Except.ok.inj h
      obtain ⟨rest, rfl, hChain⟩ := ih hRest fun x hx => hBack x (List.mem_cons_of_mem _ hx)
      exact ⟨_, rfl, List.isChain_cons_cons.mpr ⟨hLink (hBack o List.mem_cons_self), hChain⟩⟩

namespace Bins

/-- **Lists that are read** are the stacks that the rings hold. -/
theorem Lists.filed (h : bins.Lists r m lists) : bins.Filed r m lists := by
  have hRing : ∀ k, bins.head k = (lists k).head? ∧
      Circle (r.content m .ringNext) (r.content m .ringPrevious) (lists k) := by
    intro k
    have hRead := h.ring k
    unfold Bins.ring at hRead
    cases hHead : bins.head k with
    | none =>
      rw [hHead] at hRead
      rw [← Except.ok.inj hRead]
      exact ⟨rfl, trivial⟩
    | some head =>
      rw [hHead] at hRead
      obtain ⟨rest, hList, hChain⟩ := overRingWithin_inv hRead (h.back k)
      rw [hList]
      exact ⟨rfl, hChain⟩
  exact ⟨fun k => (hRing k).1, fun k => (hRing k).2, h.occupied, h.count⟩

/-- Stacks that the rings hold are read as lists. -/
theorem Lists.of_filed (h : bins.Filed r m lists) (hClassed : r.Classed m lists) :
    bins.Lists r m lists := by
  refine ⟨hClassed, h.ring_eq hClassed.placed, fun k o ho => ?_, h.occupied, h.count⟩
  obtain ⟨hNext, hBack⟩ := (h.circle k).previous_next ho
  exact ⟨_, read_eq_content (hClassed.placed.accessible ho rfl),
    (read_eq_content (hClassed.placed.accessible hNext rfl)).trans (by rw [hBack])⟩

end Bins

-- ---------------------------------------------------------------------------
-- Operations
-- ---------------------------------------------------------------------------

namespace Bins.Lists

/-- **Pushing** a chunk puts it in front of the list of its class. -/
theorem push (h : bins.Lists r m lists) (hRoom : o + (headerSize + minPayload) ≤ r.size)
    (hNew : ∀ k, ∀ y ∈ lists k, Separate o y) (hSize : r.chunkSize m o = .ok size) :
    ∃ bins' m', bins.push r m o = .ok (bins', m') ∧
      bins'.Lists r m' (restack lists (SizeClass.ofSize size) (o :: ·)) ∧
      r.SameButLinks (o :: lists (SizeClass.ofSize size)) m m' := by
  have hClassed := h.classed.cons hRoom hNew hSize
  have hCount : bins.count + 1 < Word.limit := by
    rw [h.count]
    exact h.classed.stacked_lt
  obtain ⟨bins', m', hPush, hFiled, hEdits⟩ := h.filed.push rfl hSize hClassed.placed
    (fun k ho => separate_ne (hNew k o ho) rfl) hCount
  refine ⟨bins', m', hPush, .of_filed hFiled (hClassed.of_edits hEdits fun x hx => ?_),
    hEdits.sameButLinks fun x hx => List.mem_cons.mpr hx⟩
  refine ⟨SizeClass.ofSize size, ?_⟩
  rw [restack_self]
  exact List.mem_cons.mpr hx

/-- **Removing** a chunk, wherever it stands, drops it from its list. -/
theorem remove (h : bins.Lists r m lists) (ho : o ∈ lists k) :
    ∃ bins' m', bins.remove r m o = .ok (bins', m') ∧
      bins'.Lists r m' (restack lists k (·.erase o)) ∧ r.SameButLinks (lists k) m m' := by
  obtain ⟨size, hSize, rfl⟩ := h.classed.sized k o ho
  obtain ⟨bins', m', hDetach, hFiled, hEdits⟩ := h.filed.detach h.classed.placed ho
  have hClassed := (h.classed.of_edits hEdits fun x hx => ⟨_, hx⟩).erase (SizeClass.ofSize size) o
  refine ⟨bins', m', ?_, of_filed hFiled hClassed, hEdits.sameButLinks fun x hx => hx⟩
  unfold Bins.remove
  rw [hSize, ok_bind, hDetach]

/-- **Popping** a class drops the first chunk of its list. -/
theorem pop_cons {rest : List Nat} (h : bins.Lists r m lists) (hList : lists k = o :: rest) :
    ∃ bins' m', bins.pop r m k = .ok (some (o, bins', m')) ∧
      bins'.Lists r m' (restack lists k fun _ => rest) ∧ r.SameButLinks (lists k) m m' := by
  obtain ⟨bins', m', hPop, hFiled, hEdits⟩ := h.filed.pop_cons h.classed.placed hList
  have hClassed := (h.classed.of_edits hEdits fun x hx => ⟨_, hx⟩).erase k o
  have hRest : restack lists k (·.erase o) = restack lists k fun _ => rest := by
    funext j
    unfold restack
    split
    · next hj =>
      rw [hj, hList]
      exact List.erase_cons_head (a := o) (l := rest)
    · rfl
  rw [hRest] at hFiled hClassed
  exact ⟨bins', m', hPop, of_filed hFiled hClassed, hEdits.sameButLinks fun x hx => hx⟩

theorem pop_nil (h : bins.Lists r m lists) (hList : lists k = []) : bins.pop r m k = .ok none := by
  unfold Bins.pop
  rw [h.filed.head k, hList]
  rfl

-- ---------------------------------------------------------------------------
-- Looking at lists
-- ---------------------------------------------------------------------------

theorem occupies_iff (h : bins.Lists r m lists) : bins.Occupies k ↔ lists k ≠ [] := by
  unfold Occupies
  rw [h.occupied k]
  simp

/-- **The last occupied class** has a chunk than which none is larger on any list. -/
theorem exists_largest_of_last (h : bins.Lists r m lists) (hLast : bins.lastOccupied? = some k) :
    ∃ o ∈ lists k, IsGreatest (r.sizesOn m lists) (r.sizeAt m o) := by
  obtain ⟨hOccupied, hAbove⟩ := lastOccupied?_eq_some_iff.mp hLast
  obtain ⟨first, hFirst⟩ := List.exists_mem_of_ne_nil _ (h.occupies_iff.mp hOccupied)
  obtain ⟨o, hMem, hMost⟩ := (lists k).toFinset.exists_max_image (r.sizeAt m)
    ⟨first, List.mem_toFinset.mpr hFirst⟩
  have ho := List.mem_toFinset.mp hMem
  obtain ⟨hSize, hClass⟩ := h.classed.sizeAt_spec ho
  refine ⟨o, ho, ⟨k, o, ho, hSize⟩, ?_⟩
  rintro size ⟨j, y, hy, hySize⟩
  obtain ⟨hyAt, hyClass⟩ := h.classed.sizeAt_spec hy
  obtain rfl := Except.ok.inj (hyAt.symm.trans hySize)
  rcases Fin.lt_or_eq_of_le (hAbove (h.occupies_iff.mpr (List.ne_nil_of_mem hy))) with hLt | rfl
  · rw [← hyClass, ← hClass] at hLt
    exact Nat.le_of_lt (SizeClass.lt_of_ofSize_lt (chunkSize_lt hyAt) hLt)
  · exact hMost y (List.mem_toFinset.mpr hy)

/-- **The largest chunk** of all lists is found in one ring; where there is none, zero is. -/
theorem largest (h : bins.Lists r m lists) :
    ∃ n, bins.largest r m = .ok n ∧ IsGreatest (insert 0 (r.sizesOn m lists)) n := by
  unfold Bins.largest
  cases hLast : bins.lastOccupied? with
  | none =>
    refine ⟨0, rfl, Or.inl rfl, ?_⟩
    rintro size (rfl | ⟨k, o, ho, -⟩)
    · exact Nat.le_refl 0
    · have hOccupied := h.occupies_iff.mpr (List.ne_nil_of_mem ho)
      exact absurd hOccupied (lastOccupied?_eq_none_iff.mp hLast k)
  | some k =>
    obtain ⟨o, ho, hGreatest⟩ := h.exists_largest_of_last hLast
    obtain ⟨first, rest, hList⟩ := List.exists_cons_of_ne_nil (List.ne_nil_of_mem ho)
    have hHead : (some k).bind bins.head = some first := by
      rw [Option.bind_some, h.filed.head k, hList]
      rfl
    have hRing : r.overRing m first (r.chunkSize m) = .ok ((lists k).map (r.sizeAt m)) :=
      h.filed.overRing_eq h.classed.placed hList fun x hx => (h.classed.sizeAt_spec hx).1
    have hMost : ((lists k).map (r.sizeAt m)).foldl max 0 = r.sizeAt m o := by
      refine Nat.le_antisymm (foldl_max_le_iff.mpr ⟨Nat.zero_le _, fun size hSize => ?_⟩)
        (le_foldl_max (List.mem_map_of_mem ho))
      obtain ⟨y, hy, rfl⟩ := List.mem_map.mp hSize
      exact hGreatest.2 ⟨k, y, hy, (h.classed.sizeAt_spec hy).1⟩
    simp only [hHead]
    rw [hRing, ok_bind, hMost]
    refine ⟨_, rfl, Or.inr hGreatest.1, ?_⟩
    rintro size (rfl | hSize)
    · exact Nat.zero_le _
    · exact hGreatest.2 hSize

end Bins.Lists

/-- **Bins are lists** of chunks, wherever in a region the chunks are and whatever else is in
memory, as long as they do not overlap. Pushing a chunk that overlaps none of them puts it in front
of the list of its class, removing one drops it from its list and keeps the order of the others, and
popping a class drops the first chunk of its list, if there is one. The other lists stay as they
are, and so does every byte but the ring links of that list and of the chunk. The first occupied
class from any class on is the least that has a chunk and the last one is the greatest, also when
they are found by counting zeros, and the largest chunk of all lists is found. -/
theorem bins_are_lists (h : bins.Lists r m lists) :
    (∀ o size, o + (headerSize + minPayload) ≤ r.size → (∀ k, ∀ y ∈ lists k, Separate o y) →
      r.chunkSize m o = .ok size →
        ∃ bins' m', bins.push r m o = .ok (bins', m') ∧
          bins'.Lists r m' (restack lists (SizeClass.ofSize size) (o :: ·)) ∧
          r.SameButLinks (o :: lists (SizeClass.ofSize size)) m m') ∧
    (∀ k, ∀ o ∈ lists k,
      ∃ bins' m', bins.remove r m o = .ok (bins', m') ∧
        bins'.Lists r m' (restack lists k (·.erase o)) ∧ r.SameButLinks (lists k) m m') ∧
    (∀ k, (lists k = [] → bins.pop r m k = .ok none) ∧
      ∀ o rest, lists k = o :: rest →
        ∃ bins' m', bins.pop r m k = .ok (some (o, bins', m')) ∧
          bins'.Lists r m' (restack lists k fun _ => rest) ∧ r.SameButLinks (lists k) m m') ∧
    (∀ start,
      (∀ k, bins.firstOccupied? start = some k ↔ IsLeast {j | start ≤ j ∧ lists j ≠ []} k) ∧
      (bins.firstOccupied? start = none ↔ ∀ j, start ≤ j → lists j = [])) ∧
    (∀ start, bins.firstOccupiedInWords? start =
      .ok (if h : start < SizeClass.count then (bins.firstOccupied? ⟨start, h⟩).map Fin.val
        else none)) ∧
    (∀ k, bins.lastOccupied? = some k ↔ IsGreatest {j | lists j ≠ []} k) ∧
    bins.lastOccupiedInWords? = .ok (bins.lastOccupied?.map Fin.val) ∧
    ∃ n, bins.largest r m = .ok n ∧ IsGreatest (insert 0 (r.sizesOn m lists)) n := by
  have hOccupies : ∀ j, bins.Occupies j ↔ lists j ≠ [] := fun j => h.occupies_iff
  refine ⟨fun o size => h.push, fun k o => h.remove, fun k => ⟨h.pop_nil, fun o rest => h.pop_cons⟩,
    fun start => ⟨fun k => ?_, ?_⟩, bins.firstOccupiedInWords?_eq, fun k => ?_,
    bins.lastOccupiedInWords?_eq, h.largest⟩
  · rw [Bins.firstOccupied?_eq_some_iff]
    simp only [hOccupies]
  · rw [Bins.firstOccupied?_eq_none_iff]
    simp only [hOccupies, ne_eq, not_not]
  · rw [Bins.lastOccupied?_eq_some_iff]
    simp only [hOccupies]

-- ---------------------------------------------------------------------------
-- A ring of two
-- ---------------------------------------------------------------------------

/-- One kibibyte with two chunks of 64 bytes, each before and after the other in their ring. -/
def Memory.ringOfTwo : Memory :=
  let chain := Region.kibibyte.put (Region.kibibyte.put .blank .next 32 128) .next 176 272
  Region.kibibyte.linkRing chain 176 32 32

/-- The bins of that memory; the chunk at 176 was filed last. -/
def Bins.ringOfTwo : Bins :=
  { Bins.empty.setHead (SizeClass.ofSize 64) (some 176) with
    occupied := BitVec.twoPow 64 6, count := 2 }

theorem Bins.lists_ringOfTwo : Bins.ringOfTwo.Lists .kibibyte .ringOfTwo
    (restack (fun _ => []) 6 fun _ => [176, 32]) := by
  have hMem : ∀ {k o}, o ∈ restack (fun _ => []) 6 (fun _ => [176, 32]) k →
      k = 6 ∧ (o = 176 ∨ o = 32) := by
    intro k o ho
    unfold restack at ho
    split at ho
    · next hk => exact ⟨hk, by simpa using ho⟩
    · exact absurd ho List.not_mem_nil
  have hCircle : Circle (Region.kibibyte.content .ringOfTwo .ringNext)
      (Region.kibibyte.content .ringOfTwo .ringPrevious) [176, 32] := by
    refine List.isChain_cons_cons.mpr ⟨⟨?_, ?_⟩, List.isChain_pair.mpr ⟨?_, ?_⟩⟩ <;> decide +kernel
  refine Lists.of_filed ⟨by decide +kernel, fun k => ?_, by decide +kernel, by decide +kernel⟩
    ⟨by decide +kernel, by decide +kernel, fun j k o ho y hy => ?_, fun k o ho => ?_⟩
  · unfold restack
    split
    · exact hCircle
    · trivial
  · unfold Separate
    have := (hMem ho).2
    have := (hMem hy).2
    have := sizes_eq
    omega
  · obtain ⟨rfl, rfl | rfl⟩ := hMem ho
    · exact ⟨64, by decide +kernel, by decide⟩
    · exact ⟨64, by decide +kernel, by decide⟩

/-- Where each of two chunks is before and after the other, removing the older one leaves the newer
one alone, which then points at itself. -/
theorem bins_are_lists_ring_of_two :
    Bins.ringOfTwo.Lists .kibibyte .ringOfTwo (restack (fun _ => []) 6 fun _ => [176, 32]) ∧
      (∃ bins' m', Bins.ringOfTwo.remove .kibibyte .ringOfTwo 32 = .ok (bins', m') ∧
        bins'.ring .kibibyte m' 6 = .ok [176] ∧
        Region.kibibyte.read m' 176 .ringNext = .ok 176) ∧
      Bins.ringOfTwo.firstOccupied? 0 = some 6 ∧
      ∃ n, Bins.ringOfTwo.largest .kibibyte .ringOfTwo = .ok n ∧ 64 ≤ n := by
  have hLists := Bins.lists_ringOfTwo
  obtain ⟨-, hRemove, -, hFirst, -, -, -, n, hLargest, hGreatest⟩ := bins_are_lists hLists
  obtain ⟨bins', m', hCall, hLists', -⟩ := hRemove 6 32 (by decide)
  have hSelf : Region.kibibyte.content m' .ringNext 176 = 176 :=
    Circle.next_cons (l := []) (hLists'.filed.circle 6)
  have hNext : Region.kibibyte.read m' 176 .ringNext = .ok 176 :=
    (read_eq_content (f := .ringNext) ⟨by decide, by decide⟩).trans (congrArg Except.ok hSelf)
  refine ⟨hLists, ⟨bins', m', hCall, hLists'.ring 6, hNext⟩, ?_, n, hLargest,
    hGreatest.2 (Or.inr ⟨6, 32, by decide, by decide +kernel⟩)⟩
  exact ((hFirst 0).1 6).mpr ⟨by decide, fun j hj => by revert j; decide⟩

end RegionHeap
