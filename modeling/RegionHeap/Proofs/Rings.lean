import Mathlib.Data.BitVec
import RegionHeap.Bins
import RegionHeap.Proofs.Blocks
import RegionHeap.Proofs.Circle
import RegionHeap.Proofs.Edits

/-!
# The rings in memory

`Bins.Filed` says that bins and memory hold given stacks of offsets, one for each size
class: the head of a class is the top of its stack, and the links in the payloads make
the stack a circle. It needs nothing of the chain but that the chunks concerned do not
overlap (`Region.Placed`).

* `Filed.restacked`: to change one stack it is enough to look at its class.
* `Filed.detach`, `Filed.pop_cons`, `Filed.push`: what the operations on bins do to the stacks.
* `Filed.ring_eq`: reading a ring gives the stack.
* `Filed.firstOccupied?_eq`: what scanning the occupancy bits finds.
-/

namespace RegionHeap

open Region

/-- The stacked chunks lie in the region at aligned offsets, apart from each other, and each is
on one stack only, once. -/
structure Region.Placed (r : Region) (stack : SizeClass → List Nat) : Prop where
  nodup : ∀ k, (stack k).Nodup
  class_eq : ∀ {j k : SizeClass} {o : Nat}, o ∈ stack j → o ∈ stack k → j = k
  room : ∀ {k : SizeClass} {o : Nat}, o ∈ stack k → o + (headerSize + minPayload) ≤ r.size
  aligned : ∀ {k : SizeClass} {o : Nat}, o ∈ stack k → o % Word.alignment = 0
  apart : ∀ {j k : SizeClass} {o y : Nat}, o ∈ stack j → y ∈ stack k →
    o = y ∨ o + (headerSize + minPayload) ≤ y ∨ y + (headerSize + minPayload) ≤ o

/-- Bins and memory hold the stacks: heads outside memory, links in the payloads, one bit
for each class that has a chunk, and the number of all chunks. -/
structure Bins.Filed (bins : Bins) (r : Region) (m : Memory) (stack : SizeClass → List Nat) :
    Prop where
  head : ∀ k, bins.head k = (stack k).head?
  circle : ∀ k, Circle (r.content m .ringNext) (r.content m .ringPrevious) (stack k)
  occupied : ∀ k : SizeClass, bins.occupied.getLsbD k = !(stack k).isEmpty
  count : bins.count = stacked stack

/-- Writes of ring links among the chunks that satisfy `S`. -/
def Region.RingEdit (S : Nat → Prop) (o : Nat) (f : Field) (v : Nat) : Prop :=
  S o ∧ f.reach = headerSize + minPayload ∧ S v

variable {r : Region} {m m' : Memory} {bins : Bins} {stack : SizeClass → List Nat}
variable {f g : Field} {j k : SizeClass} {o y v : Nat}

-- ---------------------------------------------------------------------------
-- Heads and occupancy bits
-- ---------------------------------------------------------------------------

namespace Bins

theorem head_setHead (bins : Bins) (k j : SizeClass) (offset : Option Nat) :
    (bins.setHead k offset).head j = if j = k then offset else bins.head j := by
  unfold setHead head
  by_cases h : j = k
  · subst h
    simp
  · have hVal : ¬k.val = j.val := fun hv => h (Fin.ext hv.symm)
    simp [h, hVal]

theorem getLsbD_twoPow (k j : SizeClass) :
    (BitVec.twoPow 64 k).getLsbD j = decide (j = k) := by
  rw [BitVec.getLsbD_twoPow, decide_eq_true k.isLt, Bool.true_and]
  simp only [Fin.ext_iff, eq_comm]

theorem occupied_set (w : BitVec 64) (k j : SizeClass) :
    (w ||| BitVec.twoPow 64 k).getLsbD j = if j = k then true else w.getLsbD j := by
  rw [BitVec.getLsbD_or, getLsbD_twoPow]
  split <;> simp [*]

theorem occupied_clear (w : BitVec 64) (k j : SizeClass) :
    (w &&& ~~~BitVec.twoPow 64 k).getLsbD j = if j = k then false else w.getLsbD j := by
  rw [BitVec.getLsbD_and, BitVec.getLsbD_not, getLsbD_twoPow, decide_eq_true j.isLt,
    Bool.true_and]
  split <;> simp [*]

end Bins

-- ---------------------------------------------------------------------------
-- Links of stacked chunks
-- ---------------------------------------------------------------------------

namespace Region

theorem Placed.clear (h : r.Placed stack) (ho : o ∈ stack j) (hy : y ∈ stack k)
    (hf : f.reach = headerSize + minPayload) (hg : g.reach = headerSize + minPayload) :
    Clear f o g y := by
  unfold Clear
  rw [hf, hg]
  exact h.apart ho hy

theorem Placed.lt_word (h : r.Placed stack) (ho : o ∈ stack k) : o < 256 ^ 8 := by
  have := h.room ho
  have := r.stop_lt
  have := sizes_eq
  omega

/-- The links of stacked chunks can be accessed. -/
theorem Placed.accessible (h : r.Placed stack) (ho : o ∈ stack k)
    (hf : f.reach = headerSize + minPayload) : r.Accessible f o :=
  .of_aligned (hf ▸ h.room ho) (h.aligned ho)

/-- Among stacked chunks, writing one link is an update of the links. -/
theorem Placed.content_put (h : r.Placed stack) (ho : o ∈ stack j) (hy : y ∈ stack k)
    (hf : f.reach = headerSize + minPayload) (hg : g.reach = headerSize + minPayload)
    (hv : v < 256 ^ f.width) :
    r.content (r.put m f o v) g y = if y = o ∧ g = f then v else r.content m g y :=
  Region.content_put (h.clear ho hy hf hg) hv

end Region

-- ---------------------------------------------------------------------------
-- Operations
-- ---------------------------------------------------------------------------

namespace Region

/-- Memory after the ring members `p` and `n` were made to point at each other. -/
def unlinkRing (r : Region) (m : Memory) (p n : Nat) : Memory :=
  r.put (r.put m .ringNext p n) .ringPrevious n p

/-- Memory after `o` was put between the ring members `p` and `n`. -/
def linkRing (r : Region) (m : Memory) (o p n : Nat) : Memory :=
  r.put (r.put (r.put (r.put m .ringPrevious o p) .ringNext o n) .ringNext p o) .ringPrevious n o

end Region

namespace Bins.Filed

/-- Links outside a ring that was edited are unchanged. -/
theorem circle_of_edits {S : Nat → Prop} {stack' : SizeClass → List Nat}
    (h : bins.Filed r m stack) (hPlaced : r.Placed stack') (hSubset : ∀ j, stack j ⊆ stack' j)
    (hEdits : r.Edits (RingEdit S) m m') (hS : ∀ x, S x → x ∈ stack' k) (hj : j ≠ k) :
    Circle (r.content m' .ringNext) (r.content m' .ringPrevious) (stack j) := by
  have hSame : ∀ g : Field, g.reach = headerSize + minPayload → ∀ y ∈ stack j,
      r.content m' g y = r.content m g y := by
    intro g hg y hy
    refine hEdits.content_eq fun x f v hx => ?_
    have hxMem := hS x hx.1
    refine ⟨hPlaced.clear hxMem (hSubset j hy) hx.2.1 hg, ?_⟩
    rintro ⟨rfl, -⟩
    exact hj (hPlaced.class_eq (hSubset j hy) hxMem)
  exact (h.circle j).congr (hSame .ringNext rfl) (hSame .ringPrevious rfl)

/-- The stack of one class changes, by edits in its ring: what has to be shown is about
that class. -/
theorem restacked {S : Nat → Prop} {stack' : SizeClass → List Nat} {g : List Nat → List Nat}
    {bins' : Bins} (h : bins.Filed r m stack) (hPlaced : r.Placed stack')
    (hSubset : ∀ j, stack j ⊆ stack' j)
    (hEdits : r.Edits (RingEdit S) m m') (hS : ∀ x, S x → x ∈ stack' k)
    (hHead : ∀ j, bins'.head j = if j = k then (g (stack k)).head? else bins.head j)
    (hCircle : Circle (r.content m' .ringNext) (r.content m' .ringPrevious) (g (stack k)))
    (hOccupied : ∀ j : SizeClass, bins'.occupied.getLsbD j =
      if j = k then !(g (stack k)).isEmpty else bins.occupied.getLsbD j)
    (hCount : bins'.count = stacked (restack stack k g)) :
    bins'.Filed r m' (restack stack k g) := by
  refine ⟨fun j => ?_, fun j => ?_, fun j => ?_, hCount⟩
  · rw [hHead j, restack, h.head j]
    split
    · next hj => rw [hj]
    · rfl
  · rw [restack]
    split
    · next hj => rwa [hj]
    · next hj => exact h.circle_of_edits hPlaced hSubset hEdits hS hj
  · rw [hOccupied j, restack, h.occupied j]
    split
    · next hj => rw [hj]
    · rfl

-- ---------------------------------------------------------------------------
-- Detaching
-- ---------------------------------------------------------------------------

theorem count_erase (h : bins.Filed r m stack) (ho : o ∈ stack k) :
    1 ≤ bins.count ∧ bins.count - 1 = stacked (restack stack k (·.erase o)) := by
  have hTotal := stacked_restack stack k (·.erase o)
  have hLength := List.length_erase_of_mem ho
  have hPos := List.length_pos_of_mem ho
  have hLe := length_le_stacked stack k
  rw [h.count]
  omega

/-- A chunk points at itself when it is the only one of its class. -/
theorem next_eq_self_iff (h : bins.Filed r m stack) (hPlaced : r.Placed stack)
    (ho : o ∈ stack k) : r.content m .ringNext o = o ↔ (stack k).erase o = [] := by
  obtain ⟨before, after, -, hStack, hErase⟩ := List.exists_erase_eq ho
  have hCircle := h.circle k
  have hNodup := hPlaced.nodup k
  rw [hStack] at hCircle hNodup
  rw [hErase, (circle_append_comm.mp hCircle).next_eq_self_iff (List.nodup_append_comm.mp hNodup)]
  simp [and_comm]

/-- Where the head is detached its successor becomes the head. -/
theorem head_erase (h : bins.Filed r m stack) (ho : o ∈ stack k)
    (hRest : (stack k).erase o ≠ []) (j : SizeClass) :
    (if bins.head k = some o then bins.setHead k (some (r.content m .ringNext o))
      else bins).head j = if j = k then ((stack k).erase o).head? else bins.head j := by
  by_cases hj : j = k
  · subst hj
    have hCircle := h.circle j
    have hHead := h.head j
    rw [if_pos rfl]
    cases hStack : stack j with
    | nil => simp [hStack] at ho
    | cons x rest =>
      rw [hStack] at hCircle hHead hRest
      by_cases hx : x = o
      · subst hx
        rw [List.erase_cons_head] at hRest ⊢
        cases rest with
        | nil => exact absurd rfl hRest
        | cons y rest =>
          rw [List.head?_cons] at hHead
          rw [if_pos hHead, head_setHead, if_pos rfl, hCircle.link_head.1, List.head?_cons]
      · have hNotHead : ¬bins.head j = some o := by
          rw [hHead]
          simpa using hx
        rw [if_neg hNotHead, hHead, List.erase_cons_tail (by simpa using hx)]
        rfl
  · rw [if_neg hj]
    split
    · rw [head_setHead, if_neg hj]
    · rfl

/-- The neighbours of a detached chunk close the ring. -/
theorem circle_erase {p n : Nat} (h : bins.Filed r m stack) (hPlaced : r.Placed stack)
    (ho : o ∈ stack k) (hp : r.content m .ringPrevious o = p) (hn : r.content m .ringNext o = n) :
    Circle (r.content (r.unlinkRing m p n) .ringNext)
      (r.content (r.unlinkRing m p n) .ringPrevious) ((stack k).erase o) := by
  have hCircle := h.circle k
  have hNodup := hPlaced.nodup k
  have hpMem : p ∈ stack k := hp ▸ (hCircle.next_previous ho).1
  have hnMem : n ∈ stack k := hn ▸ (hCircle.previous_next ho).1
  have hPut : ∀ {g y}, y ∈ (stack k).erase o → g.reach = headerSize + minPayload →
      r.content (r.unlinkRing m p n) g y =
        if y = n ∧ g = .ringPrevious then p else if y = p ∧ g = .ringNext then n
        else r.content m g y := by
    intro g y hy hg
    have hyMem := List.mem_of_mem_erase hy
    unfold unlinkRing
    rw [hPlaced.content_put hnMem hyMem rfl hg (hPlaced.lt_word hpMem),
      hPlaced.content_put hpMem hyMem rfl hg (hPlaced.lt_word hnMem)]
  obtain ⟨before, after, -, hStack, hErase⟩ := List.exists_erase_eq ho
  rw [hErase] at hPut ⊢
  rw [hStack] at hCircle hNodup
  refine hCircle.delete hNodup (fun y hy => ?_) fun y hy => ?_
  · rw [hPut hy rfl, if_neg (by simp), hp, hn]
    simp
  · rw [hPut hy rfl, hp, hn]
    simp

/-- **Detaching** a chunk takes it from its stack, wherever it stands. -/
theorem detach (h : bins.Filed r m stack) (hPlaced : r.Placed stack) (ho : o ∈ stack k) :
    ∃ bins' m', bins.detach r m o k = .ok (bins', m') ∧
      bins'.Filed r m' (restack stack k (·.erase o)) ∧
      r.Edits (RingEdit (· ∈ stack k)) m m' := by
  obtain ⟨hCount, hCount'⟩ := h.count_erase ho
  have hSelf := h.next_eq_self_iff hPlaced ho
  have hNextMem := ((h.circle k).previous_next ho).1
  have hPreviousMem := ((h.circle k).next_previous ho).1
  have hNext : ∀ {x}, x ∈ stack k → r.Accessible .ringNext x := fun hx => hPlaced.accessible hx rfl
  have hPrevious : ∀ {x}, x ∈ stack k → r.Accessible .ringPrevious x :=
    fun hx => hPlaced.accessible hx rfl
  unfold Bins.detach
  rw [Word.sub_eq_ok_iff.mpr ⟨hCount, rfl⟩, ok_bind,
    read_eq_content (hNext ho), ok_bind]
  by_cases hLast : r.content m .ringNext o = o
  · -- the only chunk of its class: the class is left empty, and memory as it was
    have hNil : (stack k).erase o = [] := hSelf.mp hLast
    rw [if_pos hLast]
    refine ⟨_, m, rfl, ?_, Edits.refl m⟩
    refine h.restacked (S := fun _ => False) hPlaced (fun _ => List.Subset.refl _)
      (Edits.refl m) (fun _ hx => hx.elim) (fun j => ?_) ?_ (fun j => ?_) hCount'
    · rw [hNil]
      exact head_setHead bins k j none
    · rw [hNil]
      trivial
    · rw [hNil]
      exact occupied_clear bins.occupied k j
  · have hRest : (stack k).erase o ≠ [] := fun hNil => hLast (hSelf.mpr hNil)
    rw [if_neg hLast, read_eq_content (hPrevious ho), ok_bind, write_eq_put (hNext hPreviousMem),
      ok_bind, write_eq_put (hPrevious hNextMem), ok_bind]
    have hEdits : r.Edits (RingEdit (· ∈ stack k)) m
        (r.unlinkRing m (r.content m .ringPrevious o) (r.content m .ringNext o)) :=
      Edits.put (Edits.put (Edits.refl m) (hNext hPreviousMem) ⟨hPreviousMem, rfl, hNextMem⟩)
        (hPrevious hNextMem) ⟨hNextMem, rfl, hPreviousMem⟩
    refine ⟨_, _, rfl, ?_, hEdits⟩
    refine h.restacked hPlaced (fun _ => List.Subset.refl _) hEdits (fun _ hx => hx)
      (h.head_erase ho hRest) (h.circle_erase hPlaced ho rfl rfl) (fun j => ?_) hCount'
    have hSame : (if bins.head k = some o then bins.setHead k (some (r.content m .ringNext o))
        else bins).occupied = bins.occupied := by
      split <;> rfl
    show (if bins.head k = some o then bins.setHead k (some (r.content m .ringNext o))
        else bins).occupied.getLsbD j = _
    rw [hSame, List.isEmpty_eq_false_iff.mpr hRest]
    split
    · next hj =>
      rw [hj, h.occupied k, List.isEmpty_eq_false_iff.mpr (List.ne_nil_of_mem ho)]
    · rfl

/-- **Popping** a class takes the top of its stack. -/
theorem pop_cons {rest : List Nat} (h : bins.Filed r m stack) (hPlaced : r.Placed stack)
    (hStack : stack k = o :: rest) :
    ∃ bins' m', bins.pop r m k = .ok (some (o, bins', m')) ∧
      bins'.Filed r m' (restack stack k (·.erase o)) ∧
      r.Edits (RingEdit (· ∈ stack k)) m m' := by
  obtain ⟨bins', m', hDetach, hFiled, hEdits⟩ :=
    h.detach hPlaced (k := k) (o := o) (by rw [hStack]; exact List.mem_cons_self)
  refine ⟨bins', m', ?_, hFiled, hEdits⟩
  unfold Bins.pop
  rw [h.head k, hStack]
  show bins.detach r m o k >>= _ = _
  rw [hDetach, ok_bind]
  rfl

-- ---------------------------------------------------------------------------
-- Pushing
-- ---------------------------------------------------------------------------

theorem count_cons (h : bins.Filed r m stack) (k : SizeClass) (o : Nat) :
    bins.count + 1 = stacked (restack stack k (o :: ·)) := by
  have hTotal := stacked_restack stack k (o :: ·)
  rw [List.length_cons] at hTotal
  rw [h.count]
  omega

/-- The first chunk of its class points at itself. -/
theorem circle_singleton (hWord : o < 256 ^ 8) :
    Circle (r.content (r.put (r.put m .ringPrevious o o) .ringNext o o) .ringNext)
      (r.content (r.put (r.put m .ringPrevious o o) .ringNext o o) .ringPrevious) [o] := by
  refine List.isChain_pair.mpr ⟨?_, ?_⟩
  · rw [content_put (Or.inl rfl) hWord, if_pos ⟨rfl, rfl⟩]
  · rw [content_put (Or.inl rfl) hWord, if_neg (by simp), content_put (Or.inl rfl) hWord,
      if_pos ⟨rfl, rfl⟩]

/-- A pushed chunk goes between the last chunk of its class and the first. -/
theorem circle_cons {x last : Nat} {rest : List Nat} (h : bins.Filed r m stack)
    (hPlaced : r.Placed (restack stack k (o :: ·))) (hNew : o ∉ stack k)
    (hStack : stack k = x :: rest) (hLast : r.content m .ringPrevious x = last) :
    Circle (r.content (r.linkRing m o last x) .ringNext)
      (r.content (r.linkRing m o last x) .ringPrevious) (o :: stack k) := by
  have hSelf := restack_self stack k (o :: ·)
  have hCircle := h.circle k
  have hxMem : x ∈ stack k := by rw [hStack]; exact List.mem_cons_self
  obtain ⟨hLastMem, hLastNext⟩ := hCircle.next_previous hxMem
  rw [hLast] at hLastMem hLastNext
  have ho : o ∈ restack stack k (o :: ·) k := by rw [hSelf]; exact List.mem_cons_self
  have hMem : ∀ {y}, y ∈ stack k → y ∈ restack stack k (o :: ·) k := by
    intro y hy
    rw [hSelf]
    exact List.mem_cons_of_mem o hy
  have hPut : ∀ {g y}, y ∈ restack stack k (o :: ·) k → g.reach = headerSize + minPayload →
      r.content (r.linkRing m o last x) g y =
        if y = x ∧ g = .ringPrevious then o else if y = last ∧ g = .ringNext then o
        else if y = o ∧ g = .ringNext then x else if y = o ∧ g = .ringPrevious then last
        else r.content m g y := by
    intro g y hy hg
    unfold linkRing
    rw [hPlaced.content_put (hMem hxMem) hy rfl hg (hPlaced.lt_word ho),
      hPlaced.content_put (hMem hLastMem) hy rfl hg (hPlaced.lt_word ho),
      hPlaced.content_put ho hy rfl hg (hPlaced.lt_word (hMem hxMem)),
      hPlaced.content_put ho hy rfl hg (hPlaced.lt_word (hMem hLastMem))]
  have hNe : ∀ y ∈ stack k, o ≠ y := fun y hy hEq => hNew (hEq ▸ hy)
  have hNodup : (stack k).Nodup := by
    have := hPlaced.nodup k
    rw [hSelf] at this
    exact (List.nodup_cons.mp this).2
  -- the circle is turned so that `o` comes after the last chunk, which is where it is put
  obtain ⟨front, hFront⟩ := hCircle.exists_eq_concat (x := x) (by rw [hStack]; rfl)
  rw [hLast] at hFront
  have hOrder : stack k ++ [o] = front ++ last :: o :: [] := by rw [hFront]; simp
  rw [show o :: stack k = [o] ++ stack k from rfl, circle_append_comm, hOrder]
  rw [hFront] at hCircle hNodup
  refine hCircle.insert hNodup ⟨?_, ?_⟩ (fun y hy => ?_) fun y hy => ?_
  · rw [hPut ho rfl, if_neg (by simp), if_neg (by simp [hNe last hLastMem]),
      if_pos ⟨rfl, rfl⟩, hLastNext]
  · rw [hPut ho rfl, if_neg (by simp [hNe x hxMem]), if_neg (by simp), if_neg (by simp),
      if_pos ⟨rfl, rfl⟩]
  · rw [← hFront] at hy
    rw [hPut (hMem hy) rfl]
    simp [(hNe y hy).symm]
  · rw [← hFront] at hy
    rw [hPut (hMem hy) rfl, hLastNext]
    simp [(hNe y hy).symm]

/-- **Pushing** a chunk puts it on top of the stack of its class. -/
theorem push {size : Nat} (h : bins.Filed r m stack) (hk : SizeClass.ofSize size = k)
    (hSize : r.chunkSize m o = .ok size) (hPlaced : r.Placed (restack stack k (o :: ·)))
    (hNew : ∀ j, o ∉ stack j) (hCount : bins.count + 1 < Word.limit) :
    ∃ bins' m', bins.push r m o = .ok (bins', m') ∧
      bins'.Filed r m' (restack stack k (o :: ·)) ∧
      r.Edits (RingEdit fun x => x = o ∨ x ∈ stack k) m m' := by
  have hSelf := restack_self stack k (o :: ·)
  have hSubset := subset_restack_cons stack k o
  have ho : o ∈ restack stack k (o :: ·) k := by rw [hSelf]; exact List.mem_cons_self
  have hS : ∀ x, x = o ∨ x ∈ stack k → x ∈ restack stack k (o :: ·) k := by
    intro x hx
    rw [hSelf]
    exact List.mem_cons.mpr hx
  have hNext : ∀ {x}, x ∈ restack stack k (o :: ·) k → r.Accessible .ringNext x :=
    fun hx => hPlaced.accessible hx rfl
  have hPrevious : ∀ {x}, x ∈ restack stack k (o :: ·) k → r.Accessible .ringPrevious x :=
    fun hx => hPlaced.accessible hx rfl
  unfold Bins.push
  rw [hSize, ok_bind]
  simp only [hk]
  cases hStack : stack k with
  | nil =>
    have hHead : bins.head k = none := by rw [h.head, hStack]; rfl
    have hEdits : r.Edits (RingEdit fun x => x = o ∨ x ∈ stack k) m
        (r.put (r.put m .ringPrevious o o) .ringNext o o) :=
      Edits.put (Edits.put (Edits.refl m) (hPrevious ho) ⟨Or.inl rfl, rfl, Or.inl rfl⟩) (hNext ho)
        ⟨Or.inl rfl, rfl, Or.inl rfl⟩
    simp only [hHead]
    rw [write_eq_put (hPrevious ho), ok_bind, write_eq_put (hNext ho), ok_bind, pure_eq_ok, ok_bind,
      Word.add_eq_ok_iff.mpr ⟨rfl, hCount⟩, ok_bind, ← hStack]
    refine ⟨_, _, rfl, ?_, hEdits⟩
    refine h.restacked hPlaced hSubset hEdits hS (fun j => head_setHead bins k j (some o)) ?_
      (fun j => occupied_set bins.occupied k j) (h.count_cons k o)
    rw [hStack]
    exact circle_singleton (hPlaced.lt_word ho)
  | cons x rest =>
    have hHead : bins.head k = some x := by rw [h.head, hStack]; rfl
    have hxMem : x ∈ stack k := by rw [hStack]; exact List.mem_cons_self
    have hLastMem := ((h.circle k).next_previous hxMem).1
    have hEdits : r.Edits (RingEdit fun y => y = o ∨ y ∈ stack k) m
        (r.linkRing m o (r.content m .ringPrevious x) x) := by
      refine Edits.put (Edits.put (Edits.put (Edits.put (Edits.refl m) (hPrevious ho) ?_)
        (hNext ho) ?_) (hNext (hSubset k hLastMem)) ?_) (hPrevious (hSubset k hxMem)) ?_
      · exact ⟨Or.inl rfl, rfl, Or.inr hLastMem⟩
      · exact ⟨Or.inl rfl, rfl, Or.inr hxMem⟩
      · exact ⟨Or.inr hLastMem, rfl, Or.inl rfl⟩
      · exact ⟨Or.inr hxMem, rfl, Or.inl rfl⟩
    simp only [hHead]
    rw [read_eq_content (hPrevious (hSubset k hxMem)), ok_bind, write_eq_put (hPrevious ho),
      ok_bind, write_eq_put (hNext ho), ok_bind, write_eq_put (hNext (hSubset k hLastMem)), ok_bind,
      write_eq_put (hPrevious (hSubset k hxMem)), ok_bind, pure_eq_ok, ok_bind,
      Word.add_eq_ok_iff.mpr ⟨rfl, hCount⟩, ok_bind, ← hStack]
    refine ⟨_, _, rfl, ?_, hEdits⟩
    refine h.restacked hPlaced hSubset hEdits hS (fun j => head_setHead bins k j (some o))
      (h.circle_cons hPlaced (hNew k) hStack rfl) (fun j => ?_) (h.count_cons k o)
    show bins.occupied.getLsbD j = _
    split
    · next hj => rw [hj, h.occupied k, hStack]; rfl
    · rfl

-- ---------------------------------------------------------------------------
-- Looking at bins
-- ---------------------------------------------------------------------------

/-- The first class from `start` on whose stack has a chunk. -/
theorem firstOccupied?_eq (h : bins.Filed r m stack) (start : SizeClass) :
    bins.firstOccupied? start =
      SizeClass.all.find? fun k => decide (start ≤ k) && !(stack k).isEmpty := by
  unfold Bins.firstOccupied?
  congr 1
  funext k
  rw [← h.occupied k]
  rfl

end Bins.Filed

namespace Region

/-- Walking along an open list that leads back to `head` visits its members in order. -/
theorem overRingWithin_eq {α : Type} {head : Nat} {visit : Nat → Checked α} {value : Nat → α} :
    ∀ (rest : List Nat) (o steps : Nat), (o :: rest).length ≤ steps →
      (o :: rest ++ [head]).IsChain (Link (r.content m .ringNext) (r.content m .ringPrevious)) →
      head ∉ rest → (∀ x ∈ o :: rest, r.Accessible .ringNext x) →
      (∀ x ∈ o :: rest, visit x = .ok (value x)) →
      r.overRingWithin m head visit steps o = .ok ((o :: rest).map value) := by
  intro rest
  induction rest with
  | nil =>
    intro o steps hSteps hChain _ hAccess hVisit
    obtain ⟨steps, rfl⟩ : ∃ n, steps = n + 1 := ⟨steps - 1, by simp at hSteps; omega⟩
    have hNext := (List.isChain_pair.mp hChain).1
    unfold overRingWithin
    rw [hVisit o (by simp), ok_bind, read_eq_content (hAccess o (by simp)),
      ok_bind, if_pos hNext]
    rfl
  | cons x rest ih =>
    intro o steps hSteps hChain hHead hAccess hVisit
    obtain ⟨steps, rfl⟩ : ∃ n, steps = n + 1 := ⟨steps - 1, by simp at hSteps; omega⟩
    obtain ⟨⟨hNext, -⟩, hRest⟩ := List.isChain_cons_cons.mp hChain
    rw [List.mem_cons, not_or] at hHead
    have hTail := ih x steps (by simpa using hSteps) hRest hHead.2
      (fun y hy => hAccess y (List.mem_cons_of_mem _ hy))
      (fun y hy => hVisit y (List.mem_cons_of_mem _ hy))
    unfold overRingWithin
    rw [hVisit o (by simp), ok_bind, read_eq_content (hAccess o (by simp)),
      ok_bind, hNext, if_neg (Ne.symm hHead.1), hTail, ok_bind]
    rfl

/-- Distinct numbers below a bound are not more than the bound. -/
theorem length_le_of_nodup_of_lt {l : List Nat} {n : Nat} (hNodup : l.Nodup)
    (hLt : ∀ x ∈ l, x < n) : l.length ≤ n := by
  rw [← List.toFinset_card_of_nodup hNodup, ← Finset.card_range n]
  refine Finset.card_le_card fun x hx => ?_
  exact Finset.mem_range.mpr (hLt x (List.mem_toFinset.mp hx))

end Region

namespace Bins.Filed

/-- Once around a ring, starting at its head, every chunk of the stack is visited in order. -/
theorem overRing_eq {α : Type} {visit : Nat → Checked α} {value : Nat → α} {rest : List Nat}
    (h : bins.Filed r m stack) (hPlaced : r.Placed stack) (hStack : stack k = o :: rest)
    (hVisit : ∀ x ∈ stack k, visit x = .ok (value x)) :
    r.overRing m o visit = .ok ((stack k).map value) := by
  have hCircle := h.circle k
  have hNodup := hPlaced.nodup k
  have hAccess : ∀ x ∈ stack k, r.Accessible .ringNext x := fun x hx => hPlaced.accessible hx rfl
  have hLength : (stack k).length ≤ r.size := by
    refine length_le_of_nodup_of_lt hNodup fun x hx => ?_
    have := hPlaced.room hx
    have := sizes_eq
    omega
  rw [hStack] at *
  exact overRingWithin_eq rest o r.size hLength hCircle (List.nodup_cons.mp hNodup).1 hAccess hVisit

/-- **Reading a ring** from its head gives the stack of its class. -/
theorem ring_eq (h : bins.Filed r m stack) (hPlaced : r.Placed stack) (k : SizeClass) :
    bins.ring r m k = .ok (stack k) := by
  unfold Bins.ring
  rw [h.head k]
  cases hStack : stack k with
  | nil => rfl
  | cons o rest =>
    have hRing : r.overRing m o pure = .ok ((stack k).map id) :=
      h.overRing_eq hPlaced hStack fun _ _ => rfl
    rw [List.map_id, hStack] at hRing
    exact hRing

end Bins.Filed

end RegionHeap
