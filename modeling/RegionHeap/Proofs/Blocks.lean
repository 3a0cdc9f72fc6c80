import Mathlib.Algebra.BigOperators.Fin
import Mathlib.Algebra.BigOperators.Group.Finset.Basic
import Mathlib.Algebra.Order.BigOperators.Group.Finset
import Mathlib.Algebra.Order.BigOperators.Group.List
import Mathlib.Data.List.Chain
import Mathlib.Data.List.Nodup
import RegionHeap.Tiling

/-!
# Blocks side by side

The part of the theory of heaps that needs no memory: which lists of blocks fill a
stretch of offsets without gaps, what they add up to, and when the stacks of the size
classes hold exactly the free ones among them.

* `Tiled`: the blocks fill the stretch. Two of them are the same or apart
  (`Tiled.apart`), and their sizes and headers add up (`Tiled.total`).
* `Tiled.join`, `Tiled.cut`: blocks stay tiled when two neighbours are merged or one is
  cut in two.
* `Coalesced`: no two neighbours are both free.
* `Binned`: every free block is on the stack of its class, once, and nothing else is on
  any stack.
-/

namespace RegionHeap

/-- The fixed sizes, as numbers. -/
theorem sizes_eq : headerSize = 32 ∧ minPayload = 16 ∧ Word.alignment = 16 ∧
    minRegionSize = 112 ∧ Word.limit = 18446744073709551616 := ⟨rfl, rfl, rfl, rfl, rfl⟩

-- ---------------------------------------------------------------------------
-- Tilings of a stretch
-- ---------------------------------------------------------------------------

/-- The blocks lie side by side from `start` to `stop`, each with a payload that a chunk
can have. -/
def Tiled : Nat → List Block → Nat → Prop
  | start, [], stop => start = stop
  | start, b :: rest, stop =>
    b.offset = start ∧ minPayload ≤ b.size ∧ b.size % Word.alignment = 0 ∧
      Tiled b.stop rest stop

variable {start middle stop : Nat} {a b c : Block} {pre post l l₁ l₂ : List Block}

theorem tiled_append :
    Tiled start (l₁ ++ l₂) stop ↔ ∃ middle, Tiled start l₁ middle ∧ Tiled middle l₂ stop := by
  induction l₁ generalizing start with
  | nil => simp [Tiled]
  | cons b rest ih =>
    simp only [List.cons_append, Tiled, ih]
    constructor
    · rintro ⟨hOffset, hMin, hMod, middle, hRest, hPost⟩
      exact ⟨middle, ⟨hOffset, hMin, hMod, hRest⟩, hPost⟩
    · rintro ⟨middle, ⟨hOffset, hMin, hMod, hRest⟩, hPost⟩
      exact ⟨hOffset, hMin, hMod, middle, hRest, hPost⟩

/-- Every block takes a header and the smallest payload at least. -/
theorem Tiled.length_le (h : Tiled start l stop) : start + 48 * l.length ≤ stop := by
  induction l generalizing start with
  | nil =>
    have : start = stop := h
    simp [this]
  | cons b rest ih =>
    obtain ⟨hOffset, hMin, -, hRest⟩ := h
    have := ih hRest
    have := sizes_eq
    unfold Block.stop at *
    rw [List.length_cons]
    omega

theorem Tiled.le (h : Tiled start l stop) : start ≤ stop := by
  have := h.length_le
  omega

/-- A block lies inside the stretch. -/
theorem Tiled.bounds (h : Tiled start l stop) (hb : b ∈ l) :
    start ≤ b.offset ∧ b.stop ≤ stop := by
  obtain ⟨pre, post, rfl⟩ := List.append_of_mem hb
  obtain ⟨middle, hPre, hOffset, -, -, hPost⟩ := tiled_append.mp h
  have := hPre.le
  have := hPost.le
  omega

/-- A block has a payload that a chunk can have. -/
theorem Tiled.payload (h : Tiled start l stop) (hb : b ∈ l) :
    minPayload ≤ b.size ∧ b.size % Word.alignment = 0 := by
  obtain ⟨pre, post, rfl⟩ := List.append_of_mem hb
  obtain ⟨middle, -, -, hMin, hMod, -⟩ := tiled_append.mp h
  exact ⟨hMin, hMod⟩

theorem Tiled.stop_aligned (h : Tiled start l stop) (hStart : start % Word.alignment = 0) :
    stop % Word.alignment = 0 := by
  induction l generalizing start with
  | nil =>
    have : start = stop := h
    rwa [← this]
  | cons b rest ih =>
    obtain ⟨hOffset, -, hMod, hRest⟩ := h
    refine ih hRest ?_
    unfold Block.stop headerSize
    unfold Word.alignment at *
    omega

/-- Blocks start at aligned offsets. -/
theorem Tiled.aligned (h : Tiled start l stop) (hStart : start % Word.alignment = 0)
    (hb : b ∈ l) : b.offset % Word.alignment = 0 := by
  obtain ⟨pre, post, rfl⟩ := List.append_of_mem hb
  obtain ⟨middle, hPre, hOffset, -⟩ := tiled_append.mp h
  rw [hOffset]
  exact hPre.stop_aligned hStart

theorem Block.offset_lt_stop (b : Block) : b.offset < b.stop := by
  have := sizes_eq
  unfold Block.stop
  omega

/-- Two blocks are the same or apart. -/
theorem Tiled.apart (h : Tiled start l stop) (hb : b ∈ l) (hc : c ∈ l) :
    b = c ∨ b.stop ≤ c.offset ∨ c.stop ≤ b.offset := by
  obtain ⟨pre, post, rfl⟩ := List.append_of_mem hb
  obtain ⟨middle, hPre, hOffset, hMin, hMod, hPost⟩ := tiled_append.mp h
  rcases List.mem_append.mp hc with hc | hc
  · have := (hPre.bounds hc).2
    exact Or.inr (Or.inr (by omega))
  · rcases List.mem_cons.mp hc with rfl | hc
    · exact Or.inl rfl
    · exact Or.inr (Or.inl (hPost.bounds hc).1)

theorem Tiled.sorted (h : Tiled start l stop) : l.Pairwise fun b c => b.stop ≤ c.offset := by
  induction l generalizing start with
  | nil => exact List.Pairwise.nil
  | cons b rest ih =>
    obtain ⟨-, -, -, hRest⟩ := h
    exact List.pairwise_cons.mpr ⟨fun c hc => (hRest.bounds hc).1, ih hRest⟩

/-- Blocks have distinct offsets. -/
theorem Tiled.distinct (h : Tiled start l stop) : (l.map Block.offset).Nodup := by
  refine List.pairwise_map.mpr (h.sorted.imp ?_)
  intro b c hbc
  have := b.offset_lt_stop
  omega

theorem offset_ne_of_distinct (h : ((pre ++ b :: post).map Block.offset).Nodup)
    (hc : c ∈ pre ++ post) : c.offset ≠ b.offset := by
  rw [List.map_append, List.map_cons, List.nodup_middle] at h
  rw [← List.map_append] at h
  intro hOffset
  exact (List.nodup_cons.mp h).1 (hOffset ▸ List.mem_map_of_mem hc)

/-- Blocks with distinct offsets are told apart by them. -/
theorem eq_of_distinct (h : (l.map Block.offset).Nodup) (hb : b ∈ l) (hc : c ∈ l)
    (hOffset : b.offset = c.offset) : b = c :=
  List.inj_on_of_nodup_map h hb hc hOffset

-- ---------------------------------------------------------------------------
-- Changing one or two blocks
-- ---------------------------------------------------------------------------

/-- Only the place and the size of a block matter. -/
theorem Tiled.mark (h : Tiled start (pre ++ b :: post) stop) (isFree : Bool) :
    Tiled start (pre ++ { b with isFree := isFree } :: post) stop := by
  rw [tiled_append] at h ⊢
  exact h

/-- Two neighbours can be merged. -/
theorem Tiled.join (h : Tiled start (pre ++ a :: b :: post) stop) :
    Tiled start (pre ++ a.join b :: post) stop := by
  rw [tiled_append] at h ⊢
  obtain ⟨middle, hPre, haOffset, haMin, haMod, hbOffset, hbMin, hbMod, hPost⟩ := h
  have hStop : (a.join b).stop = b.stop := by
    unfold Block.stop Block.join at *
    simp only
    omega
  refine ⟨middle, hPre, haOffset, ?_, ?_, ?_⟩
  · unfold Block.join
    simp only
    omega
  · unfold Block.join headerSize
    unfold Word.alignment at *
    simp only
    omega
  · rw [hStop]
    exact hPost

/-- A block of `need` bytes and the rest of `b` after it. -/
def Block.cut (b : Block) (need : Nat) : Block × Block :=
  ({ b with size := need },
    { offset := b.offset + headerSize + need
      size := b.size - need - headerSize
      isFree := true })

/-- A block can be cut when both parts get a payload. -/
theorem Tiled.cut {need : Nat} (h : Tiled start (pre ++ b :: post) stop)
    (hMin : minPayload ≤ need) (hMod : need % Word.alignment = 0)
    (hRest : need + headerSize < b.size) :
    Tiled start (pre ++ (b.cut need).1 :: (b.cut need).2 :: post) stop := by
  rw [tiled_append] at h ⊢
  obtain ⟨middle, hPre, hOffset, hbMin, hbMod, hPost⟩ := h
  have hStop : (b.cut need).2.stop = b.stop := by
    unfold Block.cut Block.stop headerSize at *
    simp only
    omega
  refine ⟨middle, hPre, hOffset, hMin, hMod, rfl, ?_, ?_, ?_⟩
  · unfold Block.cut headerSize minPayload at *
    unfold Word.alignment at *
    simp only
    omega
  · unfold Block.cut headerSize at *
    unfold Word.alignment at *
    simp only
    omega
  · rw [hStop]
    exact hPost

-- ---------------------------------------------------------------------------
-- Sums over blocks
-- ---------------------------------------------------------------------------

/-- Payload bytes of the free blocks. -/
def freeBytes (blocks : List Block) : Nat := ((blocks.filter (·.isFree)).map (·.size)).sum

/-- Payload bytes of the used blocks. -/
def usedBytes (blocks : List Block) : Nat := ((blocks.filter (!·.isFree)).map (·.size)).sum

@[simp] theorem freeBytes_nil : freeBytes [] = 0 := rfl

@[simp] theorem usedBytes_nil : usedBytes [] = 0 := rfl

@[simp] theorem freeBytes_append : freeBytes (l₁ ++ l₂) = freeBytes l₁ + freeBytes l₂ := by
  simp [freeBytes]

@[simp] theorem usedBytes_append : usedBytes (l₁ ++ l₂) = usedBytes l₁ + usedBytes l₂ := by
  simp [usedBytes]

@[simp] theorem freeBytes_cons :
    freeBytes (b :: l) = (if b.isFree then b.size else 0) + freeBytes l := by
  unfold freeBytes
  cases h : b.isFree <;> simp [h]

@[simp] theorem usedBytes_cons :
    usedBytes (b :: l) = (if b.isFree then 0 else b.size) + usedBytes l := by
  unfold usedBytes
  cases h : b.isFree <;> simp [h]

/-- Some of the blocks have at most as many free bytes as all of them. -/
theorem freeBytes_le_of_sublist (h : l₁.Sublist l₂) : freeBytes l₁ ≤ freeBytes l₂ :=
  ((h.filter _).map _).sum_le_sum fun _ _ => Nat.zero_le _

/-- Payloads and headers fill the stretch. -/
theorem Tiled.total (h : Tiled start l stop) :
    start + freeBytes l + usedBytes l + headerSize * l.length = stop := by
  induction l generalizing start with
  | nil =>
    have : start = stop := h
    simp [this]
  | cons b rest ih =>
    obtain ⟨hOffset, -, -, hRest⟩ := h
    have := ih hRest
    unfold Block.stop headerSize at *
    rw [List.length_cons, freeBytes_cons, usedBytes_cons]
    cases b.isFree <;> simp only [if_true, if_false, Bool.false_eq_true] <;> omega

-- ---------------------------------------------------------------------------
-- Neighbours
-- ---------------------------------------------------------------------------

/-- No two neighbours are both free. -/
def Coalesced (blocks : List Block) : Prop :=
  blocks.IsChain fun b c => ¬(b.isFree = true ∧ c.isFree = true)

/-- The block that a list begins with, if any, is used. -/
def UsedFirst (blocks : List Block) : Prop := ∀ b ∈ blocks.head?, b.isFree = false

/-- The block that a list ends with, if any, is used. -/
def UsedLast (blocks : List Block) : Prop := ∀ b ∈ blocks.getLast?, b.isFree = false

theorem coalesced_append_cons :
    Coalesced (pre ++ b :: post) ↔ Coalesced pre ∧ Coalesced post ∧
      (b.isFree = true → UsedLast pre ∧ UsedFirst post) := by
  unfold Coalesced UsedLast UsedFirst
  rw [List.isChain_append, List.isChain_cons]
  simp only [List.head?_cons, Option.mem_def, Option.some.injEq]
  constructor
  · rintro ⟨hPre, ⟨hNext, hPost⟩, hLast⟩
    refine ⟨hPre, hPost, fun hb => ⟨fun a ha => ?_, fun c hc => ?_⟩⟩
    · have := hLast a ha b rfl
      simpa [hb] using this
    · have := hNext c hc
      simpa [hb] using this
  · rintro ⟨hPre, hPost, hb⟩
    refine ⟨hPre, ⟨fun c hc hFree => ?_, hPost⟩, ?_⟩
    · have := (hb hFree.1).2 c hc
      rw [hFree.2] at this
      exact absurd this (by decide)
    · rintro a ha d rfl hFree
      have := (hb hFree.2).1 a ha
      rw [hFree.1] at this
      exact absurd this (by decide)

theorem coalesced_cons :
    Coalesced (b :: post) ↔ Coalesced post ∧ (b.isFree = true → UsedFirst post) := by
  have hSplit : Coalesced ([] ++ b :: post) ↔ _ := coalesced_append_cons
  have hNil : Coalesced [] ∧ UsedLast [] := ⟨List.isChain_nil, by simp [UsedLast]⟩
  rw [List.nil_append] at hSplit
  rw [hSplit]
  tauto

-- ---------------------------------------------------------------------------
-- Stacks of free blocks
-- ---------------------------------------------------------------------------

/-- The stacks with the one of class `k` changed by `f`. -/
def restack (stack : SizeClass → List Nat) (k : SizeClass) (f : List Nat → List Nat) :
    SizeClass → List Nat :=
  fun j => if j = k then f (stack j) else stack j

theorem restack_self (stack : SizeClass → List Nat) (k : SizeClass) (f : List Nat → List Nat) :
    restack stack k f k = f (stack k) := if_pos rfl

theorem subset_restack_cons (stack : SizeClass → List Nat) (k : SizeClass) (o : Nat)
    (j : SizeClass) : stack j ⊆ restack stack k (o :: ·) j := by
  rw [restack]
  split
  · exact List.subset_cons_self o (stack j)
  · exact List.Subset.refl _

/-- The stacks with the free block `b` on top of the one of its class. -/
def stackPush (stack : SizeClass → List Nat) (b : Block) : SizeClass → List Nat :=
  restack stack (SizeClass.ofSize b.size) (b.offset :: ·)

/-- The stacks without the free block `b`. -/
def stackErase (stack : SizeClass → List Nat) (b : Block) : SizeClass → List Nat :=
  restack stack (SizeClass.ofSize b.size) (·.erase b.offset)

/-- The free blocks, and nothing else, are on the stacks: each once, on the stack of the
class of its size. -/
structure Binned (blocks : List Block) (stack : SizeClass → List Nat) : Prop where
  nodup : ∀ k, (stack k).Nodup
  mem_iff : ∀ k o, o ∈ stack k ↔
    ∃ b ∈ blocks, b.isFree = true ∧ b.offset = o ∧ SizeClass.ofSize b.size = k

namespace Binned

variable {stack : SizeClass → List Nat}

/-- A used block is on no stack. -/
theorem used_iff (hb : b.isFree = false) :
    Binned (pre ++ b :: post) stack ↔ Binned (pre ++ post) stack := by
  have hMem : ∀ k o, (∃ c ∈ pre ++ b :: post, c.isFree = true ∧ c.offset = o ∧
        SizeClass.ofSize c.size = k) ↔
      ∃ c ∈ pre ++ post, c.isFree = true ∧ c.offset = o ∧ SizeClass.ofSize c.size = k := by
    intro k o
    constructor
    · rintro ⟨c, hc, hFree, hRest⟩
      refine ⟨c, ?_, hFree, hRest⟩
      have hcb : c ≠ b := by
        rintro rfl
        rw [hb] at hFree
        exact absurd hFree (by decide)
      simpa [hcb] using hc
    · rintro ⟨c, hc, hRest⟩
      exact ⟨c, by simp only [List.mem_append, List.mem_cons] at hc ⊢; tauto, hRest⟩
  constructor
  · rintro ⟨hNodup, hIff⟩
    exact ⟨hNodup, fun k o => (hIff k o).trans (hMem k o)⟩
  · rintro ⟨hNodup, hIff⟩
    exact ⟨hNodup, fun k o => (hIff k o).trans (hMem k o).symm⟩

/-- A free block is on the stack of its class. -/
theorem mem_of_free (h : Binned l stack) (hb : b ∈ l) (hFree : b.isFree = true) :
    b.offset ∈ stack (SizeClass.ofSize b.size) :=
  (h.mem_iff _ _).mpr ⟨b, hb, hFree, rfl, rfl⟩

/-- The offset of a block that is not among the stacked ones is on no stack. -/
theorem not_mem (h : Binned (pre ++ post) stack)
    (hDistinct : ((pre ++ b :: post).map Block.offset).Nodup) (k : SizeClass) :
    b.offset ∉ stack k := by
  intro hMem
  obtain ⟨c, hc, -, hOffset, -⟩ := (h.mem_iff _ _).mp hMem
  exact offset_ne_of_distinct hDistinct hc hOffset

/-- Stacking one more free block. -/
theorem push (h : Binned (pre ++ post) stack)
    (hDistinct : ((pre ++ b :: post).map Block.offset).Nodup) (hFree : b.isFree = true) :
    Binned (pre ++ b :: post) (stackPush stack b) := by
  constructor
  · intro k
    unfold stackPush restack
    split
    · exact List.nodup_cons.mpr ⟨h.not_mem hDistinct k, h.nodup k⟩
    · exact h.nodup k
  · intro k o
    have hIff := h.mem_iff k o
    unfold stackPush restack
    constructor
    · intro hMem
      have hCases : (o = b.offset ∧ k = SizeClass.ofSize b.size) ∨ o ∈ stack k := by
        split at hMem
        · next hk =>
          rcases List.mem_cons.mp hMem with ho | ho
          · exact Or.inl ⟨ho, hk⟩
          · exact Or.inr ho
        · exact Or.inr hMem
      rcases hCases with ⟨rfl, rfl⟩ | ho
      · exact ⟨b, by simp, hFree, rfl, rfl⟩
      · obtain ⟨c, hc, hRest⟩ := hIff.mp ho
        exact ⟨c, by simp only [List.mem_append, List.mem_cons] at hc ⊢; tauto, hRest⟩
    · rintro ⟨c, hc, hcFree, rfl, rfl⟩
      by_cases hcb : c = b
      · subst hcb
        rw [if_pos rfl]
        exact List.mem_cons_self
      · have hMem : c.offset ∈ stack (SizeClass.ofSize c.size) :=
          hIff.mpr ⟨c, by simpa [hcb] using hc, hcFree, rfl, rfl⟩
        split
        · exact List.mem_cons_of_mem _ hMem
        · exact hMem

/-- Taking a free block from its stack. -/
theorem erase (h : Binned (pre ++ b :: post) stack)
    (hDistinct : ((pre ++ b :: post).map Block.offset).Nodup) :
    Binned (pre ++ post) (stackErase stack b) := by
  constructor
  · intro k
    unfold stackErase restack
    split
    · exact (h.nodup k).erase _
    · exact h.nodup k
  · intro k o
    unfold stackErase restack
    constructor
    · intro hMem
      have ho : o ∈ stack k ∧ (k = SizeClass.ofSize b.size → o ≠ b.offset) := by
        split at hMem
        · exact ⟨List.mem_of_mem_erase hMem, fun _ ho => (h.nodup k).not_mem_erase (ho ▸ hMem)⟩
        · next hk => exact ⟨hMem, fun hk' => absurd hk' hk⟩
      obtain ⟨c, hc, hFree, rfl, rfl⟩ := (h.mem_iff _ _).mp ho.1
      have hcb : c ≠ b := by
        rintro rfl
        exact ho.2 rfl rfl
      exact ⟨c, by simpa [hcb] using hc, hFree, rfl, rfl⟩
    · rintro ⟨c, hc, hFree, rfl, rfl⟩
      have hMem : c.offset ∈ stack (SizeClass.ofSize c.size) :=
        h.mem_of_free (by simp only [List.mem_append, List.mem_cons] at hc ⊢; tauto) hFree
      split
      · exact (List.mem_erase_of_ne (offset_ne_of_distinct hDistinct hc)).mpr hMem
      · exact hMem

/-- No offset is on two stacks. -/
theorem class_eq (h : Binned l stack) (hDistinct : (l.map Block.offset).Nodup)
    {j k : SizeClass} {o : Nat} (hj : o ∈ stack j) (hk : o ∈ stack k) : j = k := by
  obtain ⟨b, hb, -, hbo, rfl⟩ := (h.mem_iff _ _).mp hj
  obtain ⟨c, hc, -, hco, rfl⟩ := (h.mem_iff _ _).mp hk
  rw [eq_of_distinct hDistinct hb hc (hbo.trans hco.symm)]

end Binned

-- ---------------------------------------------------------------------------
-- Counting stacked blocks
-- ---------------------------------------------------------------------------

/-- How many offsets are on all stacks together. -/
def stacked (stack : SizeClass → List Nat) : Nat := ∑ k, (stack k).length

/-- Changing one stack changes the total by as much. -/
theorem stacked_restack (stack : SizeClass → List Nat) (k : SizeClass)
    (f : List Nat → List Nat) :
    stacked (restack stack k f) + (stack k).length = stacked stack + (f (stack k)).length := by
  unfold stacked
  rw [← Finset.add_sum_erase Finset.univ _ (Finset.mem_univ k),
    ← Finset.add_sum_erase Finset.univ (fun k => (stack k).length) (Finset.mem_univ k)]
  have hRest : ∑ j ∈ Finset.univ.erase k, (restack stack k f j).length =
      ∑ j ∈ Finset.univ.erase k, (stack j).length := by
    apply Finset.sum_congr rfl
    intro j hj
    rw [restack, if_neg (Finset.ne_of_mem_erase hj)]
  rw [hRest, restack, if_pos rfl]
  omega

theorem length_le_stacked (stack : SizeClass → List Nat) (k : SizeClass) :
    (stack k).length ≤ stacked stack :=
  Finset.single_le_sum (f := fun k => (stack k).length) (fun _ _ => Nat.zero_le _)
    (Finset.mem_univ k)

/-- Counted class by class, the elements of a list are all there. -/
private theorem sum_length_filter_class (blocks : List Block) :
    ∑ k : SizeClass, (blocks.filter fun b => SizeClass.ofSize b.size = k).length =
      blocks.length := by
  induction blocks with
  | nil => simp
  | cons b rest ih =>
    have hCons : ∀ k : SizeClass,
        ((b :: rest).filter fun b => SizeClass.ofSize b.size = k).length =
          (if SizeClass.ofSize b.size = k then 1 else 0) +
            (rest.filter fun b => SizeClass.ofSize b.size = k).length := by
      intro k
      rw [List.filter_cons]
      by_cases h : SizeClass.ofSize b.size = k
      · simp [h, Nat.add_comm]
      · simp [h]
    rw [Finset.sum_congr rfl fun k _ => hCons k, Finset.sum_add_distrib, ih,
      Finset.sum_ite_eq, if_pos (Finset.mem_univ _), List.length_cons, Nat.add_comm]

/-- There are as many offsets on the stacks as there are free blocks. -/
theorem Binned.stacked_eq {stack : SizeClass → List Nat} (h : Binned l stack)
    (hDistinct : (l.map Block.offset).Nodup) :
    stacked stack = (l.filter (·.isFree)).length := by
  rw [← sum_length_filter_class, stacked]
  apply Finset.sum_congr rfl
  intro k _
  have hSub : (((l.filter (·.isFree)).filter fun b => SizeClass.ofSize b.size = k).map
      Block.offset).Nodup :=
    (((List.filter_sublist).trans List.filter_sublist).map _).nodup hDistinct
  have hPerm := (List.perm_ext_iff_of_nodup (h.nodup k) hSub).mpr fun o => by
    rw [h.mem_iff]
    simp only [List.mem_map, List.mem_filter, decide_eq_true_eq]
    constructor
    · rintro ⟨b, hb, hFree, ho, hClass⟩
      exact ⟨b, ⟨⟨hb, hFree⟩, hClass⟩, ho⟩
    · rintro ⟨b, ⟨⟨hb, hFree⟩, hClass⟩, ho⟩
      exact ⟨b, hb, hFree, ho, hClass⟩
  rw [hPerm.length_eq, List.length_map]

end RegionHeap
