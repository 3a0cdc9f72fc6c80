import RegionHeap.Proofs.Blocks
import RegionHeap.Proofs.SizeClass

/-!
# Tilings, block by block

`Tiling.allocate` and `Tiling.free` look their block up by its offset. Once the block is
known, with the blocks before it and after it, what they do is a change of two lists and of
the stacks.

* `Tiling.use_eq`: a free block is taken, in one piece or cut in two.
* `Tiling.servingClass?_spec`, `Tiling.allocate_inv`: which block an allocation uses.
* `Tiling.free_eq`: a used block is merged with a free successor (`mergeNext`), then with a
  free predecessor (`mergePrevious`), and pushed.
* `Coalesced.take`, `Coalesced.freed`: neither leaves two free neighbours.
* `Tiling.used`: the blocks that are handed out, and what each operation does to them.
-/

namespace RegionHeap

variable {a b c : Block} {blocks pre post : List Block} {need o : Nat}
variable {stack : SizeClass → List Nat}

-- ---------------------------------------------------------------------------
-- Looking a block up
-- ---------------------------------------------------------------------------

theorem find?_offset (hDistinct : ((pre ++ b :: post).map Block.offset).Nodup) :
    (pre ++ b :: post).find? (·.offset = b.offset) = some b := by
  refine List.find?_eq_some_iff_append.mpr ⟨by simp, pre, post, rfl, fun c hc => ?_⟩
  simp [offset_ne_of_distinct hDistinct (List.mem_append_left _ hc)]

theorem takeWhile_offset (hDistinct : ((pre ++ b :: post).map Block.offset).Nodup) :
    (pre ++ b :: post).takeWhile (·.offset ≠ b.offset) = pre := by
  have hPre : ∀ c ∈ pre, decide (c.offset ≠ b.offset) = true := fun c hc => by
    simp [offset_ne_of_distinct hDistinct (List.mem_append_left _ hc)]
  rw [List.takeWhile_append_of_pos hPre, List.takeWhile_cons_of_neg (by simp), List.append_nil]

theorem dropWhile_offset (hDistinct : ((pre ++ b :: post).map Block.offset).Nodup) :
    (pre ++ b :: post).dropWhile (·.offset ≠ b.offset) = b :: post := by
  have hPre : ∀ c ∈ pre, decide (c.offset ≠ b.offset) = true := fun c hc => by
    simp [offset_ne_of_distinct hDistinct (List.mem_append_left _ hc)]
  rw [List.dropWhile_append_of_pos hPre, List.dropWhile_cons_of_neg (by simp)]

/-- Replacing the block at one offset leaves blocks at other offsets alone. -/
private theorem flatMap_offset_of_ne {pieces : List Block} {l : List Block}
    (h : ∀ c ∈ l, c.offset ≠ o) :
    (l.flatMap fun c => if c.offset = o then pieces else [c]) = l := by
  induction l with
  | nil => rfl
  | cons c rest ih =>
    rw [List.flatMap_cons, if_neg (h c List.mem_cons_self),
      ih fun d hd => h d (List.mem_cons_of_mem c hd)]
    rfl

theorem flatMap_offset {pieces : List Block}
    (hDistinct : ((pre ++ b :: post).map Block.offset).Nodup) :
    ((pre ++ b :: post).flatMap fun c => if c.offset = b.offset then pieces else [c]) =
      pre ++ pieces ++ post := by
  have hOther := fun c hc => offset_ne_of_distinct (c := c) hDistinct hc
  rw [List.flatMap_append, List.flatMap_cons, if_pos rfl,
    flatMap_offset_of_ne fun c hc => hOther c (List.mem_append_left _ hc),
    flatMap_offset_of_ne fun c hc => hOther c (List.mem_append_right _ hc), List.append_assoc]

-- ---------------------------------------------------------------------------
-- Using a block
-- ---------------------------------------------------------------------------

theorem Block.take_whole (h : b.size ≤ need + headerSize) :
    b.take need = [{ b with isFree := false }] := if_pos h

theorem Block.take_cut (h : need + headerSize < b.size) :
    b.take need = [{ (b.cut need).1 with isFree := false }, (b.cut need).2] :=
  if_neg (by omega)

/-- The stacks after the free block `b` was used for `need` bytes. -/
def stackTake (stack : SizeClass → List Nat) (b : Block) (need : Nat) : SizeClass → List Nat :=
  if b.size ≤ need + headerSize then stackErase stack b
  else stackPush (stackErase stack b) (b.cut need).2

namespace Tiling

/-- **Using** a block puts what it becomes in its place. -/
theorem use_eq {t : Tiling} (hDistinct : (t.blocks.map Block.offset).Nodup)
    (hBlocks : t.blocks = pre ++ b :: post) (need : Nat) : t.use b.offset need =
      { blocks := pre ++ b.take need ++ post, stack := stackTake t.stack b need } := by
  rw [hBlocks] at hDistinct
  unfold use
  simp only [hBlocks, find?_offset hDistinct]
  show ((b.take need).filter (·.isFree)).foldl file
    { blocks := t.blocks.flatMap fun c => if c.offset = b.offset then b.take need else [c]
      stack := stackErase t.stack b } = _
  rw [hBlocks, flatMap_offset hDistinct]
  by_cases hWhole : b.size ≤ need + headerSize
  · rw [stackTake, if_pos hWhole, Block.take_whole hWhole]
    rfl
  · rw [stackTake, if_neg hWhole, Block.take_cut (by omega)]
    rfl

/-- The class that serves a request covers it and has a block, and no lower one does. -/
theorem servingClass?_spec {t : Tiling} {k : SizeClass} (h : t.servingClass? need = some k) :
    need ≤ 2 ^ k.val ∧ t.stack k ≠ [] ∧
      ∀ j : SizeClass, need ≤ 2 ^ j.val → t.stack j ≠ [] → k ≤ j := by
  have hFound := List.find?_some h
  simp only [Bool.and_eq_true, decide_eq_true_eq, Bool.not_eq_true',
    List.isEmpty_eq_false_iff] at hFound
  refine ⟨hFound.1, hFound.2, fun j hCovers hStack => SizeClass.le_of_find? h ?_⟩
  simp [hCovers, hStack]

/-- No class serves a request if those that cover it have no block. -/
theorem servingClass?_eq_none_iff {t : Tiling} :
    t.servingClass? need = none ↔ ∀ k : SizeClass, need ≤ 2 ^ k.val → t.stack k = [] := by
  unfold servingClass?
  rw [List.find?_eq_none]
  constructor
  · intro h k hCovers
    simpa [hCovers] using h k (List.mem_finRange k)
  · intro h k _
    simp only [Bool.and_eq_true, decide_eq_true_eq, Bool.not_eq_true',
      List.isEmpty_eq_false_iff, not_and, not_not]
    exact h k

/-- An allocation uses the block on top of the stack of the class that serves it. -/
theorem allocate_inv {t t' : Tiling} {size : Nat} (h : t.allocate size = some (o, t')) :
    ∃ need k rest, payloadNeed? size = some need ∧ t.servingClass? need = some k ∧
      t.stack k = o :: rest ∧ t.use o need = t' := by
  unfold allocate at h
  simp only [bind, pure, Option.bind_eq_some_iff] at h
  obtain ⟨need, hNeed, k, hClass, top, hTop, hServed⟩ := h
  obtain ⟨rfl, hUse⟩ := Prod.mk.inj (Option.some.inj hServed)
  obtain ⟨rest, hStack⟩ := List.head?_eq_some_iff.mp hTop
  exact ⟨need, k, rest, hNeed, hClass, hStack, hUse⟩

end Tiling

/-- Using a free block leaves no two free neighbours. -/
theorem Coalesced.take (h : Coalesced (pre ++ b :: post)) (hFree : b.isFree = true) :
    Coalesced (pre ++ b.take need ++ post) := by
  obtain ⟨hPre, hPost, hNeighbours⟩ := coalesced_append_cons.mp h
  obtain ⟨-, hFirst⟩ := hNeighbours hFree
  by_cases hWhole : b.size ≤ need + headerSize
  · rw [Block.take_whole hWhole, List.append_assoc]
    exact coalesced_append_cons.mpr ⟨hPre, hPost, fun hUsed => absurd hUsed (by simp)⟩
  · rw [Block.take_cut (by omega), List.append_assoc]
    refine coalesced_append_cons.mpr ⟨hPre, ?_, fun hUsed => absurd hUsed (by simp)⟩
    exact coalesced_cons.mpr ⟨hPost, fun _ => hFirst⟩

-- ---------------------------------------------------------------------------
-- Merging with neighbours
-- ---------------------------------------------------------------------------

/-- A free successor is merged into `b`: the stacks, the merged block, and the blocks
after it. -/
def mergeNext (stack : SizeClass → List Nat) (b : Block) (post : List Block) :
    (SizeClass → List Nat) × Block × List Block :=
  match post with
  | next :: rest =>
    if next.isFree then (stackErase stack next, b.join next, rest) else (stack, b, post)
  | [] => (stack, b, post)

/-- `b` is merged into a free predecessor: the stacks, the blocks before the merged block,
and that block. -/
def mergePrevious (stack : SizeClass → List Nat) (pre : List Block) (b : Block) :
    (SizeClass → List Nat) × List Block × Block :=
  match pre.getLast? with
  | some previous =>
    if previous.isFree then (stackErase stack previous, pre.dropLast, previous.join b)
    else (stack, pre, b)
  | none => (stack, pre, b)

theorem mergeNext_free {next : Block} (h : next.isFree = true) :
    mergeNext stack b (next :: post) = (stackErase stack next, b.join next, post) := if_pos h

theorem mergeNext_used (h : UsedFirst post) : mergeNext stack b post = (stack, b, post) := by
  cases post with
  | nil => rfl
  | cons next rest => exact if_neg (by simp [h next rfl])

theorem mergePrevious_free (h : a.isFree = true) :
    mergePrevious stack (pre ++ [a]) b = (stackErase stack a, pre, a.join b) := by
  unfold mergePrevious
  simp [h]

theorem mergePrevious_used (h : UsedLast pre) : mergePrevious stack pre b = (stack, pre, b) := by
  unfold mergePrevious
  cases hLast : pre.getLast? with
  | none => rfl
  | some previous => simp [h previous hLast]

/-- A list of blocks begins with a free block or with none. -/
theorem free_or_usedFirst (blocks : List Block) :
    (∃ next rest, blocks = next :: rest ∧ next.isFree = true) ∨ UsedFirst blocks := by
  cases blocks with
  | nil => exact Or.inr (by simp [UsedFirst])
  | cons next rest =>
    cases hFree : next.isFree with
    | true => exact Or.inl ⟨next, rest, rfl, hFree⟩
    | false => exact Or.inr (by simp [UsedFirst, hFree])

/-- A list of blocks ends with a free block or with none. -/
theorem free_or_usedLast (blocks : List Block) :
    (∃ rest previous, blocks = rest ++ [previous] ∧ previous.isFree = true) ∨
      UsedLast blocks := by
  rcases List.eq_nil_or_concat' blocks with rfl | ⟨rest, previous, rfl⟩
  · exact Or.inr (by simp [UsedLast])
  · cases hFree : previous.isFree with
    | true => exact Or.inl ⟨rest, previous, rfl, hFree⟩
    | false => exact Or.inr (by simp [UsedLast, hFree])

/-- Merging with the successor leaves `b` where it begins. -/
theorem mergeNext_offset (stack : SizeClass → List Nat) (b : Block) (post : List Block) :
    (mergeNext stack b post).2.1.offset = b.offset := by
  rcases free_or_usedFirst post with ⟨next, rest, rfl, hNext⟩ | hNext
  · rw [mergeNext_free hNext]
    rfl
  · rw [mergeNext_used hNext]

/-- Merging with the predecessor makes a block that begins where `b` does, or the predecessor. -/
theorem mergePrevious_offset (stack : SizeClass → List Nat) (pre : List Block) (b : Block) :
    (mergePrevious stack pre b).2.2.offset = b.offset ∨
      ∃ a ∈ pre, a.offset = (mergePrevious stack pre b).2.2.offset := by
  rcases free_or_usedLast pre with ⟨front, previous, rfl, hPrevious⟩ | hPrevious
  · rw [mergePrevious_free hPrevious]
    exact Or.inr ⟨previous, by simp, rfl⟩
  · rw [mergePrevious_used hPrevious]
    exact Or.inl rfl

/-- Blocks that are not merged stay as they are. -/
theorem mergeNext_subset (stack : SizeClass → List Nat) (b : Block) (post : List Block) :
    (mergeNext stack b post).2.2 ⊆ post := by
  rcases free_or_usedFirst post with ⟨next, rest, rfl, hNext⟩ | hNext
  · rw [mergeNext_free hNext]
    exact List.subset_cons_self next rest
  · rw [mergeNext_used hNext]
    exact List.Subset.refl post

theorem mergePrevious_subset (stack : SizeClass → List Nat) (pre : List Block) (b : Block) :
    (mergePrevious stack pre b).2.1 ⊆ pre := by
  rcases free_or_usedLast pre with ⟨front, previous, rfl, hPrevious⟩ | hPrevious
  · rw [mergePrevious_free hPrevious]
    exact List.subset_append_left front [previous]
  · rw [mergePrevious_used hPrevious]
    exact List.Subset.refl pre

namespace Tiling

/-- What freeing `b` makes of the blocks around it. -/
def freed (stack : SizeClass → List Nat) (pre : List Block) (b : Block) (post : List Block) :
    Tiling :=
  let (stack, b, post) := mergeNext stack b post
  let (stack, pre, b) := mergePrevious stack pre b
  let merged := { b with isFree := true }
  { blocks := pre ++ merged :: post, stack := stackPush stack merged }

theorem release_eq (t : Tiling) : t.release pre b post = freed t.stack pre b post := by
  unfold release freed mergeNext mergePrevious
  cases post with
  | nil =>
    cases pre.getLast? with
    | none => rfl
    | some previous =>
      cases hPrevious : previous.isFree <;>
        simp only [hPrevious, if_true, Bool.false_eq_true, if_false] <;> rfl
  | cons next rest =>
    cases pre.getLast? with
    | none =>
      cases hNext : next.isFree <;>
        simp only [hNext, if_true, Bool.false_eq_true, if_false] <;> rfl
    | some previous =>
      cases hNext : next.isFree <;> cases hPrevious : previous.isFree <;>
        simp only [hNext, hPrevious, if_true, Bool.false_eq_true, if_false] <;> rfl

/-- **Freeing** a block merges it with its free neighbours. -/
theorem free_eq (hDistinct : ((pre ++ b :: post).map Block.offset).Nodup) :
    free { blocks := pre ++ b :: post, stack := stack } b.offset = freed stack pre b post := by
  unfold free
  simp only [dropWhile_offset hDistinct, takeWhile_offset hDistinct]
  exact release_eq _

/-- The blocks that are handed out, in address order. -/
def used (t : Tiling) : List Block := t.blocks.filter (!·.isFree)

end Tiling

/-- Freeing a block leaves no two free neighbours. -/
theorem Coalesced.freed (h : Coalesced (pre ++ b :: post)) :
    Coalesced (Tiling.freed stack pre b post).blocks := by
  obtain ⟨hPre, hPost, -⟩ := coalesced_append_cons.mp h
  -- what is left after the merged block does not begin with a free one
  have hAfter : ∀ stack : SizeClass → List Nat,
      Coalesced (mergeNext stack b post).2.2 ∧ UsedFirst (mergeNext stack b post).2.2 := by
    intro stack
    rcases free_or_usedFirst post with ⟨next, rest, rfl, hNext⟩ | hNext
    · rw [mergeNext_free hNext]
      obtain ⟨hRest, hNeighbours⟩ := coalesced_cons.mp hPost
      exact ⟨hRest, hNeighbours hNext⟩
    · rw [mergeNext_used hNext]
      exact ⟨hPost, hNext⟩
  have hBefore : ∀ (stack : SizeClass → List Nat) (b : Block),
      Coalesced (mergePrevious stack pre b).2.1 ∧ UsedLast (mergePrevious stack pre b).2.1 := by
    intro stack b
    rcases free_or_usedLast pre with ⟨front, previous, rfl, hPrevious⟩ | hPrevious
    · rw [mergePrevious_free hPrevious]
      obtain ⟨hFront, -, hNeighbours⟩ := coalesced_append_cons.mp hPre
      exact ⟨hFront, (hNeighbours hPrevious).1⟩
    · rw [mergePrevious_used hPrevious]
      exact ⟨hPre, hPrevious⟩
  exact coalesced_append_cons.mpr
    ⟨(hBefore _ _).1, (hAfter stack).1, fun _ => ⟨(hBefore _ _).2, (hAfter stack).2⟩⟩

-- ---------------------------------------------------------------------------
-- The blocks that are handed out
-- ---------------------------------------------------------------------------

namespace Tiling

theorem mem_used {t : Tiling} : b ∈ t.used ↔ b ∈ t.blocks ∧ b.isFree = false := by
  simp [used]

/-- The blocks on the two sides of a used block, and what freeing it makes of them. -/
theorem exists_free_eq_freed {t : Tiling} (hDistinct : (t.blocks.map Block.offset).Nodup)
    (hb : b ∈ t.used) : ∃ pre post, t.blocks = pre ++ b :: post ∧
      t.free b.offset = freed t.stack pre b post := by
  obtain ⟨hMem, -⟩ := mem_used.mp hb
  obtain ⟨pre, post, hBlocks⟩ := List.append_of_mem hMem
  rw [hBlocks] at hDistinct
  refine ⟨pre, post, hBlocks, ?_⟩
  rw [← free_eq hDistinct, ← hBlocks]

/-- Using a free block hands one more block out, large enough. -/
theorem used_take {t : Tiling} (hBlocks : t.blocks = pre ++ b :: post) (hFree : b.isFree = true)
    (hNeed : need ≤ b.size) {stack' : SizeClass → List Nat} :
    ∃ c, c.offset = b.offset ∧ c.isFree = false ∧ need ≤ c.size ∧
      (used { blocks := pre ++ b.take need ++ post, stack := stack' }).Perm (c :: t.used) := by
  unfold used
  rw [hBlocks]
  by_cases hWhole : b.size ≤ need + headerSize
  · refine ⟨{ b with isFree := false }, rfl, rfl, hNeed, ?_⟩
    rw [Block.take_whole hWhole]
    simp only [List.append_assoc, List.filter_append, List.filter_cons, hFree, Bool.not_false,
      Bool.not_true, if_true, Bool.false_eq_true, if_false, List.singleton_append]
    exact List.perm_middle
  · refine ⟨{ (b.cut need).1 with isFree := false }, rfl, rfl, Nat.le_refl _, ?_⟩
    rw [Block.take_cut (by omega)]
    simp only [Block.cut, List.append_assoc, List.filter_append, List.filter_cons,
      List.filter_nil, hFree, Bool.not_false, Bool.not_true, if_true, Bool.false_eq_true,
      if_false, List.singleton_append]
    exact List.perm_middle

/-- Freeing a block takes none of the others back. -/
theorem used_freed : (freed stack pre b post).used = (pre ++ post).filter (!·.isFree) := by
  have hAfter : ((mergeNext stack b post).2.2).filter (!·.isFree) = post.filter (!·.isFree) := by
    rcases free_or_usedFirst post with ⟨next, rest, rfl, hNext⟩ | hNext
    · rw [mergeNext_free hNext]
      simp [hNext]
    · rw [mergeNext_used hNext]
  have hBefore : ∀ (stack : SizeClass → List Nat) (b : Block),
      ((mergePrevious stack pre b).2.1).filter (!·.isFree) = pre.filter (!·.isFree) := by
    intro stack b
    rcases free_or_usedLast pre with ⟨front, previous, rfl, hPrevious⟩ | hPrevious
    · rw [mergePrevious_free hPrevious]
      simp [hPrevious]
    · rw [mergePrevious_used hPrevious]
  unfold used freed
  simp [hAfter, hBefore]

/-- A used block and the others that are handed out. -/
theorem used_append_cons (hUsed : b.isFree = false) :
    (used { blocks := pre ++ b :: post, stack := stack }).Perm
      (b :: (pre ++ post).filter (!·.isFree)) := by
  unfold used
  rw [List.filter_append, List.filter_append, List.filter_cons_of_pos (by simp [hUsed])]
  exact List.perm_middle

end Tiling

end RegionHeap
