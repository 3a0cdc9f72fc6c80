import RegionHeap.Proofs.Calls

/-!
# What freeing writes

A free writes links and one tag, and it writes them into headers of the chain and into the rings of
free chunks. No canary is written at all, and no tag but that of a free chunk. Links lead from where
the chain has such a field to where it has another one.

* `Region.Imprints`: a single write of this kind.
* `Holds.absorbNext_edits`, `Holds.settle_edits`: what the two merges write.
* `Represents.free_edits`: what a free writes.
* `Edits.content_cases`, `Edits.stamp_cases`: what becomes of a header that is in no writes' way.
-/

namespace RegionHeap

variable {r : Region} {m m' : Memory} {f g : Field} {o v y : Nat}
variable {a b c : Block} {blocks blocks' settled pre post p q : List Block}
variable {stack : SizeClass → List Nat} {s s' : Store} {t : Tiling}

-- ---------------------------------------------------------------------------
-- Fields that writes keep clear of
-- ---------------------------------------------------------------------------

/-- A field that no write overlaps in part holds what it held, or what was written into it. -/
theorem Region.Edits.content_cases {P : Nat → Field → Nat → Prop} {Q : Nat → Prop}
    (h : r.Edits P m m') (hClear : ∀ o f v, P o f v → Clear f o g y)
    (hValue : ∀ v, P y g v → v < 256 ^ g.width ∧ Q v) :
    r.content m' g y = r.content m g y ∨ Q (r.content m' g y) := by
  induction h with
  | refl => exact Or.inl rfl
  | @tail m₁ _ _ hStep ih =>
    obtain ⟨o, f, v, hP, hWrite⟩ := hStep
    obtain ⟨-, rfl⟩ := write_eq_ok_iff.mp hWrite
    by_cases hSame : y = o ∧ g = f
    · obtain ⟨rfl, rfl⟩ := hSame
      obtain ⟨hLt, hQ⟩ := hValue v hP
      have hWritten : r.content (r.put m₁ g y v) g y = v :=
        content_put_self.trans (Nat.mod_eq_of_lt hLt)
      exact Or.inr (hWritten.symm ▸ hQ)
    · have hApart := (hClear o f v hP).apart hSame
      unfold content at ih ⊢
      rwa [Memory.load_store_of_apart (by omega)]

-- ---------------------------------------------------------------------------
-- Places of a chain
-- ---------------------------------------------------------------------------

namespace Region

/-- A chain that begins no block where another one does not has no place that the other has not. -/
theorem Sited.mono (h : r.Sited blocks' f o)
    (hOffsets : blocks'.map Block.offset ⊆ blocks.map Block.offset) : r.Sited blocks f o := by
  obtain ⟨hMem, hReach⟩ := h
  have hBlock : (∃ b ∈ blocks', b.offset = o) → ∃ a ∈ blocks, a.offset = o := fun h =>
    List.mem_map.mp (hOffsets (List.mem_map.mpr h))
  refine ⟨mem_headers.mpr ?_, hReach.imp_right hBlock⟩
  exact (mem_headers.mp hMem).imp_right fun h => h.imp_left hBlock

/-- A write of a free: into a field of the chain that is no canary, and what is written is the tag
of a free chunk, or a link to where the chain has such a field too. -/
def Imprints (r : Region) (blocks : List Block) (o : Nat) (f : Field) (v : Nat) : Prop :=
  r.Sited blocks f o ∧ f ≠ .canary ∧
    if f = .tag then v = Mark.free.tag else r.Sited blocks f v

theorem Imprints.mono (h : r.Imprints blocks' o f v)
    (hOffsets : blocks'.map Block.offset ⊆ blocks.map Block.offset) : r.Imprints blocks o f v := by
  obtain ⟨hSited, hCanary, hValue⟩ := h
  refine ⟨hSited.mono hOffsets, hCanary, ?_⟩
  split
  · next hTag => rwa [if_pos hTag] at hValue
  · next hTag =>
    rw [if_neg hTag] at hValue
    exact hValue.mono hOffsets

theorem RingEdit.imprints {S : Nat → Prop} (h : RingEdit S o f v)
    (hS : ∀ x, S x → ∃ b ∈ blocks, b.offset = x) : r.Imprints blocks o f v := by
  obtain ⟨ho, hReach, hv⟩ := h
  obtain ⟨b, hb, rfl⟩ := hS o ho
  obtain ⟨c, hc, rfl⟩ := hS v hv
  refine ⟨sited_block hb, ?_, ?_⟩
  · rintro rfl
    exact absurd hReach (by decide)
  · rw [if_neg (by rintro rfl; exact absurd hReach (by decide))]
    exact sited_block hc

/-- Leaving the chain writes two links. -/
theorem Chained.unlink_edits (h : r.Chained m blocks) (ho : o ∈ r.headers blocks)
    (hUnlink : r.unlink m o = .ok m') : r.Edits (r.Imprints blocks) m m' := by
  have hPrevious := h.previous_mem ho
  have hNext := h.next_mem ho
  unfold Region.unlink at hUnlink
  rw [h.read_header ho rfl, ok_bind, h.read_header ho rfl, ok_bind] at hUnlink
  obtain ⟨m₁, hWrite, hWrite'⟩ := bind_eq_ok_iff.mp hUnlink
  obtain ⟨hReach, rfl⟩ := write_eq_ok_iff.mp hWrite
  obtain ⟨hReach', rfl⟩ := write_eq_ok_iff.mp hWrite'
  refine Edits.put (Edits.put (Edits.refl m) hReach ?_) hReach' ?_
  · exact ⟨sited_header hPrevious rfl, by decide, sited_header hNext rfl⟩
  · exact ⟨sited_header hNext rfl, by decide, sited_header hPrevious rfl⟩

/-- Marking a chunk as free writes a tag. -/
theorem setMark_edits (ho : o ∈ r.headers blocks) (hMark : r.setMark m o .free = .ok m') :
    r.Edits (r.Imprints blocks) m m' := by
  obtain ⟨hReach, rfl⟩ := write_eq_ok_iff.mp hMark
  exact Edits.put (Edits.refl m) hReach ⟨sited_header ho rfl, by decide, rfl⟩

/-- A header that all places of the chain keep clear of loses no canary, and gets no tag but that
of a free chunk. -/
theorem Edits.stamp_cases (h : r.Edits (r.Imprints blocks) m m')
    (hClear : ∀ f y, r.Sited blocks f y → ∀ g : Field, g.reach = headerSize → Clear f y g o) :
    r.content m' .canary o = r.content m .canary o ∧
      (r.content m' .tag o = r.content m .tag o ∨ r.content m' .tag o = Mark.free.tag) := by
  constructor
  · refine h.content_eq fun y f v hx => ⟨hClear f y hx.1 .canary rfl, ?_⟩
    rintro ⟨-, rfl⟩
    exact hx.2.1 rfl
  · refine h.content_cases (Q := (· = Mark.free.tag)) (fun y f v hx => hClear f y hx.1 .tag rfl)
      fun v hx => ?_
    obtain rfl : v = Mark.free.tag := by simpa using hx.2.2
    exact ⟨Mark.tag_lt _, rfl⟩

end Region

-- ---------------------------------------------------------------------------
-- The steps of a release
-- ---------------------------------------------------------------------------

namespace Store

/-- A release lifts the chunk, absorbs its successor and settles it. -/
theorem release_inv {size : Nat} (hSize : r.chunkSize s.memory o = .ok size)
    (hRelease : s.release r o = .ok s') :
    ∃ s₁, (s.lifted size).absorbNext r o = .ok s₁ ∧ s₁.settle r o = .ok s' := by
  unfold Store.release at hRelease
  rw [hSize, ok_bind] at hRelease
  obtain ⟨usedBytes, hSub, hRelease⟩ := bind_eq_ok_iff.mp hRelease
  obtain ⟨-, rfl⟩ := Word.sub_eq_ok_iff.mp hSub
  obtain ⟨frees, hAdd, hRelease⟩ := bind_eq_ok_iff.mp hRelease
  obtain ⟨rfl, -⟩ := Word.add_eq_ok_iff.mp hAdd
  exact bind_eq_ok_iff.mp hRelease

namespace Holds

theorem unfile_edits (h : s.Holds r blocks (p ++ c :: q) stack) (hFree : c.isFree = true)
    (hUnfile : s.unfile r c.offset = .ok s') :
    r.Edits (r.Imprints blocks) s.memory s'.memory := by
  obtain ⟨bins, m, hDetach, -, hEdits⟩ :=
    h.filed.detach h.placed (h.binned.mem_of_free (b := c) (by simp) hFree)
  unfold Store.unfile Bins.remove at hUnfile
  rw [h.chained.chunkSize_eq (h.sub.subset (by simp)), ok_bind, hDetach, ok_bind] at hUnfile
  obtain ⟨size, -, hUnfile⟩ := bind_eq_ok_iff.mp hUnfile
  obtain ⟨freeBytes, -, hUnfile⟩ := bind_eq_ok_iff.mp hUnfile
  obtain rfl := Except.ok.inj hUnfile
  refine hEdits.mono fun x f v hx => hx.imprints fun y hy => ?_
  obtain ⟨b, hb, -, hOffset, -⟩ := h.exists_free hy
  exact ⟨b, h.sub.subset hb, hOffset⟩

theorem file_edits (h : s.Holds r blocks (p ++ q) stack) (hSub : (p ++ b :: q).Sublist blocks)
    (hFree : b.isFree = true) (hFile : s.file r b.offset = .ok s') :
    r.Edits (r.Imprints blocks) s.memory s'.memory := by
  have hDistinct := (hSub.map Block.offset).nodup h.tiled.distinct
  have hb : b ∈ blocks := hSub.subset (by simp)
  obtain ⟨bins, m, hPush, -, hEdits⟩ :=
    h.filed.push rfl (h.chained.chunkSize_eq hb)
      ((h.binned.push hDistinct hFree).placed h.tiled hSub)
      (fun k => h.binned.not_mem hDistinct k) (h.count_lt hSub)
  obtain ⟨_, _, size, freeBytes, hPush', -, -, rfl⟩ := file_eq_ok hFile
  obtain ⟨rfl, rfl⟩ := Prod.mk.inj (Except.ok.inj (hPush.symm.trans hPush'))
  refine hEdits.mono fun x f v hx => hx.imprints fun y hy => ?_
  rcases hy with rfl | hy
  · exact ⟨b, hb, rfl⟩
  · obtain ⟨d, hd, -, hOffset, -⟩ := h.exists_free hy
    exact ⟨d, h.sub.subset hd, hOffset⟩

theorem dropHeader_edits (h : s.Holds r blocks settled stack) (ho : o ∈ r.headers blocks)
    (hDrop : s.dropHeader r o = .ok s') : r.Edits (r.Imprints blocks) s.memory s'.memory := by
  obtain ⟨m, hUnlink, hDrop⟩ := bind_eq_ok_iff.mp hDrop
  obtain ⟨metaBytes, -, hDrop⟩ := bind_eq_ok_iff.mp hDrop
  obtain rfl := Except.ok.inj hDrop
  exact h.chained.unlink_edits ho hUnlink

/-- Absorbing the successor writes two ring links and two links. -/
theorem absorbNext_edits (h : s.Holds r (pre ++ b :: post) (pre ++ post) stack)
    (hAbsorb : s.absorbNext r b.offset = .ok s') :
    r.Edits (r.Imprints (pre ++ b :: post)) s.memory s'.memory := by
  have hb : b ∈ pre ++ b :: post := by simp
  unfold Store.absorbNext at hAbsorb
  rw [h.chained.read_header (Region.offset_mem_headers hb) rfl, ok_bind, h.chained.next_eq hb]
    at hAbsorb
  rcases free_or_usedFirst post with ⟨next, rest, rfl, hFree⟩ | hUsed
  · have hStop : next.offset = b.stop := by
      obtain ⟨middle, -, -, -, -, hPost⟩ := tiled_append.mp h.tiled
      exact hPost.1
    obtain ⟨s₁, hUnfile, h₁, -⟩ := h.unfile [] hFree (List.forall_mem_nil _)
    rw [← hStop, h.chained.isFree_eq (b := next) (by simp), ok_bind, if_pos hFree, hUnfile,
      ok_bind] at hAbsorb
    exact (h.unfile_edits hFree hUnfile).trans
      (h₁.dropHeader_edits (Region.offset_mem_headers (by simp)) hAbsorb)
  · rw [h.isFree_next_used hUsed, ok_bind] at hAbsorb
    obtain rfl := Except.ok.inj hAbsorb
    exact Region.Edits.refl _

/-- Settling writes the tag, and links of the chain only if the predecessor is free. -/
theorem settle_edits (h : s.Holds r (pre ++ b :: post) (pre ++ post) stack)
    (hSettle : s.settle r b.offset = .ok s') :
    r.Edits (r.Imprints (pre ++ b :: post)) s.memory s'.memory := by
  have hHeader : b.offset ∈ r.headers (pre ++ b :: post) := Region.offset_mem_headers (by simp)
  unfold Store.settle at hSettle
  rw [h.chained.read_header hHeader rfl, ok_bind] at hSettle
  rcases free_or_usedLast pre with ⟨front, a, rfl, hFree⟩ | hUsed
  · -- the predecessor leaves its ring, the header is marked and dropped, and the whole is filed
    have hAssoc : ∀ l : List Block, front ++ [a] ++ l = front ++ a :: l := by simp
    rw [hAssoc, hAssoc] at h
    rw [hAssoc] at hHeader ⊢
    obtain ⟨s₁, hUnfile, h₁, -⟩ := h.unfile [] hFree (List.forall_mem_nil _)
    rw [h.chained.link_eq.2, h.chained.isFree_eq (b := a) (by simp), ok_bind, if_pos hFree,
      hUnfile, ok_bind] at hSettle
    obtain ⟨m, hMark, hSettle⟩ := bind_eq_ok_iff.mp hSettle
    obtain ⟨s₃, hDrop, hFile⟩ := bind_eq_ok_iff.mp hSettle
    rw [← hAssoc] at h₁
    obtain ⟨m', hMark', h₂, -⟩ := h₁.marked []
      ((List.sublist_append_left front [a]).append_right post) (List.forall_mem_nil _) true
      (by simp)
    obtain rfl := Except.ok.inj (hMark.symm.trans hMark')
    rw [hAssoc] at h₂
    obtain ⟨s₃', hDrop', h₃, -⟩ := h₂.dropHeader [] (List.Sublist.refl _) (List.forall_mem_nil _)
    obtain rfl := Except.ok.inj (hDrop.symm.trans hDrop')
    have hDropEdits := h₂.dropHeader_edits (o := b.offset)
      (Region.offset_mem_headers (b := { b with isFree := true }) (by simp)) hDrop
    have hFileEdits := h₃.file_edits (b := a.join { b with isFree := true })
      (List.Sublist.refl _) hFree hFile
    refine (h.unfile_edits hFree hUnfile).trans <| (Region.setMark_edits hHeader hMark).trans <|
      (hDropEdits.mono fun _ _ _ hx => hx.mono ?_).trans <|
        hFileEdits.mono fun _ _ _ hx => hx.mono ?_
    · simp
    · simp only [List.map_append, List.map_cons]
      exact (((List.sublist_cons_self b.offset _).cons_cons a.offset).append_left _).subset
  · rw [h.isFree_previous_used hUsed, ok_bind, if_neg (by decide)] at hSettle
    obtain ⟨m, hMark, hFile⟩ := bind_eq_ok_iff.mp hSettle
    obtain ⟨m', hMark', h₁, -⟩ := h.marked [] (List.Sublist.refl _) (List.forall_mem_nil _) true
      (by simp)
    obtain rfl := Except.ok.inj (hMark.symm.trans hMark')
    have hFileEdits :=
      h₁.file_edits (b := { b with isFree := true }) (List.Sublist.refl _) rfl hFile
    refine (Region.setMark_edits hHeader hMark).trans (hFileEdits.mono fun _ _ _ hx => hx.mono ?_)
    simp

/-- **Releasing** a used block writes nothing but links and the tag. -/
theorem release_edits (h : s.Holds r (pre ++ b :: post) (pre ++ b :: post) stack)
    (hUsed : b.isFree = false) (hRelease : s.release r b.offset = .ok s') :
    r.Edits (r.Imprints (pre ++ b :: post)) s.memory s'.memory := by
  obtain ⟨s₁, hAbsorb, hSettle⟩ := release_inv (h.chained.chunkSize_eq (by simp)) hRelease
  obtain ⟨stack₁, b₁, post₁, s₁', hNext, hAbsorb', h₁, hOffset, -⟩ :=
    (h.lifted hUsed).absorbNext (List.forall_mem_nil _)
  obtain rfl := Except.ok.inj (hAbsorb.symm.trans hAbsorb')
  rw [← hOffset] at hSettle
  refine ((h.lifted hUsed).absorbNext_edits hAbsorb).trans <|
    (h₁.settle_edits hSettle).mono fun _ _ _ hx => hx.mono ?_
  -- the merged block begins where `b` does, and no block comes after it that did not before
  have hSubset := mergeNext_subset stack b post
  rw [hNext] at hSubset
  simp only [List.map_append, List.map_cons, hOffset]
  exact List.append_subset.mpr ⟨List.subset_append_left _ _, List.subset_append_of_subset_right _
    (List.cons_subset_cons _ (List.map_subset _ hSubset))⟩

end Holds

/-- **Freeing** a used block writes nothing but links and the tag. -/
theorem Represents.free_edits (h : s.Represents r t) (hb : b ∈ t.used)
    (hFree : s.free (r.payload b.offset) = .ok (.ok (), s')) :
    r.Edits (r.Imprints t.blocks) s.memory s'.memory := by
  obtain ⟨hMem, hUsed⟩ := Tiling.mem_used.mp hb
  obtain ⟨pre, post, hBlocks⟩ := List.append_of_mem hMem
  have hHolds := h.holds
  rw [hBlocks] at hHolds ⊢
  unfold Store.free at hFree
  simp only [h.holds.region] at hFree
  rw [resolve_of_passes (h.passes hb), ok_bind] at hFree
  obtain ⟨s₁, hRelease, hFree⟩ := bind_eq_ok_iff.mp hFree
  obtain ⟨-, rfl⟩ := Prod.mk.inj (Except.ok.inj hFree)
  exact hHolds.release_edits hUsed hRelease

end Store

end RegionHeap
