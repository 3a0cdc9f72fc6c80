import RegionHeap.Proofs.Blocks
import RegionHeap.Proofs.Circle
import RegionHeap.Proofs.Edits

/-!
# The chain in memory

`Region.Chained r m blocks` says that memory holds the headers of `blocks` and of the two
boundaries: linked in a circle, with their canaries and tags. Every operation on headers
takes a chained memory to a chained one and writes nothing but headers.

* `Chained.chunkSize_eq`, `Chained.next_eq`, `Chained.mark?_block`: what headers tell.
* `Chained.setMark`, `Chained.unlink`, `Chained.splice`: the three changes.
* `Sited.clear`: fields that belong to a chain do not overlap.
-/

namespace RegionHeap

/-- The state that the tag of a block stands for. -/
def Block.mark (b : Block) : Mark := if b.isFree then .free else .used

theorem Mark.tag_lt (k : Mark) : k.tag < 256 ^ 4 := by
  cases k <;> decide

theorem canaryOf_lt (o : Nat) : canaryOf o < 256 ^ 4 := by
  unfold canaryOf
  exact Nat.xor_lt_two_pow (n := 32) (by decide) (Nat.mod_lt _ (by decide))

/-- Values after which no tag says that a chunk is used: links are aligned, and a written
tag is another one. -/
def Field.Harmless : Field → Nat → Prop
  | .previous, v | .next, v | .ringPrevious, v | .ringNext, v => v % Word.alignment = 0
  | .tag, v => ∃ k : Mark, k ≠ .used ∧ v = k.tag
  | .canary, _ => True

namespace Region

variable {r : Region} {m m' : Memory} {f g : Field} {o y v : Nat}
variable {a b c : Block} {blocks pre post : List Block}

/-- The offsets of all headers in address order. -/
def headers (r : Region) (blocks : List Block) : List Nat :=
  0 :: (blocks.map Block.offset ++ [r.tail])

/-- Memory holds the headers of the blocks and of the two boundaries. -/
structure Chained (r : Region) (m : Memory) (blocks : List Block) : Prop where
  tiled : Tiled headerSize blocks r.tail
  circle : Circle (r.content m .next) (r.content m .previous) (r.headers blocks)
  canary : ∀ o ∈ r.headers blocks, r.content m .canary o = canaryOf o
  head_tag : r.content m .tag 0 = Mark.sentinel.tag
  tail_tag : r.content m .tag r.tail = Mark.sentinel.tag
  tag : ∀ b ∈ blocks, r.content m .tag b.offset = b.mark.tag

-- ---------------------------------------------------------------------------
-- Places of headers
-- ---------------------------------------------------------------------------

theorem tail_add_headerSize (r : Region) : r.tail + headerSize = r.size := by
  have := r.minRegionSize_le
  have := sizes_eq
  unfold tail
  omega

/-- Headers are at aligned offsets up to the tail. -/
theorem accessible_of_le_tail (ho : o ≤ r.tail) (hAligned : o % Word.alignment = 0)
    (hf : f.reach = headerSize) : r.Accessible f o := by
  have := r.tail_add_headerSize
  exact .of_aligned (by omega) hAligned

theorem read_of_le_tail (ho : o ≤ r.tail) (hAligned : o % Word.alignment = 0)
    (hf : f.reach = headerSize) : r.read m o f = .ok (r.content m f o) :=
  read_eq_content (accessible_of_le_tail ho hAligned hf)

theorem size_lt_limit (r : Region) : r.size < Word.limit := by
  have := r.stop_lt
  omega

theorem tail_aligned (r : Region) : r.tail % Word.alignment = 0 := by
  have := r.size_aligned
  have := r.minRegionSize_le
  unfold tail headerSize
  unfold minRegionSize headerSize minPayload at *
  unfold Word.alignment at *
  omega

theorem mem_headers :
    o ∈ r.headers blocks ↔ o = 0 ∨ (∃ b ∈ blocks, b.offset = o) ∨ o = r.tail := by
  simp [headers]

theorem offset_mem_headers (hb : b ∈ blocks) : b.offset ∈ r.headers blocks :=
  mem_headers.mpr (Or.inr (Or.inl ⟨b, hb, rfl⟩))

theorem headers_append_cons :
    r.headers (pre ++ b :: post) =
      (0 :: pre.map Block.offset) ++ b.offset :: (post.map Block.offset ++ [r.tail]) := by
  simp [headers]

/-- The field of the chunk at `o` belongs to a chain of these blocks: to a header, or to
the payload of a block. -/
def Sited (r : Region) (blocks : List Block) (f : Field) (o : Nat) : Prop :=
  o ∈ r.headers blocks ∧ (f.reach = headerSize ∨ ∃ b ∈ blocks, b.offset = o)

theorem sited_header (ho : o ∈ r.headers blocks) (hf : f.reach = headerSize) :
    r.Sited blocks f o := ⟨ho, Or.inl hf⟩

theorem sited_block (hb : b ∈ blocks) : r.Sited blocks f b.offset :=
  ⟨offset_mem_headers hb, Or.inr ⟨b, hb, rfl⟩⟩

/-- A place in a chain: at one of the boundaries or in a block. -/
theorem Sited.cases (hTiled : Tiled headerSize blocks r.tail) (h : r.Sited blocks f o) :
    (o = 0 ∧ f.reach = headerSize) ∨ (∃ b ∈ blocks, b.offset = o ∧ o + f.reach ≤ b.stop) ∨
      (o = r.tail ∧ f.reach = headerSize) := by
  obtain ⟨hMem, hReach⟩ := h
  have hBlock : (∃ b ∈ blocks, b.offset = o) → ∃ b ∈ blocks, b.offset = o ∧
      o + f.reach ≤ b.stop := by
    rintro ⟨b, hb, rfl⟩
    have := hTiled.payload hb
    have := f.reach_le
    refine ⟨b, hb, rfl, ?_⟩
    unfold Block.stop
    omega
  rcases mem_headers.mp hMem with rfl | h | rfl
  · rcases hReach with hReach | h
    · exact Or.inl ⟨rfl, hReach⟩
    · exact Or.inr (Or.inl (hBlock h))
  · exact Or.inr (Or.inl (hBlock h))
  · rcases hReach with hReach | h
    · exact Or.inr (Or.inr ⟨rfl, hReach⟩)
    · exact Or.inr (Or.inl (hBlock h))

/-- **Fields of one chain do not overlap**, unless they are the same. -/
theorem Sited.clear (hTiled : Tiled headerSize blocks r.tail) (ho : r.Sited blocks f o)
    (hy : r.Sited blocks g y) : Clear f o g y := by
  have := sizes_eq
  have := hTiled.le
  unfold Clear
  rcases ho.cases hTiled with ⟨rfl, hf⟩ | ⟨b, hb, rfl, hf⟩ | ⟨rfl, hf⟩ <;>
    rcases hy.cases hTiled with ⟨rfl, hg⟩ | ⟨c, hc, rfl, hg⟩ | ⟨rfl, hg⟩
  · exact Or.inl rfl
  · have := hTiled.bounds hc
    omega
  · omega
  · have := hTiled.bounds hb
    omega
  · rcases hTiled.apart hb hc with rfl | h | h
    · exact Or.inl rfl
    · omega
    · omega
  · have := hTiled.bounds hb
    omega
  · omega
  · have := hTiled.bounds hc
    omega
  · exact Or.inl rfl

theorem header_aligned (hTiled : Tiled headerSize blocks r.tail) (ho : o ∈ r.headers blocks) :
    o % Word.alignment = 0 := by
  rcases mem_headers.mp ho with rfl | ⟨b, hb, rfl⟩ | rfl
  · rfl
  · exact hTiled.aligned rfl hb
  · exact r.tail_aligned

/-- The fields of a chain can be accessed. -/
theorem Sited.accessible (hTiled : Tiled headerSize blocks r.tail) (h : r.Sited blocks f o) :
    r.Accessible f o := by
  have := r.tail_add_headerSize
  have := hTiled.le
  refine .of_aligned ?_ (header_aligned hTiled h.1)
  rcases h.cases hTiled with ⟨rfl, hf⟩ | ⟨b, hb, rfl, hf⟩ | ⟨rfl, hf⟩
  · omega
  · have := (hTiled.bounds hb).2
    omega
  · omega

theorem header_le_tail (hTiled : Tiled headerSize blocks r.tail) (ho : o ∈ r.headers blocks) :
    o ≤ r.tail := by
  rcases mem_headers.mp ho with rfl | ⟨b, hb, rfl⟩ | rfl
  · exact Nat.zero_le _
  · have := (hTiled.bounds hb).2
    have := b.offset_lt_stop
    omega
  · exact Nat.le_refl _

theorem header_lt_word (hTiled : Tiled headerSize blocks r.tail) (ho : o ∈ r.headers blocks) :
    o < 256 ^ 8 := by
  have := header_le_tail hTiled ho
  have := r.tail_add_headerSize
  have := r.size_lt_limit
  have := sizes_eq
  omega

/-- Headers follow each other with room for the header in between. -/
theorem headers_sorted (hTiled : Tiled headerSize blocks r.tail) :
    (r.headers blocks).Pairwise fun x y => x + headerSize ≤ y := by
  refine List.pairwise_cons.mpr ⟨?_, List.pairwise_append.mpr ⟨?_, by simp, ?_⟩⟩
  · intro y hy
    rw [Nat.zero_add]
    rcases List.mem_append.mp hy with h | h
    · obtain ⟨b, hb, rfl⟩ := List.mem_map.mp h
      exact (hTiled.bounds hb).1
    · rw [List.mem_singleton.mp h]
      exact hTiled.le
  · refine List.pairwise_map.mpr (hTiled.sorted.imp ?_)
    intro b c hbc
    unfold Block.stop at hbc
    omega
  · intro x hx y hy
    obtain ⟨b, hb, rfl⟩ := List.mem_map.mp hx
    rw [List.mem_singleton.mp hy]
    have := (hTiled.bounds hb).2
    unfold Block.stop at this
    omega

theorem headers_nodup (hTiled : Tiled headerSize blocks r.tail) : (r.headers blocks).Nodup := by
  refine (headers_sorted hTiled).imp ?_
  intro x y hxy
  have := sizes_eq
  omega

-- ---------------------------------------------------------------------------
-- What headers tell
-- ---------------------------------------------------------------------------

namespace Chained

theorem link_eq (h : r.Chained m (pre ++ a :: b :: post)) :
    r.content m .next a.offset = b.offset ∧ r.content m .previous b.offset = a.offset := by
  have hCircle := h.circle
  rw [headers_append_cons, List.map_cons] at hCircle
  exact hCircle.link

/-- A header leads back to that of the block before it, or to the head. -/
theorem previous_eq (h : r.Chained m (pre ++ b :: post)) :
    r.content m .previous b.offset = (pre.getLast?.map (·.offset)).getD 0 := by
  rcases List.eq_nil_or_concat' pre with rfl | ⟨front, a, rfl⟩
  · have hCircle := h.circle
    rw [headers_append_cons] at hCircle
    exact hCircle.link_head.2
  · rw [List.append_assoc] at h
    rw [h.link_eq.2, List.getLast?_concat]
    rfl

/-- Before a block there is the head, or another block. -/
theorem previous_lt (h : r.Chained m blocks) (hb : b ∈ blocks) :
    r.content m .previous b.offset < b.offset := by
  obtain ⟨pre, post, rfl⟩ := List.append_of_mem hb
  have hBounds := h.tiled.bounds hb
  have := sizes_eq
  rw [h.previous_eq]
  rcases List.eq_nil_or_concat' pre with rfl | ⟨front, a, rfl⟩
  · show 0 < b.offset
    omega
  · have hSorted := h.tiled.sorted
    rw [List.append_assoc] at hSorted
    have hStop : a.stop ≤ b.offset :=
      List.rel_of_pairwise_cons (List.pairwise_append.mp hSorted).2.1 (by simp)
    have := a.offset_lt_stop
    rw [List.getLast?_concat]
    show a.offset < b.offset
    omega

/-- A header leads to where its block stops. -/
theorem next_eq (h : r.Chained m blocks) (hb : b ∈ blocks) :
    r.content m .next b.offset = b.stop := by
  obtain ⟨pre, post, rfl⟩ := List.append_of_mem hb
  obtain ⟨middle, -, -, -, -, hPost⟩ := tiled_append.mp h.tiled
  cases post with
  | nil =>
    have hStop : b.stop = r.tail := hPost
    have hCircle := h.circle
    rw [headers_append_cons] at hCircle
    rw [hCircle.link.1, hStop]
  | cons c rest =>
    have hStop : c.offset = b.stop := hPost.1
    rw [h.link_eq.1, hStop]

theorem next_head (h : r.Chained m blocks) : r.content m .next 0 = headerSize := by
  have hCircle := h.circle
  have hTiled := h.tiled
  unfold headers at hCircle
  cases blocks with
  | nil =>
    have hTail : headerSize = r.tail := hTiled
    rw [hTail]
    exact hCircle.link_head.1
  | cons b rest =>
    rw [← hTiled.1]
    exact hCircle.link_head.1

theorem next_tail (h : r.Chained m blocks) :
    r.content m .next r.tail = 0 ∧ r.content m .previous 0 = r.tail :=
  h.circle.previous_cons_concat

theorem next_mem (h : r.Chained m blocks) (ho : o ∈ r.headers blocks) :
    r.content m .next o ∈ r.headers blocks := (h.circle.previous_next ho).1

theorem previous_mem (h : r.Chained m blocks) (ho : o ∈ r.headers blocks) :
    r.content m .previous o ∈ r.headers blocks := (h.circle.next_previous ho).1

theorem read_header (h : r.Chained m blocks) (ho : o ∈ r.headers blocks)
    (hf : f.reach = headerSize) : r.read m o f = .ok (r.content m f o) :=
  read_eq_content ((sited_header ho hf).accessible h.tiled)

theorem mark?_block (h : r.Chained m blocks) (hb : b ∈ blocks) :
    r.mark? m b.offset = .ok (some b.mark) := by
  unfold mark?
  rw [h.read_header (offset_mem_headers hb) rfl, ok_bind, h.tag b hb,
    Mark.ofTag?_eq_some_iff.mpr rfl]
  rfl

theorem isFree_eq (h : r.Chained m blocks) (hb : b ∈ blocks) :
    r.isFree m b.offset = .ok b.isFree := by
  unfold isFree
  rw [h.mark?_block hb, ok_bind]
  unfold Block.mark
  cases b.isFree <;> rfl

theorem mark?_boundary (h : r.Chained m blocks) (ho : o = 0 ∨ o = r.tail) :
    r.mark? m o = .ok (some .sentinel) := by
  have hTag : r.content m .tag o = Mark.sentinel.tag := by
    rcases ho with rfl | rfl
    · exact h.head_tag
    · exact h.tail_tag
  have hMem : o ∈ r.headers blocks := by
    rcases ho with rfl | rfl
    · exact mem_headers.mpr (Or.inl rfl)
    · exact mem_headers.mpr (Or.inr (Or.inr rfl))
  unfold mark?
  rw [h.read_header hMem rfl, ok_bind, hTag, Mark.ofTag?_eq_some_iff.mpr rfl]
  rfl

theorem isFree_boundary (h : r.Chained m blocks) (ho : o = 0 ∨ o = r.tail) :
    r.isFree m o = .ok false := by
  unfold isFree
  rw [h.mark?_boundary ho, ok_bind]
  rfl

/-- The size of a chunk is that of its block. -/
theorem chunkSize_eq (h : r.Chained m blocks) (hb : b ∈ blocks) :
    r.chunkSize m b.offset = .ok b.size := by
  have := sizes_eq
  have := b.offset_lt_stop
  unfold chunkSize
  rw [h.read_header (offset_mem_headers hb) rfl, ok_bind, h.next_eq hb, if_neg (by omega),
    Word.sub_eq_ok_iff]
  unfold Block.stop
  omega

/-- The boundaries have no payload. -/
theorem chunkSize_boundary (h : r.Chained m blocks) (ho : o = 0 ∨ o = r.tail) :
    r.chunkSize m o = .ok 0 := by
  have := sizes_eq
  unfold chunkSize
  rcases ho with rfl | rfl
  · rw [h.read_header (mem_headers.mpr (Or.inl rfl)) rfl, ok_bind, h.next_head,
      if_neg (by omega), Word.sub_eq_ok_iff]
    omega
  · rw [h.read_header (mem_headers.mpr (Or.inr (Or.inr rfl))) rfl, ok_bind, h.next_tail.1,
      if_pos (Nat.zero_le _)]
    rfl

/-- What is read off headers holds in every memory with the same headers. -/
theorem congr (h : r.Chained m blocks)
    (hSame : ∀ f o, o ∈ r.headers blocks → f.reach = headerSize →
      r.content m' f o = r.content m f o) : r.Chained m' blocks where
  tiled := h.tiled
  circle := h.circle.congr (fun o ho => hSame .next o ho rfl) fun o ho => hSame .previous o ho rfl
  canary o ho := by rw [hSame .canary o ho rfl, h.canary o ho]
  head_tag := by rw [hSame .tag 0 (mem_headers.mpr (Or.inl rfl)) rfl, h.head_tag]
  tail_tag := by
    rw [hSame .tag r.tail (mem_headers.mpr (Or.inr (Or.inr rfl))) rfl, h.tail_tag]
  tag b hb := by rw [hSame .tag b.offset (offset_mem_headers hb) rfl, h.tag b hb]

end Chained

-- ---------------------------------------------------------------------------
-- Stamps
-- ---------------------------------------------------------------------------

/-- The header at `o` has its canary and the tag of a state. -/
def Stamped (r : Region) (m : Memory) (o : Nat) (k : Mark) : Prop :=
  r.content m .canary o = canaryOf o ∧ r.content m .tag o = k.tag

/-- Links are no part of a stamp. -/
theorem Stamped.congr {k : Mark} (h : r.Stamped m o k)
    (hSame : ∀ g : Field, g.reach = headerSize → g ≠ .next → g ≠ .previous →
      r.content m' g o = r.content m g o) : r.Stamped m' o k := by
  unfold Stamped
  rw [hSame .canary rfl (by decide) (by decide), hSame .tag rfl (by decide) (by decide)]
  exact h

namespace Chained

theorem stamped_head (h : r.Chained m blocks) : r.Stamped m 0 .sentinel :=
  ⟨h.canary 0 (mem_headers.mpr (Or.inl rfl)), h.head_tag⟩

theorem stamped_tail (h : r.Chained m blocks) : r.Stamped m r.tail .sentinel :=
  ⟨h.canary r.tail (mem_headers.mpr (Or.inr (Or.inr rfl))), h.tail_tag⟩

theorem stamped_block (h : r.Chained m blocks) (hb : b ∈ blocks) :
    r.Stamped m b.offset b.mark :=
  ⟨h.canary b.offset (offset_mem_headers hb), h.tag b hb⟩

/-- A chain is a circle of stamped headers. -/
theorem of_stamped (hTiled : Tiled headerSize blocks r.tail)
    (hCircle : Circle (r.content m .next) (r.content m .previous) (r.headers blocks))
    (hHead : r.Stamped m 0 .sentinel) (hTail : r.Stamped m r.tail .sentinel)
    (hBlocks : ∀ b ∈ blocks, r.Stamped m b.offset b.mark) : r.Chained m blocks where
  tiled := hTiled
  circle := hCircle
  canary o ho := by
    rcases mem_headers.mp ho with rfl | ⟨b, hb, rfl⟩ | rfl
    · exact hHead.1
    · exact (hBlocks b hb).1
    · exact hTail.1
  head_tag := hHead.2
  tail_tag := hTail.2
  tag b hb := (hBlocks b hb).2

end Chained

-- ---------------------------------------------------------------------------
-- Writing headers
-- ---------------------------------------------------------------------------

/-- Writes to the headers of a chain that leave no used tag behind. -/
def HeaderEdit (r : Region) (blocks : List Block) (o : Nat) (f : Field) (v : Nat) : Prop :=
  o ∈ r.headers blocks ∧ f.reach = headerSize ∧ f.Harmless v

/-- In a chain, writing one header field is an update of the contents of headers. -/
theorem content_put_header (hTiled : Tiled headerSize blocks r.tail)
    (ho : o ∈ r.headers blocks) (hf : f.reach = headerSize) (hy : y ∈ r.headers blocks)
    (hg : g.reach = headerSize) (hv : v < 256 ^ f.width) :
    r.content (r.put m f o v) g y = if y = o ∧ g = f then v else r.content m g y :=
  content_put ((sited_header ho hf).clear hTiled (sited_header hy hg)) hv

/-- What the fields of a fresh header at `o` hold. -/
def headerField (o p n : Nat) (k : Mark) : Field → Nat
  | .previous => p
  | .next => n
  | .tag => k.tag
  | .canary => canaryOf o
  | .ringPrevious | .ringNext => 0

/-- The writes of a fresh header at `o`. -/
def HeaderWrite (o p n : Nat) (k : Mark) (o' : Nat) (f : Field) (v : Nat) : Prop :=
  o' = o ∧ f.reach = headerSize ∧ v = headerField o p n k f

/-- A fresh header of a chunk that is not used leaves no used tag. -/
theorem HeaderWrite.harmless {p n : Nat} {k : Mark} (h : HeaderWrite o p n k y f v)
    (hp : p % Word.alignment = 0) (hn : n % Word.alignment = 0) (hk : k ≠ .used) :
    f.Harmless v := by
  obtain ⟨-, hReach, rfl⟩ := h
  cases f with
  | previous => exact hp
  | next => exact hn
  | tag => exact ⟨k, hk, rfl⟩
  | canary => trivial
  | ringPrevious | ringNext => exact absurd hReach (by decide)

/-- A written header holds what was written, and chunks beside it keep their contents. -/
theorem writeHeader_spec {p n : Nat} {k : Mark}
    (ho : ∀ f : Field, f.reach = headerSize → r.Accessible f o)
    (hp : p < 256 ^ 8) (hn : n < 256 ^ 8) :
    ∃ m', r.writeHeader m o p n k = .ok m' ∧
      (∀ g : Field, g.reach = headerSize → r.content m' g o = headerField o p n k g) ∧
      (∀ g y, o + headerSize ≤ y ∨ y + g.reach ≤ o → r.content m' g y = r.content m g y) ∧
      r.Edits (HeaderWrite o p n k) m m' := by
  have hPut : ∀ g y, (∀ f : Field, f.reach = headerSize → Clear f o g y) →
      r.content (r.put (r.put (r.put (r.put m .previous o p) .next o n) .tag o k.tag) .canary o
        (canaryOf o)) g y =
      if y = o ∧ g = .canary then canaryOf o else if y = o ∧ g = .tag then k.tag
      else if y = o ∧ g = .next then n else if y = o ∧ g = .previous then p
      else r.content m g y := by
    intro g y hClear
    rw [content_put (hClear _ rfl) (canaryOf_lt o), content_put (hClear _ rfl) k.tag_lt,
      content_put (hClear _ rfl) hn, content_put (hClear _ rfl) hp]
  refine ⟨r.put (r.put (r.put (r.put m .previous o p) .next o n) .tag o k.tag) .canary o
    (canaryOf o), ?_, fun g hg => ?_, fun g y hy => ?_, ?_⟩
  · unfold writeHeader
    rw [write_eq_put (ho _ rfl), ok_bind, write_eq_put (ho _ rfl), ok_bind,
      write_eq_put (ho _ rfl), ok_bind, write_eq_put (ho _ rfl)]
  · rw [hPut g o fun _ _ => Or.inl rfl]
    cases g with
    | previous | next | tag | canary => simp [headerField]
    | ringPrevious | ringNext => exact absurd hg (by decide)
  · have hne : ¬y = o := by
      rintro rfl
      have := sizes_eq
      have : headerSize ≤ g.reach := by cases g <;> decide
      omega
    rw [hPut g y fun f hf => Or.inr (by rwa [hf])]
    simp [hne]
  · refine Edits.put (Edits.put (Edits.put (Edits.put (Edits.refl m) (ho _ rfl) ?_) (ho _ rfl) ?_)
      (ho _ rfl) ?_) (ho _ rfl) ?_
    all_goals exact ⟨rfl, rfl, rfl⟩

namespace Chained

/-- **Changing the state** of a block. -/
theorem setMark (h : r.Chained m (pre ++ b :: post)) (isFree : Bool) :
    r.setMark m b.offset { b with isFree := isFree }.mark =
        .ok (r.put m .tag b.offset { b with isFree := isFree }.mark.tag) ∧
      r.Chained (r.put m .tag b.offset { b with isFree := isFree }.mark.tag)
        (pre ++ { b with isFree := isFree } :: post) := by
  have hMem : b.offset ∈ r.headers (pre ++ b :: post) := offset_mem_headers (by simp)
  have hHeaders : r.headers (pre ++ { b with isFree := isFree } :: post) =
      r.headers (pre ++ b :: post) := by
    simp [headers]
  have hPut : ∀ g y, y ∈ r.headers (pre ++ b :: post) → g.reach = headerSize →
      r.content (r.put m .tag b.offset { b with isFree := isFree }.mark.tag) g y =
        if y = b.offset ∧ g = .tag then { b with isFree := isFree }.mark.tag
        else r.content m g y :=
    fun g y hy hg => content_put_header h.tiled hMem rfl hy hg (Mark.tag_lt _)
  -- the stamps of all other headers stay
  have hStamped : ∀ {o k}, o ∈ r.headers (pre ++ b :: post) → o ≠ b.offset → r.Stamped m o k →
      r.Stamped (r.put m .tag b.offset { b with isFree := isFree }.mark.tag) o k :=
    fun ho hne hOld => hOld.congr fun g hg _ _ => by
      rw [hPut g _ ho hg, if_neg (by simp [hne])]
  refine ⟨write_eq_put ((sited_header hMem rfl).accessible h.tiled),
    of_stamped (h.tiled.mark isFree) ?_ ?_ ?_ fun c hc => ?_⟩
  · rw [hHeaders]
    refine h.circle.congr (fun y hy => ?_) fun y hy => ?_
    · rw [hPut .next y hy rfl, if_neg (by simp)]
    · rw [hPut .previous y hy rfl, if_neg (by simp)]
  · have hb := (h.tiled.bounds (b := b) (by simp)).1
    have := sizes_eq
    exact hStamped (mem_headers.mpr (Or.inl rfl)) (by omega) h.stamped_head
  · have hb := (h.tiled.bounds (b := b) (by simp)).2
    have := b.offset_lt_stop
    exact hStamped (mem_headers.mpr (Or.inr (Or.inr rfl))) (by omega) h.stamped_tail
  · by_cases hcb : c = { b with isFree := isFree }
    · subst hcb
      refine ⟨?_, ?_⟩
      · rw [hPut .canary b.offset hMem rfl, if_neg (by simp), h.canary b.offset hMem]
      · rw [hPut .tag b.offset hMem rfl, if_pos ⟨rfl, rfl⟩]
    · have hOther : c ∈ pre ++ post := by simpa [hcb] using hc
      have hOld : c ∈ pre ++ b :: post := by
        simp only [List.mem_append, List.mem_cons] at hOther ⊢
        tauto
      exact hStamped (offset_mem_headers hOld) (offset_ne_of_distinct h.tiled.distinct hOther)
        (h.stamped_block hOld)

-- ---------------------------------------------------------------------------
-- Unlinking
-- ---------------------------------------------------------------------------

/-- Unlinking a chunk makes its neighbours point at each other. -/
theorem unlink_spec (h : r.Chained m blocks) (ho : o ∈ r.headers blocks) :
    ∃ m', r.unlink m o = .ok m' ∧
      (∀ g : Field, g.reach = headerSize → ∀ y ∈ r.headers blocks, r.content m' g y =
        if y = r.content m .next o ∧ g = .previous then r.content m .previous o
        else if y = r.content m .previous o ∧ g = .next then r.content m .next o
        else r.content m g y) ∧
      r.Edits (r.HeaderEdit blocks) m m' := by
  have hPreviousMem := h.previous_mem ho
  have hNextMem := h.next_mem ho
  have hPreviousAccess := (sited_header (f := .next) hPreviousMem rfl).accessible h.tiled
  have hNextAccess := (sited_header (f := .previous) hNextMem rfl).accessible h.tiled
  refine ⟨r.put (r.put m .next (r.content m .previous o) (r.content m .next o)) .previous
    (r.content m .next o) (r.content m .previous o), ?_, fun g hg y hy => ?_,
    Edits.put (Edits.put (Edits.refl m) hPreviousAccess ?_) hNextAccess ?_⟩
  · unfold Region.unlink
    rw [h.read_header ho rfl, ok_bind, h.read_header ho rfl, ok_bind,
      write_eq_put hPreviousAccess, ok_bind, write_eq_put hNextAccess]
  · rw [content_put_header h.tiled hNextMem rfl hy hg (header_lt_word h.tiled hPreviousMem),
      content_put_header h.tiled hPreviousMem rfl hy hg (header_lt_word h.tiled hNextMem)]
  · exact ⟨hPreviousMem, rfl, header_aligned h.tiled hNextMem⟩
  · exact ⟨hNextMem, rfl, header_aligned h.tiled hPreviousMem⟩

/-- **Unlinking** a block gives its bytes to the block before it. -/
theorem unlink (h : r.Chained m (pre ++ a :: b :: post)) :
    ∃ m', r.unlink m b.offset = .ok m' ∧ r.Chained m' (pre ++ a.join b :: post) ∧
      r.Edits (r.HeaderEdit (pre ++ a :: b :: post)) m m' := by
  have hb : b.offset ∈ r.headers (pre ++ a :: b :: post) := offset_mem_headers (by simp)
  obtain ⟨m', hUnlink, hContent, hEdits⟩ := h.unlink_spec hb
  -- only links were written, so stamps stay
  have hStamped : ∀ {o k}, o ∈ r.headers (pre ++ a :: b :: post) → r.Stamped m o k →
      r.Stamped m' o k :=
    fun ho hOld => hOld.congr fun g hg hNext hPrevious => by
      rw [hContent g hg _ ho, if_neg (by simp [hPrevious]), if_neg (by simp [hNext])]
  refine ⟨m', hUnlink, of_stamped h.tiled.join ?_
    (hStamped (mem_headers.mpr (Or.inl rfl)) h.stamped_head)
    (hStamped (mem_headers.mpr (Or.inr (Or.inr rfl))) h.stamped_tail) fun c hc => ?_, hEdits⟩
  · -- the circle of headers loses `b`
    have hSplit : r.headers (pre ++ a :: b :: post) =
        (0 :: (pre.map Block.offset ++ [a.offset])) ++
          b.offset :: (post.map Block.offset ++ [r.tail]) := by
      simp [headers]
    have hSplit' : r.headers (pre ++ a.join b :: post) =
        (0 :: (pre.map Block.offset ++ [a.offset])) ++ (post.map Block.offset ++ [r.tail]) := by
      simp [headers, Block.join]
    have hSubset : ∀ y ∈ r.headers (pre ++ a.join b :: post),
        y ∈ r.headers (pre ++ a :: b :: post) := by
      intro y hy
      rw [hSplit'] at hy
      rw [hSplit]
      exact ((List.sublist_cons_self b.offset _).append_left _).subset hy
    have hCircle := h.circle
    have hNodup := headers_nodup h.tiled
    rw [hSplit] at hCircle hNodup
    rw [hSplit'] at hSubset ⊢
    refine hCircle.delete hNodup (fun y hy => ?_) fun y hy => ?_
    · rw [hContent .next rfl y (hSubset y hy), if_neg (by simp)]
      simp
    · rw [hContent .previous rfl y (hSubset y hy)]
      simp
  · by_cases hca : c = a.join b
    · rw [hca]
      exact hStamped (offset_mem_headers (b := a) (by simp)) (h.stamped_block (b := a) (by simp))
    · have hOld : c ∈ pre ++ a :: b :: post := by
        simp only [List.mem_append, List.mem_cons, hca, false_or] at hc ⊢
        tauto
      exact hStamped (offset_mem_headers hOld) (h.stamped_block hOld)

-- ---------------------------------------------------------------------------
-- Splicing
-- ---------------------------------------------------------------------------

/-- The headers after a block was cut. -/
theorem headers_cut {need : Nat} :
    r.headers (pre ++ (b.cut need).1 :: (b.cut need).2 :: post) =
      (0 :: pre.map Block.offset) ++ b.offset :: (b.cut need).2.offset ::
        (post.map Block.offset ++ [r.tail]) := by
  simp [headers, Block.cut]

theorem mem_headers_cut {need : Nat} :
    y ∈ r.headers (pre ++ (b.cut need).1 :: (b.cut need).2 :: post) ↔
      y = (b.cut need).2.offset ∨ y ∈ r.headers (pre ++ b :: post) := by
  rw [headers_cut, headers_append_cons]
  simp only [List.mem_append, List.mem_cons]
  tauto

/-- Splicing a chunk in writes its header and makes its neighbours point at it. -/
theorem spliceAfter_spec {old : List Block} {fresh : Nat} {k : Mark} (h : r.Chained m old)
    (hTiled : Tiled headerSize blocks r.tail)
    (hMem : ∀ y, y ∈ r.headers blocks ↔ y = fresh ∨ y ∈ r.headers old)
    (hFresh : fresh ∉ r.headers old) (ho : o ∈ r.headers old) (hk : k ≠ .used) :
    ∃ m', r.spliceAfter m o fresh k = .ok m' ∧
      (∀ g : Field, g.reach = headerSize → ∀ y ∈ r.headers blocks, r.content m' g y =
        if y = r.content m .next o ∧ g = .previous then fresh
        else if y = o ∧ g = .next then fresh
        else if y = fresh then headerField fresh o (r.content m .next o) k g
        else r.content m g y) ∧
      r.Edits (r.HeaderEdit blocks) m m' := by
  have hFreshMem : fresh ∈ r.headers blocks := (hMem fresh).mpr (Or.inl rfl)
  have hoMem : o ∈ r.headers blocks := (hMem o).mpr (Or.inr ho)
  have hNextMem : r.content m .next o ∈ r.headers blocks :=
    (hMem _).mpr (Or.inr (h.next_mem ho))
  have hWord : ∀ {y}, y ∈ r.headers blocks → y < 256 ^ 8 := header_lt_word hTiled
  have hAccess : ∀ {y}, y ∈ r.headers blocks → ∀ f : Field, f.reach = headerSize →
      r.Accessible f y := fun hy _ hf => (sited_header hy hf).accessible hTiled
  obtain ⟨m₁, hWrite, hField, hSame, hEdits⟩ :=
    writeHeader_spec (m := m) (k := k) (hAccess hFreshMem) (hWord hoMem) (hWord hNextMem)
  have hWritten : ∀ g : Field, g.reach = headerSize → ∀ y ∈ r.headers blocks,
      r.content m₁ g y =
        if y = fresh then headerField fresh o (r.content m .next o) k g else r.content m g y := by
    intro g hg y hy
    split
    · next hEq => rw [hEq, hField g hg]
    · next hne =>
      -- any other header of the chain is clear of the fresh one
      refine hSame g y ?_
      have hClear := (sited_header (f := .next) hFreshMem rfl).clear hTiled (sited_header hy hg)
      have hNextReach : Field.next.reach = headerSize := rfl
      unfold Clear at hClear
      omega
  refine ⟨r.put (r.put m₁ .next o fresh) .previous (r.content m .next o) fresh, ?_,
    fun g hg y hy => ?_, Edits.put (Edits.put (hEdits.mono ?_) (hAccess hoMem _ rfl) ?_)
      (hAccess hNextMem _ rfl) ?_⟩
  · unfold spliceAfter
    rw [h.read_header ho rfl, ok_bind, hWrite, ok_bind, write_eq_put (hAccess hoMem _ rfl), ok_bind,
      write_eq_put (hAccess hNextMem _ rfl)]
  · rw [content_put_header hTiled hNextMem rfl hy hg (hWord hFreshMem),
      content_put_header hTiled hoMem rfl hy hg (hWord hFreshMem), hWritten g hg y hy]
  · intro o' f v hWrite
    have hHarmless := hWrite.harmless (header_aligned hTiled hoMem)
      (header_aligned hTiled hNextMem) hk
    obtain ⟨rfl, hReach', -⟩ := hWrite
    exact ⟨hFreshMem, hReach', hHarmless⟩
  · exact ⟨hoMem, rfl, header_aligned hTiled hFreshMem⟩
  · exact ⟨hNextMem, rfl, header_aligned hTiled hFreshMem⟩

/-- **Splicing** a free chunk into a block cuts it in two. -/
theorem splice {need : Nat} (h : r.Chained m (pre ++ b :: post))
    (hMin : minPayload ≤ need) (hMod : need % Word.alignment = 0)
    (hRest : need + headerSize < b.size) :
    ∃ m', r.spliceAfter m b.offset (b.cut need).2.offset .free = .ok m' ∧
      r.Chained m' (pre ++ (b.cut need).1 :: (b.cut need).2 :: post) ∧
      r.Edits (r.HeaderEdit (pre ++ (b.cut need).1 :: (b.cut need).2 :: post)) m m' := by
  have hTiled := h.tiled.cut hMin hMod hRest
  have hb : b.offset ∈ r.headers (pre ++ b :: post) := offset_mem_headers (by simp)
  have hNextMem := h.next_mem hb
  -- headers of a chain are distinct, so the fresh one is none of the old ones
  have hFresh : (b.cut need).2.offset ∉ r.headers (pre ++ b :: post) := by
    have hNodup := headers_nodup hTiled
    rw [headers_cut, List.append_cons, List.nodup_middle] at hNodup
    rw [headers_append_cons, List.append_cons]
    exact (List.nodup_cons.mp hNodup).1
  obtain ⟨m', hSplice, hContent, hEdits⟩ :=
    h.spliceAfter_spec hTiled (fun _ => mem_headers_cut) hFresh hb (k := .free) (by decide)
  generalize hBlocks : pre ++ (b.cut need).1 :: (b.cut need).2 :: post = blocks at *
  generalize hFreshEq : (b.cut need).2.offset = fresh at *
  have hFreshMem : fresh ∈ r.headers blocks := by
    rw [← hBlocks, mem_headers_cut, hFreshEq]
    exact Or.inl rfl
  have hOldMem : ∀ {y}, y ∈ r.headers (pre ++ b :: post) → y ∈ r.headers blocks := by
    intro y hy
    rw [← hBlocks, mem_headers_cut]
    exact Or.inr hy
  have hNe : ∀ {y}, y ∈ r.headers (pre ++ b :: post) → y ≠ fresh := by
    rintro y hy rfl
    exact hFresh hy
  have hStamped : ∀ {o k}, o ∈ r.headers (pre ++ b :: post) → r.Stamped m o k →
      r.Stamped m' o k :=
    fun ho hOld => hOld.congr fun g hg hNext hPrevious => by
      rw [hContent g hg _ (hOldMem ho), if_neg (by simp [hPrevious]), if_neg (by simp [hNext]),
        if_neg (hNe ho)]
  refine ⟨m', hSplice, of_stamped hTiled ?_
    (hStamped (mem_headers.mpr (Or.inl rfl)) h.stamped_head)
    (hStamped (mem_headers.mpr (Or.inr (Or.inr rfl))) h.stamped_tail) fun c hc => ?_, hEdits⟩
  · -- the circle of headers gains `fresh` after `b`
    have hCircle := h.circle
    have hNodup := headers_nodup h.tiled
    rw [headers_append_cons] at hCircle hNodup
    rw [← hBlocks, headers_cut, hFreshEq]
    refine hCircle.insert hNodup ⟨?_, ?_⟩ (fun y hy => ?_) fun y hy => ?_
    · rw [hContent .next rfl fresh hFreshMem, if_neg (by simp),
        if_neg (by simp [(hNe hb).symm]), if_pos rfl]
      rfl
    · rw [hContent .previous rfl fresh hFreshMem, if_neg (by simp [(hNe hNextMem).symm]),
        if_neg (by simp), if_pos rfl]
      rfl
    · rw [← headers_append_cons] at hy
      rw [hContent .next rfl y (hOldMem hy), if_neg (by simp), if_neg (hNe hy)]
      simp
    · rw [← headers_append_cons] at hy
      rw [hContent .previous rfl y (hOldMem hy), if_neg (hNe hy)]
      simp
  · rw [← hBlocks] at hc
    rcases List.mem_append.mp hc with hc | hc
    · have hOld : c ∈ pre ++ b :: post := List.mem_append_left _ hc
      exact hStamped (offset_mem_headers hOld) (h.stamped_block hOld)
    · rcases List.mem_cons.mp hc with rfl | hc
      · exact hStamped hb (h.stamped_block (b := b) (by simp))
      · rcases List.mem_cons.mp hc with rfl | hc
        · -- the stamp of the fresh header
          rw [hFreshEq]
          refine ⟨?_, ?_⟩
          · rw [hContent .canary rfl fresh hFreshMem, if_neg (by simp), if_neg (by simp),
              if_pos rfl]
            rfl
          · rw [hContent .tag rfl fresh hFreshMem, if_neg (by simp), if_neg (by simp),
              if_pos rfl]
            rfl
        · have hOld : c ∈ pre ++ b :: post := by simp [hc]
          exact hStamped (offset_mem_headers hOld) (h.stamped_block hOld)

end Chained

end Region

end RegionHeap
