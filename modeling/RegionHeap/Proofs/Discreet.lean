import RegionHeap.Proofs.Chain
import RegionHeap.Proofs.Rings

/-!
# What calls write

Writes to headers and writes to rings do not disturb each other, and neither disturbs a
payload that is handed out. `Region.Discreet` says so of a single write, and also that it
leaves no trace that could be taken for the header of a used chunk.

* `HeaderEdit.discreet`, `RingEdit.discreet`: what headers and rings hold is written
  discreetly.
* `Edits.byte_kept`: payloads that are kept do not change.
* `Edits.used_word`: no aligned word becomes the tag of a used chunk, but for the tags
  that were granted.
-/

namespace RegionHeap

variable {r : Region} {m m' : Memory} {f : Field} {o v : Nat}
variable {b : Block} {blocks kept : List Block}
variable {stack : SizeClass → List Nat} {granted : List Nat}

-- ---------------------------------------------------------------------------
-- Discreet writes
-- ---------------------------------------------------------------------------

/-- A write that keeps out of the payloads of `kept` and leaves no used tag behind,
except at an offset of `granted`. -/
def Region.Discreet (kept : List Block) (granted : List Nat) (o : Nat) (f : Field) (v : Nat) :
    Prop :=
  (∀ b ∈ kept, o + f.reach ≤ b.offset + headerSize ∨ b.stop ≤ o) ∧
    o % Word.alignment = 0 ∧ (f.Harmless v ∨ f = .tag ∧ o ∈ granted)

namespace Region

/-- Headers are apart from payloads. -/
theorem header_apart_payload (hTiled : Tiled headerSize blocks r.tail)
    (ho : o ∈ r.headers blocks) (hb : b ∈ blocks) : o ≤ b.offset ∨ b.stop ≤ o := by
  have hBounds := hTiled.bounds hb
  rcases mem_headers.mp ho with rfl | ⟨c, hc, rfl⟩ | rfl
  · exact Or.inl (Nat.zero_le _)
  · have := c.offset_lt_stop
    rcases hTiled.apart hc hb with rfl | h | h
    · exact Or.inl (Nat.le_refl _)
    · exact Or.inl (by omega)
    · exact Or.inr h
  · exact Or.inr hBounds.2

theorem HeaderEdit.discreet (h : r.HeaderEdit blocks o f v)
    (hTiled : Tiled headerSize blocks r.tail) (hKept : ∀ b ∈ kept, b ∈ blocks) :
    Discreet kept granted o f v := by
  obtain ⟨hMem, hReach, hHarmless⟩ := h
  refine ⟨fun b hb => ?_, header_aligned hTiled hMem, Or.inl hHarmless⟩
  rw [hReach]
  rcases header_apart_payload hTiled hMem (hKept b hb) with h | h
  · exact Or.inl (by omega)
  · exact Or.inr h

theorem RingEdit.discreet {S : Nat → Prop} (h : RingEdit S o f v)
    (hTiled : Tiled headerSize blocks r.tail) (hKept : ∀ b ∈ kept, b ∈ blocks)
    (hS : ∀ x, S x → ∃ c ∈ blocks, c.offset = x ∧ c ∉ kept) :
    Discreet kept granted o f v := by
  obtain ⟨ho, hReach, hv⟩ := h
  obtain ⟨c, hc, rfl, hNotKept⟩ := hS _ ho
  obtain ⟨d, hd, rfl, -⟩ := hS _ hv
  have hcAligned := hTiled.aligned rfl hc
  have hdAligned := hTiled.aligned rfl hd
  refine ⟨fun b hb => ?_, hcAligned, Or.inl ?_⟩
  · have := (hTiled.payload hc).1
    rcases hTiled.apart hc (hKept b hb) with rfl | h | h
    · exact absurd hb hNotKept
    · unfold Block.stop at h
      omega
    · exact Or.inr h
  · cases f with
    | ringPrevious | ringNext => exact hdAligned
    | previous | next | tag | canary => exact absurd hReach (by decide)

/-- Headers do not notice writes to rings. -/
theorem Chained.of_ringEdits {S : Nat → Prop} (h : r.Chained m blocks)
    (hEdits : r.Edits (RingEdit S) m m') (hS : ∀ x, S x → ∃ b ∈ blocks, b.offset = x) :
    r.Chained m' blocks := by
  refine h.congr fun g y hy hg => hEdits.content_eq fun x f v hx => ⟨?_, ?_⟩
  · obtain ⟨b, hb, rfl⟩ := hS x hx.1
    exact (sited_block hb).clear h.tiled (sited_header hy hg)
  · rintro ⟨-, rfl⟩
    have hReach := hx.2.1
    rw [hg] at hReach
    exact absurd hReach (by decide)

end Region

/-- Rings do not notice writes to headers. -/
theorem Bins.Filed.of_headerEdits {bins : Bins} {P : Nat → Field → Nat → Prop}
    (h : bins.Filed r m stack) (hTiled : Tiled headerSize blocks r.tail)
    (hEdits : r.Edits P m m')
    (hP : ∀ o f v, P o f v → o ∈ r.headers blocks ∧ f.reach = headerSize)
    (hMem : ∀ k, ∀ o ∈ stack k, ∃ b ∈ blocks, b.offset = o) : bins.Filed r m' stack := by
  have hSame : ∀ g : Field, g.reach = headerSize + minPayload → ∀ k, ∀ y ∈ stack k,
      r.content m' g y = r.content m g y := by
    intro g hg k y hy
    obtain ⟨b, hb, rfl⟩ := hMem k y hy
    refine hEdits.content_eq fun x f v hx => ⟨?_, ?_⟩
    · have hHeader := Region.sited_header (hP x f v hx).1 (hP x f v hx).2
      exact hHeader.clear hTiled (Region.sited_block hb)
    · rintro ⟨-, rfl⟩
      rw [(hP x g v hx).2] at hg
      exact absurd hg (by decide)
  exact
    { head := h.head
      circle := fun k => (h.circle k).congr (hSame .ringNext rfl k) (hSame .ringPrevious rfl k)
      occupied := h.occupied
      count := h.count }

-- ---------------------------------------------------------------------------
-- What discreet writes leave as it was
-- ---------------------------------------------------------------------------

/-- The lowest bytes of a word that was stored. -/
theorem Memory.load_store_low (m : Memory) {address width low value : Nat} (h : low ≤ width) :
    (m.store address width value).load address low = value % 256 ^ low := by
  rw [load, slice_eq_map_byte, ← littleEndian_bytes low address value]
  congr 1
  apply List.map_congr_left
  intro x hx
  have := List.mem_range'_1.mp hx
  rw [byte_store, if_pos (by omega)]

namespace Region

/-- Payloads that are kept do not change. -/
theorem Edits.byte_kept (h : r.Edits (Discreet kept granted) m m') (hb : b ∈ kept) {x : Nat}
    (hLow : r.payload b.offset ≤ x) (hHigh : x < r.payload b.offset + b.size) :
    m'.byte x = m.byte x := by
  refine h.byte_eq fun o f v hDiscreet _ => ?_
  have := f.position_add_width_le_reach
  unfold payload at *
  rcases hDiscreet.1 b hb with hBelow | hAbove
  · omega
  · unfold Block.stop at hAbove
    omega

/-- A discreet write makes no aligned word the tag of a used chunk, unless it was granted. -/
theorem Discreet.used_word (h : Discreet kept granted o f v) {address : Nat}
    (hAligned : address % Word.alignment = 0)
    (hUsed : (r.put m f o v).load address 4 = Mark.used.tag) :
    m.load address 4 = Mark.used.tag ∨
      ∃ y ∈ granted, address = r.base + y + Field.tag.position := by
  obtain ⟨-, ho, hValue⟩ := h
  have hBase := r.base_aligned
  have hTag : Mark.used.tag % Word.alignment = 4 := by decide
  unfold put at hUsed
  by_cases hApart : address + 4 ≤ r.base + o + f.position ∨
      r.base + o + f.position + f.width ≤ address
  · rw [Memory.load_store_of_apart hApart] at hUsed
    exact Or.inl hUsed
  -- an aligned word meets a field only where the field starts
  have hStart : address = r.base + o + f.position ∧ f ≠ .next ∧ f ≠ .canary ∧ f ≠ .ringNext := by
    unfold Word.alignment at *
    cases f <;> simp only [Field.position, Field.width, ne_eq, reduceCtorEq, not_true_eq_false,
      not_false_eq_true, and_true, and_false] at hApart ⊢ <;> omega
  obtain ⟨rfl, hNext, hCanary, hRingNext⟩ := hStart
  rw [Memory.load_store_low _ (by cases f <;> decide)] at hUsed
  rcases hValue with hHarmless | ⟨rfl, hGranted⟩
  · exfalso
    cases f with
    | next => exact hNext rfl
    | canary => exact hCanary rfl
    | ringNext => exact hRingNext rfl
    | tag =>
      obtain ⟨k, hk, rfl⟩ := hHarmless
      rw [Nat.mod_eq_of_lt k.tag_lt] at hUsed
      cases k with
      | used => exact hk rfl
      | free | sentinel => exact absurd hUsed (by decide)
    | previous | ringPrevious =>
      have hMod : v % Word.alignment = 0 := hHarmless
      rw [← hUsed] at hTag
      unfold Word.alignment at *
      omega
  · exact Or.inr ⟨o, hGranted, rfl⟩

theorem Edits.used_word (h : r.Edits (Discreet kept granted) m m') {address : Nat}
    (hAligned : address % Word.alignment = 0) (hUsed : m'.load address 4 = Mark.used.tag) :
    m.load address 4 = Mark.used.tag ∨
      ∃ y ∈ granted, address = r.base + y + Field.tag.position := by
  induction h with
  | refl => exact Or.inl hUsed
  | tail _ hStep ih =>
    obtain ⟨o, f, v, hDiscreet, hWrite⟩ := hStep
    obtain ⟨-, rfl⟩ := write_eq_ok_iff.mp hWrite
    rcases hDiscreet.used_word hAligned hUsed with hBefore | hGranted
    · exact ih hBefore
    · exact Or.inr hGranted

end Region

end RegionHeap
