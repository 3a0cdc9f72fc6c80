import Mathlib.Algebra.GroupWithZero.Nat
import Mathlib.Logic.Relation
import RegionHeap.Chunk.Lemmas

/-!
# Edits of a region

What a heap does to memory is a sequence of writes of fields. Two views of it are enough
for everything that follows:

* `Region.content` is what a field holds, as a function of the chunk's offset, and
  `content_put` says that writing one field is an update of that function, as long as
  the chunks concerned do not overlap.
* `Region.Edits P` relates two memories of which the second comes from the first by
  field writes that all satisfy `P`. Bytes that no such write touches are unchanged
  (`Edits.byte_eq`), and so are contents (`Edits.content_eq`).
-/

namespace RegionHeap

-- ---------------------------------------------------------------------------
-- Sums of words
-- ---------------------------------------------------------------------------

namespace Word

/-- Words are summed from left to right, and no sum on the way is larger than the last. -/
theorem foldlM_add_eq_ok_iff (ns : List Nat) : ∀ {a n : Nat}, a < limit →
    (ns.foldlM add a = .ok n ↔ a + ns.sum = n ∧ n < limit) := by
  induction ns with
  | nil =>
    intro a n ha
    rw [List.foldlM_nil, List.sum_nil, Nat.add_zero]
    constructor
    · intro h
      obtain rfl : a = n := Except.ok.inj h
      exact ⟨rfl, ha⟩
    · rintro ⟨rfl, -⟩
      rfl
  | cons b rest ih =>
    intro a n ha
    rw [List.foldlM_cons, List.sum_cons, ← Nat.add_assoc]
    by_cases hb : a + b < limit
    · rw [add_eq_ok_iff.mpr ⟨rfl, hb⟩]
      exact ih hb
    · unfold add
      rw [if_neg hb]
      constructor
      · intro h
        cases h
      · intro h
        omega

theorem sum_eq_ok_iff {ns : List Nat} {n : Nat} :
    sum ns = .ok n ↔ ns.sum = n ∧ n < limit := by
  unfold sum
  rw [foldlM_add_eq_ok_iff ns (by decide), Nat.zero_add]

end Word

namespace Region

variable {r : Region} {m m' : Memory} {f g : Field} {o y v : Nat}

-- ---------------------------------------------------------------------------
-- Contents of fields
-- ---------------------------------------------------------------------------

/-- What a field holds in the chunk at `offset`. -/
def content (r : Region) (m : Memory) (f : Field) (offset : Nat) : Nat :=
  m.load (r.base + offset + f.position) f.width

/-- Memory after a field of the chunk at `offset` was written. -/
def put (r : Region) (m : Memory) (f : Field) (offset value : Nat) : Memory :=
  m.store (r.base + offset + f.position) f.width value

theorem read_eq_content (h : r.Accessible f o) : r.read m o f = .ok (r.content m f o) :=
  read_eq_ok_iff.mpr ⟨h, rfl⟩

theorem write_eq_put (h : r.Accessible f o) : r.write m o f v = .ok (r.put m f o v) :=
  write_eq_ok_iff.mpr ⟨h, rfl⟩

/-- A field that was written is read back, cut to its width. -/
theorem content_put_self : r.content (r.put m f o v) f o = v % 256 ^ f.width :=
  Memory.load_store _ _ _ _

/-- The field `f` of the chunk at `o` and the field `g` of the chunk at `y` belong to the
same chunk or to chunks that do not overlap, as far as the fields reach. -/
def Clear (f : Field) (o : Nat) (g : Field) (y : Nat) : Prop :=
  o = y ∨ o + f.reach ≤ y ∨ y + g.reach ≤ o

/-- Fields of clear chunks share no byte, unless they are the same field. -/
theorem Clear.apart (h : Clear f o g y) (hne : ¬(y = o ∧ g = f)) :
    y + g.position + g.width ≤ o + f.position ∨ o + f.position + f.width ≤ y + g.position := by
  have hf := f.position_add_width_le_reach
  have hg := g.position_add_width_le_reach
  rcases h with rfl | h | h
  · have hfg : f ≠ g := by
      rintro rfl
      exact hne ⟨rfl, rfl⟩
    have := Field.apart_of_ne hfg
    omega
  · omega
  · omega

/-- **Writing a field is an update** of the contents of all clear chunks. -/
theorem content_put (h : Clear f o g y) (hv : v < 256 ^ f.width) :
    r.content (r.put m f o v) g y = if y = o ∧ g = f then v else r.content m g y := by
  split
  · next heq =>
    obtain ⟨rfl, rfl⟩ := heq
    rw [content_put_self, Nat.mod_eq_of_lt hv]
  · next hne =>
    have := h.apart hne
    exact Memory.load_store_of_apart (by omega)

/-- Contents depend on the bytes of the field only. -/
theorem content_congr
    (h : ∀ x, r.base + y + g.position ≤ x → x < r.base + y + g.position + g.width →
      m'.byte x = m.byte x) : r.content m' g y = r.content m g y :=
  Memory.load_congr h

-- ---------------------------------------------------------------------------
-- Sequences of writes
-- ---------------------------------------------------------------------------

/-- `m'` comes from `m` by writing fields, each at an offset and with a value that
satisfy `P`. -/
def Edits (r : Region) (P : Nat → Field → Nat → Prop) : Memory → Memory → Prop :=
  Relation.ReflTransGen fun m m' => ∃ o f v, P o f v ∧ r.write m o f v = .ok m'

namespace Edits

variable {P Q : Nat → Field → Nat → Prop} {m₁ m₂ m₃ : Memory}

theorem refl (m : Memory) : r.Edits P m m := Relation.ReflTransGen.refl

theorem trans (h₁ : r.Edits P m₁ m₂) (h₂ : r.Edits P m₂ m₃) : r.Edits P m₁ m₃ :=
  Relation.ReflTransGen.trans h₁ h₂

theorem mono (h : r.Edits P m₁ m₂) (hPQ : ∀ o f v, P o f v → Q o f v) : r.Edits Q m₁ m₂ :=
  Relation.ReflTransGen.mono (fun _ _ ⟨o, f, v, hP, hw⟩ => ⟨o, f, v, hPQ o f v hP, hw⟩) _ _ h

/-- One more write at the end. -/
theorem put (h : r.Edits P m₁ m₂) (hAccess : r.Accessible f o) (hP : P o f v) :
    r.Edits P m₁ (r.put m₂ f o v) :=
  Relation.ReflTransGen.tail h ⟨o, f, v, hP, write_eq_put hAccess⟩

/-- Bytes of no edited field are unchanged. -/
theorem byte_eq (h : r.Edits P m₁ m₂) {x : Nat}
    (hx : ∀ o f v, P o f v → o + f.reach ≤ r.size →
      x < r.base + o + f.position ∨ r.base + o + f.position + f.width ≤ x) :
    m₂.byte x = m₁.byte x := by
  induction h with
  | refl => rfl
  | tail _ hStep ih =>
    obtain ⟨o, f, v, hP, hw⟩ := hStep
    obtain ⟨hAccess, rfl⟩ := write_eq_ok_iff.mp hw
    rw [Memory.byte_store_of_outside (hx o f v hP hAccess.reach), ih]

/-- Edits stay inside the region. -/
theorem byte_outside (h : r.Edits P m₁ m₂) {x : Nat} (hx : x < r.base ∨ r.stop ≤ x) :
    m₂.byte x = m₁.byte x := by
  refine h.byte_eq fun o f v _ hReach => ?_
  have := f.position_add_width_le_reach
  unfold stop at hx
  omega

/-- Words that no edited field overlaps are unchanged. -/
theorem load_eq (h : r.Edits P m₁ m₂) {address width : Nat}
    (hApart : ∀ o f v, P o f v → o + f.reach ≤ r.size →
      address + width ≤ r.base + o + f.position ∨
        r.base + o + f.position + f.width ≤ address) :
    m₂.load address width = m₁.load address width := by
  refine Memory.load_congr fun x hx hx' => h.byte_eq fun o f v hP hReach => ?_
  have := hApart o f v hP hReach
  omega

/-- Contents of chunks that are clear of all edits are unchanged. -/
theorem content_eq (h : r.Edits P m₁ m₂)
    (hClear : ∀ o f v, P o f v → Clear f o g y ∧ ¬(y = o ∧ g = f)) :
    r.content m₂ g y = r.content m₁ g y := by
  refine h.load_eq fun o f v hP _ => ?_
  obtain ⟨hc, hne⟩ := hClear o f v hP
  have := hc.apart hne
  omega

end Edits

end Region

end RegionHeap
