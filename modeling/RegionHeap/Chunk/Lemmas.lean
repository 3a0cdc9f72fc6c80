import RegionHeap.Chunk.Chain
import RegionHeap.Memory.Lemmas

/-!
# Laws of chunk fields

Reading and writing fields, as loads and stores of words.

Main statements:

* `Region.Accessible`: what a field belongs to lies inside the region and is aligned.
* `read_eq_ok_iff`, `write_eq_ok_iff`: these are the fields that can be read and written, and
  reading is loading, writing is storing.
-/

namespace RegionHeap

namespace Field

/-- Every field lies inside the part of the chunk that has to be in the region. -/
theorem position_add_width_le_reach (f : Field) : f.position + f.width ≤ f.reach := by
  cases f <;> decide

/-- The fields of one chunk do not overlap. -/
theorem apart_of_ne {f g : Field} (h : f ≠ g) :
    f.position + f.width ≤ g.position ∨ g.position + g.width ≤ f.position := by
  cases f <;> cases g <;> first | exact absurd rfl h | decide

theorem reach_le (f : Field) : f.reach ≤ headerSize + minPayload := by
  cases f <;> decide

end Field

namespace Region

/-- The field can be accessed: what it belongs to lies inside the region, and is aligned. -/
structure Accessible (r : Region) (f : Field) (offset : Nat) : Prop where
  reach : offset + f.reach ≤ r.size
  aligned : offset % f.alignment = 0

variable {r : Region} {m m' : Memory} {offset v address : Nat} {f : Field}

/-- At an aligned offset every field is aligned. -/
theorem Accessible.of_aligned (hReach : offset + f.reach ≤ r.size)
    (hAligned : offset % Word.alignment = 0) : r.Accessible f offset := by
  refine ⟨hReach, ?_⟩
  unfold Word.alignment at hAligned
  cases f <;> simp only [Field.alignment, Word.alignment] <;> omega

theorem fieldAddress_eq_ok_iff :
    r.fieldAddress offset f = .ok address ↔
      r.Accessible f offset ∧ r.base + offset + f.position = address := by
  unfold fieldAddress
  constructor
  · intro h
    split at h
    · cases h
    · next hReach =>
      split at h
      · cases h
      · next hAligned =>
        exact ⟨⟨Nat.le_of_not_lt hReach, Decidable.of_not_not hAligned⟩, Except.ok.inj h⟩
  · rintro ⟨⟨hReach, hAligned⟩, rfl⟩
    rw [if_neg (Nat.not_lt.mpr hReach), if_neg (fun h => h hAligned)]

/-- What is done with the address of a field is done if the field can be accessed. -/
theorem fieldAddress_bind_eq_ok_iff {α : Type} {g : Nat → α} {a : α} :
    (do return g (← r.fieldAddress offset f) : Checked α) = .ok a ↔
      r.Accessible f offset ∧ g (r.base + offset + f.position) = a := by
  rw [bind_eq_ok_iff]
  constructor
  · rintro ⟨address, hAddress, hResult⟩
    obtain ⟨hAccess, rfl⟩ := fieldAddress_eq_ok_iff.mp hAddress
    exact ⟨hAccess, Except.ok.inj hResult⟩
  · rintro ⟨hAccess, rfl⟩
    exact ⟨_, fieldAddress_eq_ok_iff.mpr ⟨hAccess, rfl⟩, rfl⟩

theorem read_eq_ok_iff :
    r.read m offset f = .ok v ↔
      r.Accessible f offset ∧ m.load (r.base + offset + f.position) f.width = v :=
  fieldAddress_bind_eq_ok_iff

theorem write_eq_ok_iff :
    r.write m offset f v = .ok m' ↔
      r.Accessible f offset ∧ m.store (r.base + offset + f.position) f.width v = m' :=
  fieldAddress_bind_eq_ok_iff

/-- What reading makes of a field depends on the bytes of the field alone, and on no byte at all
if it cannot be accessed. -/
theorem read_congr (h : r.Accessible f offset → ∀ x, r.base + offset + f.position ≤ x →
    x < r.base + offset + f.position + f.width → m'.byte x = m.byte x) :
    r.read m' offset f = r.read m offset f := by
  unfold read
  cases hAddress : r.fieldAddress offset f with
  | error fault => rfl
  | ok address =>
    obtain ⟨hAccess, rfl⟩ := fieldAddress_eq_ok_iff.mp hAddress
    rw [ok_bind, ok_bind, Memory.load_congr (h hAccess)]

end Region

end RegionHeap
