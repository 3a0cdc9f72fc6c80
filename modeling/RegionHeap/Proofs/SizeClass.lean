import Mathlib.Algebra.Group.Nat.Defs
import RegionHeap.Heap.Allocate

/-!
# Classes and sizes

A chunk is filed by the power of two below its size and found by the power of two above
a request, so what is found is large enough.

* `SizeClass.two_pow_le_of_ofSize_eq`, `SizeClass.lt_two_pow_of_ofSize_eq`: the sizes of
  a class.
* `SizeClass.admitting?_eq_some_iff`, `SizeClass.admitting?_eq_none_iff`: the first class
  that covers a request.
* `SizeClass.le_of_find?`, `SizeClass.le_of_find?_reverse`: looking through the classes from the
  first one up, or from the last one down.
* `payloadNeed?_spec`: what a request is rounded up to.
-/

namespace RegionHeap

/-- In a sorted list, what is found comes before whatever else fits. -/
theorem eq_or_rel_of_find? {α : Type} {R : α → α → Prop} {P : α → Bool} {l : List α} {a x : α}
    (hSorted : l.Pairwise R) (hFound : l.find? P = some a) (hMem : x ∈ l) (hx : P x = true) :
    x = a ∨ R a x := by
  obtain ⟨-, before, after, rfl, hBefore⟩ := List.find?_eq_some_iff_append.mp hFound
  rcases List.mem_append.mp hMem with hx' | hx'
  · have := hBefore x hx'
    rw [hx] at this
    exact absurd this (by decide)
  · rcases List.mem_cons.mp hx' with rfl | hx'
    · exact Or.inl rfl
    · exact Or.inr (List.rel_of_pairwise_cons (List.pairwise_append.mp hSorted).2.1 hx')

namespace SizeClass

variable {n need : Nat} {j k : SizeClass}

theorem val_ofSize (hn : n < Word.limit) : (ofSize n).val = n.log2 := by
  have hLog : n.log2 < 64 := by
    by_cases h0 : n = 0
    · subst h0
      decide
    · exact (Nat.log2_lt h0).mpr hn
  show min n.log2 63 = n.log2
  omega

theorem range_eq (k : SizeClass) : k.range = (2 ^ k.val, 2 ^ (k.val + 1) - 1) := by
  rw [range, Nat.one_shiftLeft, Nat.one_shiftLeft]

/-- No size of a class is below the class's power of two. -/
theorem two_pow_le_of_ofSize_eq (h0 : n ≠ 0) (h : ofSize n = k) : 2 ^ k.val ≤ n := by
  have hLe : k.val ≤ n.log2 := by
    rw [← h]
    exact Nat.min_le_left _ _
  exact Nat.le_trans (Nat.pow_le_pow_right (by decide) hLe) (Nat.log2_self_le h0)

/-- Every size of a class is below the next power of two. -/
theorem lt_two_pow_of_ofSize_eq (hn : n < Word.limit) (h : ofSize n = k) :
    n < 2 ^ (k.val + 1) := by
  rw [← h, val_ofSize hn]
  exact Nat.lt_log2_self

/-- From the admitting class on, and only there, every size covers the request. -/
theorem admitting?_eq_some_iff : admitting? need = some k ↔
    ∀ j : SizeClass, k ≤ j ↔ need ≤ 2 ^ j.val := by
  have hPow : ∀ j : SizeClass, 1 ≤ 2 ^ j.val := fun j => Nat.one_le_two_pow
  -- two classes with the same classes above them are the same
  have hUnique : ∀ i : SizeClass, (∀ j : SizeClass, i ≤ j ↔ need ≤ 2 ^ j.val) →
      (i = k ↔ ∀ j : SizeClass, k ≤ j ↔ need ≤ 2 ^ j.val) := by
    intro i hi
    constructor
    · rintro rfl
      exact hi
    · intro hk
      exact Fin.le_antisymm ((hi k).mpr ((hk k).mp (Fin.le_refl k)))
        ((hk i).mpr ((hi i).mp (Fin.le_refl i)))
  unfold admitting?
  split
  · next hOne =>
    rw [Option.some.injEq]
    refine hUnique 0 fun j => ⟨fun _ => ?_, fun _ => Fin.zero_le j⟩
    have := hPow j
    omega
  · next hOne =>
    have hLog : ∀ j : Nat, (need - 1).log2 + 1 ≤ j ↔ need ≤ 2 ^ j := by
      intro j
      rw [Nat.succ_le_iff, Nat.log2_lt (by omega)]
      omega
    split
    · next h64 =>
      rw [Option.some.injEq]
      refine hUnique ⟨(need - 1).log2 + 1, h64⟩ fun j => ?_
      rw [Fin.le_def]
      exact hLog j.val
    · next h64 =>
      refine ⟨fun h => absurd h (by simp), fun h => ?_⟩
      have := (hLog k.val).mpr ((h k).mp (Fin.le_refl k))
      have := k.isLt
      omega

/-- No class admits a request that is larger than the last power of two. -/
theorem admitting?_eq_none_iff : admitting? need = none ↔
    ∀ j : SizeClass, ¬need ≤ 2 ^ j.val := by
  have hPow : 1 ≤ 2 ^ (0 : SizeClass).val := Nat.one_le_two_pow
  unfold admitting?
  split
  · next hOne =>
    refine ⟨fun h => absurd h (by simp), fun h => absurd ?_ (h 0)⟩
    omega
  · next hOne =>
    have hLog : ∀ j : Nat, (need - 1).log2 + 1 ≤ j ↔ need ≤ 2 ^ j := by
      intro j
      rw [Nat.succ_le_iff, Nat.log2_lt (by omega)]
      omega
    split
    · next h64 =>
      refine ⟨fun h => absurd h (by simp), fun h => ?_⟩
      exact absurd ((hLog _).mp (Nat.le_refl _)) (h ⟨(need - 1).log2 + 1, h64⟩)
    · next h64 =>
      refine ⟨fun _ j hj => ?_, fun _ => rfl⟩
      have := (hLog j.val).mpr hj
      have := j.isLt
      omega

/-- Looking through the classes from the first one up, none below the one found fits. -/
theorem le_of_find? {P : SizeClass → Bool} (hFound : all.find? P = some k) (hj : P j = true) :
    k ≤ j := by
  rcases eq_or_rel_of_find? (List.pairwise_lt_finRange 64) hFound (List.mem_finRange j) hj with
    rfl | hLt
  · exact Fin.le_refl j
  · exact Fin.le_of_lt hLt

/-- Looking through the classes from the last one down, none above the one found fits. -/
theorem le_of_find?_reverse {P : SizeClass → Bool} (hFound : all.reverse.find? P = some k)
    (hj : P j = true) : j ≤ k := by
  rcases eq_or_rel_of_find? (List.pairwise_reverse.mpr (List.pairwise_lt_finRange 64)) hFound
    (List.mem_reverse.mpr (List.mem_finRange j)) hj with rfl | hLt
  · exact Fin.le_refl j
  · exact Fin.le_of_lt hLt

end SizeClass

/-- A request is served with an aligned payload that covers it. -/
theorem payloadNeed?_spec {size need : Nat} (h : payloadNeed? size = some need) :
    size ≤ need ∧ minPayload ≤ need ∧ need % Word.alignment = 0 := by
  obtain ⟨rounded, hRounded, rfl⟩ := Option.map_eq_some_iff.mp h
  obtain ⟨hLe, -, hMod, -⟩ := Word.alignUp?_eq_some_iff.mp hRounded
  refine ⟨Nat.le_trans hLe (Nat.le_max_left _ _), Nat.le_max_right _ _, ?_⟩
  rcases Nat.le_total rounded minPayload with h | h
  · rw [Nat.max_eq_right h]
    rfl
  · rw [Nat.max_eq_left h]
    exact hMod

end RegionHeap
