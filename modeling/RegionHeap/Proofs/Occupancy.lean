import Mathlib.Order.Bounds.Basic
import RegionHeap.Bins
import RegionHeap.Proofs.Intervals

/-!
# Occupied classes

One bit for each class says whether its bin has a chunk. For a request the bits are looked through
from the admitting class up, and for the largest chunk from the last class down. A machine does
neither step by step: it shifts the bits and counts the zeros at one end.

* `SizeClass.find?_eq_some_iff`, `SizeClass.find?_reverse_eq_some_iff`: what looking through the
  classes finds is the least, or the greatest, that fits.
* `Bins.firstOccupied?_eq_some_iff`, `Bins.lastOccupied?_eq_some_iff`: so it is for occupied
  classes.
* `Bins.firstOccupiedInWords?_eq`, `Bins.lastOccupiedInWords?_eq`: counting zeros finds the same,
  and runs over nowhere.
-/

namespace RegionHeap

variable {bins : Bins} {k : SizeClass}

-- ---------------------------------------------------------------------------
-- Looking through the classes
-- ---------------------------------------------------------------------------

namespace SizeClass

variable {P : SizeClass → Bool}

theorem mem_all (k : SizeClass) : k ∈ all := List.mem_finRange k

/-- **Upwards** the least class that fits is found. -/
theorem find?_eq_some_iff : all.find? P = some k ↔ IsLeast {j | P j = true} k := by
  constructor
  · intro hFound
    exact ⟨List.find?_some hFound, fun j hj => le_of_find? hFound hj⟩
  · intro hLeast
    cases hFound : all.find? P with
    | none => exact absurd hLeast.1 (List.find?_eq_none.mp hFound k (mem_all k))
    | some j =>
      have hFits : P j = true := List.find?_some hFound
      rw [Fin.le_antisymm (le_of_find? hFound hLeast.1) (hLeast.2 hFits)]

/-- **Downwards** the greatest class that fits is found. -/
theorem find?_reverse_eq_some_iff :
    all.reverse.find? P = some k ↔ IsGreatest {j | P j = true} k := by
  constructor
  · intro hFound
    exact ⟨List.find?_some hFound, fun j hj => le_of_find?_reverse hFound hj⟩
  · intro hGreatest
    cases hFound : all.reverse.find? P with
    | none =>
      have hNone := List.find?_eq_none.mp hFound k (List.mem_reverse.mpr (mem_all k))
      exact absurd hGreatest.1 hNone
    | some j =>
      have hFits : P j = true := List.find?_some hFound
      rw [Fin.le_antisymm (hGreatest.2 hFits) (le_of_find?_reverse hFound hGreatest.1)]

end SizeClass

-- ---------------------------------------------------------------------------
-- Occupied classes
-- ---------------------------------------------------------------------------

namespace Bins

/-- Whether class `k` is marked as one that has a chunk. -/
def Occupies (bins : Bins) (k : SizeClass) : Prop := bins.occupied.getLsbD k = true

theorem firstOccupied?_eq_some_iff {start : SizeClass} :
    bins.firstOccupied? start = some k ↔ IsLeast {j | start ≤ j ∧ bins.Occupies j} k := by
  have hFits : {j : SizeClass | (decide (start ≤ j) && bins.occupied[j]) = true} =
      {j | start ≤ j ∧ bins.Occupies j} := by
    ext j
    simp [Occupies]
  rw [firstOccupied?, SizeClass.find?_eq_some_iff, hFits]

theorem firstOccupied?_eq_none_iff {start : SizeClass} :
    bins.firstOccupied? start = none ↔ ∀ j, start ≤ j → ¬bins.Occupies j := by
  rw [firstOccupied?, List.find?_eq_none]
  constructor
  · intro h j hStart hOccupied
    exact h j (SizeClass.mem_all j) (Bool.and_eq_true_iff.mpr ⟨decide_eq_true hStart, hOccupied⟩)
  · intro h j _ hFits
    simp only [Bool.and_eq_true, decide_eq_true_eq] at hFits
    exact h j hFits.1 hFits.2

theorem lastOccupied?_eq_some_iff :
    bins.lastOccupied? = some k ↔ IsGreatest {j | bins.Occupies j} k :=
  SizeClass.find?_reverse_eq_some_iff

theorem lastOccupied?_eq_none_iff : bins.lastOccupied? = none ↔ ∀ j, ¬bins.Occupies j := by
  rw [lastOccupied?, List.find?_eq_none]
  constructor
  · intro h j
    exact h j (List.mem_reverse.mpr (SizeClass.mem_all j))
  · intro h j _
    exact h j

-- ---------------------------------------------------------------------------
-- Counting zeros
-- ---------------------------------------------------------------------------

/-- The first class from `start` on that has a chunk, in words: the bits are shifted so that those
before `start` drop out. -/
def firstOccupiedInWords? (bins : Bins) (start : Nat) : Checked (Option Nat) :=
  if SizeClass.count ≤ start then return none
  else
    let above := bins.occupied >>> start
    if above = 0#64 then return none
    else return some (← Word.add start above.ctz.toNat)

/-- The last class that has a chunk, in words. -/
def lastOccupiedInWords? (bins : Bins) : Checked (Option Nat) :=
  if bins.occupied = 0#64 then return none
  else return some (← Word.sub (← Word.sub SizeClass.count 1) bins.occupied.clz.toNat)

/-- Shifted by `start`, the bits tell which classes are occupied from there on. -/
theorem occupies_iff_shifted {start : Nat} (hStart : start ≤ k.val) :
    bins.Occupies k ↔ (bins.occupied >>> start).getLsbD (k.val - start) = true := by
  rw [Occupies, BitVec.getLsbD_ushiftRight, Nat.add_sub_cancel' hStart]

/-- When nothing is left of the bits, no class from `start` on is occupied. -/
theorem firstOccupied?_of_shift_eq_zero (start : SizeClass)
    (hZero : bins.occupied >>> start.val = 0#64) : bins.firstOccupied? start = none := by
  refine firstOccupied?_eq_none_iff.mpr fun j hStart hOccupied => ?_
  rw [occupies_iff_shifted hStart, hZero, BitVec.getLsbD_zero] at hOccupied
  exact absurd hOccupied (by decide)

/-- The zeros below the lowest bit that is left lead to the first occupied class. -/
theorem firstOccupied?_of_shift_ne_zero (start : SizeClass)
    (hNonzero : bins.occupied >>> start.val ≠ 0#64) :
    ∃ hLt : start.val + (bins.occupied >>> start.val).ctz.toNat < 64,
      bins.firstOccupied? start = some ⟨_, hLt⟩ := by
  have hBit := BitVec.getLsbD_true_ctz_of_ne_zero hNonzero
  rw [BitVec.getLsbD_ushiftRight] at hBit
  refine ⟨BitVec.lt_of_getLsbD hBit, firstOccupied?_eq_some_iff.mpr ⟨⟨?_, hBit⟩, ?_⟩⟩
  · exact Fin.le_def.mpr (Nat.le_add_right _ _)
  · rintro j ⟨hStart, hOccupied⟩
    have hStartLe : start.val ≤ j.val := hStart
    rw [occupies_iff_shifted hStart] at hOccupied
    -- below the zeros that were counted no bit is set
    refine Nat.le_of_not_lt fun hBelow => ?_
    have hLess : j.val - start.val < (bins.occupied >>> start.val).ctz.toNat := by
      have : j.val < start.val + (bins.occupied >>> start.val).ctz.toNat := hBelow
      omega
    exact absurd (BitVec.getLsbD_false_of_lt_ctz hLess ▸ hOccupied) (by decide)

/-- The zeros above the highest bit lead to the last occupied class. -/
theorem lastOccupied?_of_ne_zero (hNonzero : bins.occupied ≠ 0#64) :
    ∃ hLt : 63 - bins.occupied.clz.toNat < 64, bins.lastOccupied? = some ⟨_, hLt⟩ := by
  refine ⟨by omega, lastOccupied?_eq_some_iff.mpr ⟨?_, fun j hOccupied => ?_⟩⟩
  · exact BitVec.getLsbD_true_clz_of_ne_zero (by decide) hNonzero
  · -- a set bit above would make the word too large for the zeros that were counted
    have hLow : 2 ^ j.val ≤ bins.occupied.toNat := Nat.ge_two_pow_of_testBit hOccupied
    have hHigh := BitVec.toNat_lt_two_pow_sub_clz (x := bins.occupied)
    have hLess : j.val < 64 - bins.occupied.clz.toNat :=
      (Nat.pow_lt_pow_iff_right (by decide)).mp (Nat.lt_of_le_of_lt hLow hHigh)
    have : j.val ≤ 63 - bins.occupied.clz.toNat := by omega
    exact Fin.le_def.mpr this

/-- **Counting zeros from below** finds the first occupied class. From the number of classes on
there is nothing to be found. -/
theorem firstOccupiedInWords?_eq (bins : Bins) (start : Nat) :
    bins.firstOccupiedInWords? start =
      .ok (if h : start < SizeClass.count then (bins.firstOccupied? ⟨start, h⟩).map Fin.val
        else none) := by
  unfold firstOccupiedInWords?
  by_cases hStart : start < SizeClass.count
  · rw [if_neg (Nat.not_le.mpr hStart), dif_pos hStart]
    by_cases hZero : bins.occupied >>> start = 0#64
    · simp only
      rw [if_pos hZero, firstOccupied?_of_shift_eq_zero ⟨start, hStart⟩ hZero]
      rfl
    · obtain ⟨hLt, hFirst⟩ := firstOccupied?_of_shift_ne_zero ⟨start, hStart⟩ hZero
      have hSum : Word.add start (bins.occupied >>> start).ctz.toNat =
          .ok (start + (bins.occupied >>> start).ctz.toNat) := by
        refine Word.add_eq_ok_iff.mpr ⟨rfl, ?_⟩
        exact Nat.lt_trans hLt (by decide)
      simp only
      rw [if_neg hZero, hSum, hFirst]
      rfl
  · rw [if_pos (Nat.le_of_not_lt hStart), dif_neg hStart]
    rfl

/-- **Counting zeros from above** finds the last occupied class. -/
theorem lastOccupiedInWords?_eq (bins : Bins) :
    bins.lastOccupiedInWords? = .ok (bins.lastOccupied?.map Fin.val) := by
  unfold lastOccupiedInWords?
  by_cases hZero : bins.occupied = 0#64
  · have hNone : bins.lastOccupied? = none := by
      refine lastOccupied?_eq_none_iff.mpr fun j hOccupied => ?_
      rw [Occupies, hZero, BitVec.getLsbD_zero] at hOccupied
      exact absurd hOccupied (by decide)
    rw [if_pos hZero, hNone]
    rfl
  · obtain ⟨hLt, hLast⟩ := lastOccupied?_of_ne_zero hZero
    have hZeros : bins.occupied.clz.toNat < 64 :=
      BitVec.lt_def.mp (BitVec.clz_lt_iff_ne_zero.mpr hZero)
    have hCount : Word.sub SizeClass.count 1 = .ok 63 := rfl
    have hDifference : Word.sub 63 bins.occupied.clz.toNat = .ok (63 - bins.occupied.clz.toNat) :=
      Word.sub_eq_ok_iff.mpr ⟨by omega, rfl⟩
    rw [if_neg hZero, hCount, hLast]
    show (do return some (← Word.sub 63 bins.occupied.clz.toNat)) = _
    rw [hDifference]
    rfl

end Bins

end RegionHeap
