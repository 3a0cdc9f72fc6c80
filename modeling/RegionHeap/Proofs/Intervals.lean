import Mathlib.Data.Set.Lattice
import Mathlib.Order.CompletePartialOrder
import Mathlib.Order.Interval.Set.Basic
import RegionHeap.Proofs.SizeClass

/-!
# Classes as intervals

The sizes of the classes are intervals of words, one behind the other, and a size is in the class
that is computed for it. A request is admitted at the least class that has no size below it, so a
chunk from there on is large enough, and a class before that may not do.

A machine computes classes in words: it finds the highest set bit by counting the zeros above it,
and the last size of a class by a difference and a sum that are allowed to go around where the
words end. `ofSizeInWords`, `admittingInWords?` and `rangeInWords` are these computations. No step
of them runs over or goes around, and they give the classes, the admission and the ranges that
everything else is about.

* `leadingZeros_add_log2`: zeros above the highest bit, and its position.
* `ofSizeInWords_eq`, `admittingInWords?_eq`, `rangeInWords_eq`: the computations in words.
* `mem_sizes_iff_ofSize_eq`: the class of a size is the one whose interval has it.
* `isLeast_admitting`: the admitting class is the least that covers the request.
* `classes_divide_words`: all of it, for any size and any request.
-/

namespace RegionHeap

-- ---------------------------------------------------------------------------
-- Words that go around
-- ---------------------------------------------------------------------------

namespace Word

/-- How many zero bits a word has above its highest set bit. -/
def leadingZeros (n : Nat) : Nat := (BitVec.ofNat 64 n).clz.toNat

/-- The sum of two words, which goes on from zero where the words end. -/
def wrappingAdd (a b : Nat) : Nat := (a + b) % limit

/-- The difference of two words, which goes on from the last word below zero. -/
def wrappingSub (a b : Nat) : Nat := (a + limit - b) % limit

/-- One, shifted by less than the width of a word. -/
def bit (k : Nat) : Checked Nat := if k < 64 then .ok (1 <<< k) else .error .overflow

/-- **The highest set bit** is found by the zeros above it. -/
theorem leadingZeros_add_log2 {n : Nat} (h0 : n ≠ 0) (hn : n < limit) :
    leadingZeros n + n.log2 = 63 := by
  have hWord : (BitVec.ofNat 64 n).toNat = n := by
    rw [BitVec.toNat_ofNat]
    exact Nat.mod_eq_of_lt hn
  have hNonzero : BitVec.ofNat 64 n ≠ 0#64 := by
    intro hZero
    rw [hZero] at hWord
    exact h0 hWord.symm
  have hLow : 2 ^ (64 - 1 - leadingZeros n) ≤ n := by
    have := BitVec.two_pow_sub_clz_le_toNat_of_ne_zero (by decide) hNonzero
    rwa [hWord] at this
  have hHigh : n < 2 ^ (64 - leadingZeros n) := by
    have := BitVec.toNat_lt_two_pow_sub_clz (x := BitVec.ofNat 64 n)
    rwa [hWord] at this
  have hZeros : leadingZeros n < 64 := BitVec.lt_def.mp (BitVec.clz_lt_iff_ne_zero.mpr hNonzero)
  have hLog : n.log2 = 63 - leadingZeros n := by
    rw [Nat.log2_eq_iff h0]
    refine ⟨hLow, ?_⟩
    rwa [show 63 - leadingZeros n + 1 = 64 - leadingZeros n by omega]
  omega

end Word

namespace SizeClass

variable {n need : Nat} {j k : SizeClass}

-- ---------------------------------------------------------------------------
-- Classes in words
-- ---------------------------------------------------------------------------

/-- The class of a size, in words. -/
def ofSizeInWords (n : Nat) : Checked Nat :=
  if n = 0 then return 0
  else do Word.sub (← Word.sub count 1) (Word.leadingZeros n)

/-- The first class whose every chunk holds at least `need` bytes, in words. -/
def admittingInWords? (need : Nat) : Checked (Option Nat) :=
  if need ≤ 1 then return some 0
  else do
    let below ← ofSizeInWords (← Word.sub need 1)
    let k ← Word.add below 1
    return if k < count then some k else none

/-- The smallest and the largest size of a class, in words. -/
def rangeInWords (k : Nat) : Checked (Nat × Nat) := do
  let least ← Word.bit k
  return (least, Word.wrappingAdd (Word.wrappingSub least 1) least)

/-- **The class of a size** is computed without running over. -/
theorem ofSizeInWords_eq (hn : n < Word.limit) : ofSizeInWords n = .ok (ofSize n).val := by
  unfold ofSizeInWords
  split
  · next h0 =>
    subst h0
    rfl
  · next h0 =>
    have hBits := Word.leadingZeros_add_log2 h0 hn
    have hLast : Word.sub count 1 = .ok 63 := rfl
    rw [hLast, val_ofSize hn]
    exact Word.sub_eq_ok_iff.mpr ⟨by omega, by omega⟩

/-- **The class a request is admitted at** is computed without running over. -/
theorem admittingInWords?_eq (hNeed : need < Word.limit) :
    admittingInWords? need = .ok ((admitting? need).map Fin.val) := by
  unfold admittingInWords? admitting?
  split
  · rfl
  · next hOne =>
    have hLess : need - 1 < Word.limit := by omega
    have hLog : (need - 1).log2 < 64 := by
      rw [← val_ofSize hLess]
      exact (ofSize (need - 1)).isLt
    have hBelow : Word.sub need 1 = .ok (need - 1) := Word.sub_eq_ok_iff.mpr ⟨by omega, rfl⟩
    have hNext : Word.add (need - 1).log2 1 = .ok ((need - 1).log2 + 1) := by
      refine Word.add_eq_ok_iff.mpr ⟨rfl, ?_⟩
      unfold Word.limit
      omega
    rw [hBelow]
    show (do
      let below ← ofSizeInWords (need - 1)
      let k ← Word.add below 1
      return if k < count then some k else none) = _
    rw [ofSizeInWords_eq hLess, val_ofSize hLess]
    show (do
      let k ← Word.add (need - 1).log2 1
      return if k < count then some k else none) = _
    rw [hNext]
    show Except.ok (if (need - 1).log2 + 1 < 64 then some ((need - 1).log2 + 1) else none) = _
    split <;> rfl

/-- **The bounds of a class** are computed without running over; at the last class the sum just
reaches the last word. -/
theorem rangeInWords_eq (k : SizeClass) : rangeInWords k = .ok k.range := by
  have hOne := Nat.one_le_two_pow (n := k.val)
  have hPow : 2 ^ k.val ≤ 2 ^ 63 := Nat.pow_le_pow_right (by decide) (by omega)
  have hBit : Word.bit k = .ok (2 ^ k.val) := by
    rw [Word.bit, if_pos k.isLt, Nat.one_shiftLeft]
  have hLimit : Word.limit = 2 ^ 63 + 2 ^ 63 := rfl
  have hLast : Word.wrappingAdd (Word.wrappingSub (2 ^ k.val) 1) (2 ^ k.val) =
      2 ^ (k.val + 1) - 1 := by
    unfold Word.wrappingAdd Word.wrappingSub
    rw [hLimit, Nat.pow_succ]
    omega
  rw [rangeInWords, hBit, range_eq, ← hLast]
  rfl

-- ---------------------------------------------------------------------------
-- Intervals
-- ---------------------------------------------------------------------------

/-- The sizes between the bounds of a class. -/
def sizes (k : SizeClass) : Set Nat := Set.Icc k.range.1 k.range.2

theorem mem_sizes_iff : n ∈ k.sizes ↔ 2 ^ k.val ≤ n ∧ n < 2 ^ (k.val + 1) := by
  have := Nat.one_le_two_pow (n := k.val + 1)
  rw [sizes, range_eq, Set.mem_Icc]
  exact and_congr_right fun _ => by omega

theorem least_mem_sizes (k : SizeClass) : 2 ^ k.val ∈ k.sizes :=
  mem_sizes_iff.mpr ⟨Nat.le_refl _, Nat.pow_lt_pow_right (by decide) (by omega)⟩

/-- All sizes of a class are words, and none is zero. -/
theorem word_of_mem_sizes (h : n ∈ k.sizes) : 1 ≤ n ∧ n < Word.limit := by
  obtain ⟨hLow, hHigh⟩ := mem_sizes_iff.mp h
  have := Nat.one_le_two_pow (n := k.val)
  have : 2 ^ (k.val + 1) ≤ 2 ^ 64 := Nat.pow_le_pow_right (by decide) (by omega)
  exact ⟨by omega, Nat.lt_of_lt_of_le hHigh this⟩

/-- **The class of a size** is the one whose interval has it. -/
theorem mem_sizes_iff_ofSize_eq (h0 : n ≠ 0) (hn : n < Word.limit) :
    n ∈ k.sizes ↔ ofSize n = k := by
  rw [mem_sizes_iff, ← Nat.log2_eq_iff h0, Fin.ext_iff, val_ofSize hn]

/-- Sizes of a lower class are smaller. -/
theorem lt_of_ofSize_lt {least : Nat} (hn : n < Word.limit) (h : ofSize n < ofSize least) :
    n < least := by
  have h0 : least ≠ 0 := by
    rintro rfl
    exact absurd h (Fin.not_lt_zero _)
  calc n < 2 ^ ((ofSize n).val + 1) := lt_two_pow_of_ofSize_eq hn rfl
    _ ≤ 2 ^ (ofSize least).val := Nat.pow_le_pow_right (by decide) h
    _ ≤ least := two_pow_le_of_ofSize_eq h0 rfl

/-- No size is in two classes. -/
theorem disjoint_sizes (h : j ≠ k) : Disjoint j.sizes k.sizes := by
  refine Set.disjoint_left.mpr fun n hj hk => h ?_
  obtain ⟨hOne, hn⟩ := word_of_mem_sizes hj
  have h0 : n ≠ 0 := by omega
  rw [← (mem_sizes_iff_ofSize_eq h0 hn).mp hj, ← (mem_sizes_iff_ofSize_eq h0 hn).mp hk]

/-- Every word but zero is in a class. -/
theorem iUnion_sizes : ⋃ k, sizes k = Set.Ico 1 Word.limit := by
  ext n
  rw [Set.mem_iUnion, Set.mem_Ico]
  constructor
  · rintro ⟨k, hk⟩
    exact word_of_mem_sizes hk
  · rintro ⟨hOne, hn⟩
    exact ⟨ofSize n, (mem_sizes_iff_ofSize_eq (by omega) hn).mpr rfl⟩

/-- Every class begins behind the one before it. -/
theorem range_next (hNext : k.val = j.val + 1) : k.range.1 = j.range.2 + 1 := by
  have := Nat.one_le_two_pow (n := j.val + 1)
  rw [range_eq, range_eq, hNext]
  show 2 ^ (j.val + 1) = 2 ^ (j.val + 1) - 1 + 1
  omega

-- ---------------------------------------------------------------------------
-- Classes that cover a request
-- ---------------------------------------------------------------------------

/-- The classes that have no size below `need`. -/
def covering (need : Nat) : Set SizeClass := {k | ∀ n ∈ k.sizes, need ≤ n}

/-- The least size of a class decides. -/
theorem mem_covering_iff : k ∈ covering need ↔ need ≤ 2 ^ k.val := by
  constructor
  · intro h
    exact h _ k.least_mem_sizes
  · intro h n hn
    exact Nat.le_trans h (mem_sizes_iff.mp hn).1

/-- **A request is admitted** at the least class that covers it. -/
theorem isLeast_admitting : admitting? need = some k ↔ IsLeast (covering need) k := by
  rw [admitting?_eq_some_iff]
  constructor
  · intro h
    exact ⟨mem_covering_iff.mpr ((h k).mp (Fin.le_refl k)),
      fun j hj => (h j).mpr (mem_covering_iff.mp hj)⟩
  · rintro ⟨hCovers, hLeast⟩ j
    constructor
    · intro hLe
      exact Nat.le_trans (mem_covering_iff.mp hCovers) (Nat.pow_le_pow_right (by decide) hLe)
    · intro hNeed
      exact hLeast (mem_covering_iff.mpr hNeed)

/-- No class covers a request above the last power of two, and only such requests. -/
theorem admitting?_eq_none_iff_lt : admitting? need = none ↔ 2 ^ 63 < need := by
  rw [admitting?_eq_none_iff]
  constructor
  · intro h
    exact Nat.lt_of_not_le (h 63)
  · intro h j
    have : 2 ^ j.val ≤ 2 ^ 63 := Nat.pow_le_pow_right (by decide) (by omega)
    omega

/-- What is filed at the admitting class or above is large enough. -/
theorem le_of_admitting (h0 : n ≠ 0) (hAdmitting : admitting? need = some k)
    (hClass : k ≤ ofSize n) : need ≤ n := by
  have hCovers := (admitting?_eq_some_iff.mp hAdmitting (ofSize n)).mp hClass
  exact Nat.le_trans hCovers (two_pow_le_of_ofSize_eq h0 rfl)

/-- A class below the admitting one has a size that is too small. -/
theorem exists_lt_of_admitting (hAdmitting : admitting? need = some k) (hj : j < k) :
    ∃ n ∈ j.sizes, n < need := by
  refine ⟨2 ^ j.val, j.least_mem_sizes, Nat.lt_of_not_le fun hNeed => ?_⟩
  exact absurd ((admitting?_eq_some_iff.mp hAdmitting j).mpr hNeed) (Fin.not_le.mpr hj)

end SizeClass

open SizeClass

/-- **The classes divide the words** from one on into intervals, one behind the other, and are
computed in words without running over. A size is of the class whose interval has it. A request is
admitted at the least class that has no size below it, if there is one. So a size of that class or
of one above covers the request, and every class before it has a size that does not. -/
theorem classes_divide_words {n need : Nat} (hOne : 1 ≤ n) (hn : n < Word.limit)
    (hNeed : need < Word.limit) :
    ((SizeClass.range 0).1 = 1 ∧
      (∀ j k : SizeClass, k.val = j.val + 1 → k.range.1 = j.range.2 + 1) ∧
      (SizeClass.range 63).2 = Word.limit - 1 ∧
      (∀ j k : SizeClass, j ≠ k → Disjoint j.sizes k.sizes) ∧
      ⋃ k, sizes k = Set.Ico 1 Word.limit) ∧
    (∀ k, ofSize n = k ↔ n ∈ k.sizes) ∧
    (∀ k, admitting? need = some k ↔ IsLeast (covering need) k) ∧
    (admitting? need = none ↔ 2 ^ 63 < need) ∧
    (∀ k, admitting? need = some k →
      (k ≤ ofSize n → need ≤ n) ∧ ∀ j < k, ∃ size ∈ j.sizes, size < need) ∧
    ofSizeInWords n = .ok (ofSize n).val ∧
    admittingInWords? need = .ok ((admitting? need).map Fin.val) ∧
    ∀ k : SizeClass, rangeInWords k = .ok k.range := by
  have h0 : n ≠ 0 := by omega
  refine ⟨⟨rfl, fun j k => range_next, rfl, fun j k => disjoint_sizes, iUnion_sizes⟩,
    fun k => (mem_sizes_iff_ofSize_eq h0 hn).symm, fun k => isLeast_admitting,
    admitting?_eq_none_iff_lt, fun k hAdmitting => ⟨le_of_admitting h0 hAdmitting,
      fun j hj => exists_lt_of_admitting hAdmitting hj⟩,
    ofSizeInWords_eq hn, admittingInWords?_eq hNeed, rangeInWords_eq⟩

/-- The last word is in the last class, where a request for just half of all words is admitted, and
the class before has a size that is too small for it. -/
theorem classes_divide_words_last :
    1 ≤ Word.limit - 1 ∧ Word.limit - 1 < Word.limit ∧ 2 ^ 63 < Word.limit ∧
      admitting? (2 ^ 63) = some 63 ∧ Word.limit - 1 ∈ SizeClass.sizes 63 ∧
      2 ^ 63 ≤ Word.limit - 1 ∧ ∃ size ∈ SizeClass.sizes 62, size < 2 ^ 63 := by
  have hOne : 1 ≤ Word.limit - 1 := by decide
  have hLast : Word.limit - 1 < Word.limit := by decide
  have hNeed : 2 ^ 63 < Word.limit := by decide
  have hAdmitting : admitting? (2 ^ 63) = some 63 := by decide +kernel
  have hClass : ofSize (Word.limit - 1) = 63 := by decide +kernel
  obtain ⟨-, hInterval, -, -, hAdmits, -⟩ := classes_divide_words hOne hLast hNeed
  obtain ⟨hFits, hBelow⟩ := hAdmits 63 hAdmitting
  exact ⟨hOne, hLast, hNeed, hAdmitting, (hInterval 63).mp hClass,
    hFits (Fin.le_of_eq hClass.symm), hBelow 62 (by decide)⟩

end RegionHeap
