import Mathlib.Algebra.Group.Nat.Defs
import RegionHeap.Memory.Basic

/-!
# Laws of memory

Every operation of `Memory`, seen through `Memory.byte`.

Main statements:

* `byte_fill`, `byte_store`, `byte_copy`: what a write does to each byte.
* `slice_eq_map_byte`: a slice is the bytes of its addresses.
* `load_store`, `load_congr`: a word that was stored is read back, and reading
  depends on the bytes of the word only.
-/

namespace RegionHeap

-- ---------------------------------------------------------------------------
-- Trees
-- ---------------------------------------------------------------------------

namespace Bytes

theorem get_eq_get_split (t : Bytes) (size i : Nat) :
    t.get size i =
      if i < size / 2 then t.split.1.get (size / 2) i
      else t.split.2.get (size / 2) (i - size / 2) := by
  cases t <;> simp [get, split]

/-- Filling a stretch of a block sets the bytes of the stretch and no others. -/
theorem get_fill (b : UInt8) (height : Nat) :
    ∀ (size : Nat) (t : Bytes) (start stop i : Nat), size = 2 ^ height → stop ≤ size →
      i < size →
      (fill b height size t start stop).get size i =
        if start ≤ i ∧ i < stop then b else t.get size i := by
  induction height with
  | zero =>
    intro size t start stop i hSize hStop hi
    have hi0 : i = 0 := by omega
    subst hi0
    simp only [fill]
    by_cases h : start < stop
    · rw [if_pos h, if_pos (by omega)]
      rfl
    · rw [if_neg h, if_neg (by omega)]
  | succ height ih =>
    intro size t start stop i hSize hStop hi
    have hHalf : size / 2 = 2 ^ height := by
      rw [hSize, Nat.pow_succ]
      omega
    have hDouble : size = size / 2 + size / 2 := by
      rw [Nat.pow_succ] at hSize
      omega
    simp only [fill]
    by_cases hEmpty : stop ≤ start
    · rw [if_pos hEmpty, if_neg (by omega)]
    · rw [if_neg hEmpty]
      by_cases hAll : start = 0 ∧ size ≤ stop
      · rw [if_pos hAll, if_pos (by omega)]
        rfl
      · rw [if_neg hAll, get_eq_get_split t]
        simp only [get]
        by_cases hLow : i < size / 2
        · rw [if_pos hLow, if_pos hLow, ih _ _ _ _ _ hHalf (by omega) hLow]
          by_cases h : start ≤ i ∧ i < stop
          · rw [if_pos h, if_pos (by omega)]
          · rw [if_neg h, if_neg (by omega)]
        · rw [if_neg hLow, if_neg hLow, ih _ _ _ _ _ hHalf (by omega) (by omega)]
          by_cases h : start ≤ i ∧ i < stop
          · rw [if_pos h, if_pos (by omega)]
          · rw [if_neg h, if_neg (by omega)]

/-- Runs stand for the bytes they cover. -/
theorem expand_runs (t : Bytes) :
    ∀ size start count : Nat,
      Run.expand (t.runs size start count) = (List.range' start count).map (t.get size) := by
  induction t with
  | uniform b =>
    intro size start count
    simp only [runs, Run.expand, List.flatMap_cons, List.flatMap_nil, List.append_nil]
    refine (List.eq_replicate_iff.mpr ⟨by simp, ?_⟩).symm
    intro c hc
    obtain ⟨i, -, rfl⟩ := List.mem_map.mp hc
    rfl
  | halves low high ihLow ihHigh =>
    intro size start count
    simp only [runs]
    split
    · next hLow =>
      rw [ihLow]
      apply List.map_congr_left
      intro i hi
      have := List.mem_range'_1.mp hi
      simp only [get]
      rw [if_pos (by omega)]
    · split
      · next hHigh =>
        rw [ihHigh]
        apply List.ext_getElem
        · simp
        · intro i h1 h2
          simp only [List.getElem_map, List.getElem_range', get]
          rw [if_neg (by omega)]
          congr 1
          omega
      · next hNotLow hNotHigh =>
        have hCount : count = (size / 2 - start) + (start + count - size / 2) := by omega
        rw [Run.expand, List.flatMap_append, ← Run.expand, ← Run.expand, ihLow, ihHigh]
        conv => rhs; rw [hCount, ← List.range'_append_1, List.map_append]
        congr 1
        · apply List.map_congr_left
          intro i hi
          have := List.mem_range'_1.mp hi
          simp only [get]
          rw [if_pos (by omega)]
        · apply List.ext_getElem
          · simp
          · intro i h1 h2
            simp only [List.getElem_map, List.getElem_range', get]
            rw [if_neg (by omega)]
            congr 1
            omega

end Bytes

theorem Run.expand_append (xs ys : List Run) : expand (xs ++ ys) = expand xs ++ expand ys :=
  List.flatMap_append

-- ---------------------------------------------------------------------------
-- Little-endian numbers
-- ---------------------------------------------------------------------------

theorem littleEndian_lt (bs : List UInt8) : littleEndian bs < 256 ^ bs.length := by
  induction bs with
  | nil => exact Nat.one_pos
  | cons b bs ih =>
    have hb : b.toNat < 256 := b.toNat_lt
    simp only [littleEndian, List.length_cons, Nat.pow_succ]
    omega

theorem littleEndian_append (bs cs : List UInt8) :
    littleEndian (bs ++ cs) = littleEndian bs + 256 ^ bs.length * littleEndian cs := by
  induction bs with
  | nil => simp [littleEndian]
  | cons b bs ih =>
    rw [List.cons_append, littleEndian, littleEndian, ih, List.length_cons, Nat.pow_succ,
      Nat.mul_add, ← Nat.mul_assoc, Nat.mul_comm 256 (256 ^ bs.length), Nat.add_assoc]

/-- The lowest `width` bytes of a number, read back, give the number modulo the range of
that many bytes. -/
theorem littleEndian_bytes (width : Nat) :
    ∀ start value : Nat,
      littleEndian ((List.range' start width).map fun x =>
        UInt8.ofNat (value / 256 ^ (x - start))) = value % 256 ^ width := by
  induction width with
  | zero =>
    intro start value
    simp [littleEndian, Nat.mod_one]
  | succ width ih =>
    intro start value
    rw [List.range'_succ, List.map_cons, littleEndian, Nat.sub_self, Nat.pow_zero, Nat.div_one]
    have hTail : (List.range' (start + 1) width).map (fun x =>
          UInt8.ofNat (value / 256 ^ (x - start))) =
        (List.range' (start + 1) width).map (fun x =>
          UInt8.ofNat (value / 256 / 256 ^ (x - (start + 1)))) := by
      apply List.map_congr_left
      intro x hx
      have := List.mem_range'_1.mp hx
      rw [Nat.div_div_eq_div_mul, Nat.mul_comm, ← Nat.pow_succ]
      congr 3
      omega
    rw [hTail, ih, Nat.pow_succ, Nat.mul_comm (256 ^ width), Nat.mod_mul]
    simp

namespace Memory

-- ---------------------------------------------------------------------------
-- Making room
-- ---------------------------------------------------------------------------

theorem byte_of_size_le {m : Memory} {x : Nat} (h : m.size ≤ x) : m.byte x = 0 :=
  if_neg (by omega)

theorem byte_of_lt_size {m : Memory} {x : Nat} (h : x < m.size) :
    m.byte x = m.tree.get m.size x := if_pos h

theorem byte_raise (m : Memory) (x : Nat) : m.raise.byte x = m.byte x := by
  unfold byte raise
  simp only [Bytes.get]
  rw [show 2 * m.size / 2 = m.size by omega]
  by_cases h : x < m.size
  · rw [if_pos (by omega), if_pos h]
  · rw [if_neg h]
    split <;> simp

theorem byte_raiseBy (levels : Nat) : ∀ (m : Memory) (x : Nat),
    (m.raiseBy levels).byte x = m.byte x := by
  induction levels with
  | zero =>
    intro m x
    rfl
  | succ levels ih =>
    intro m x
    rw [raiseBy, ih, byte_raise]

theorem height_raiseBy (levels : Nat) : ∀ m : Memory,
    (m.raiseBy levels).height = m.height + levels := by
  induction levels with
  | zero =>
    intro m
    rfl
  | succ levels ih =>
    intro m
    rw [raiseBy, ih]
    show m.height + 1 + levels = m.height + (levels + 1)
    omega

theorem byte_cover (m : Memory) (bound x : Nat) : (m.cover bound).byte x = m.byte x := by
  unfold cover
  split
  · rfl
  · exact byte_raiseBy _ _ _

theorem size_eq_two_pow (m : Memory) : m.size = 2 ^ m.height := by
  rw [m.size_eq, Nat.one_shiftLeft]

theorem le_size_cover (m : Memory) (bound : Nat) : bound ≤ (m.cover bound).size := by
  unfold cover
  split
  · assumption
  · next h =>
    rw [size_eq_two_pow, height_raiseBy]
    have hBound : bound < 2 ^ (bound.log2 + 1) := Nat.lt_log2_self
    refine Nat.le_trans (Nat.le_of_lt hBound) (Nat.pow_le_pow_right (by omega) ?_)
    omega

-- ---------------------------------------------------------------------------
-- Writing
-- ---------------------------------------------------------------------------

/-- Filling sets the bytes of its stretch and no others. -/
theorem byte_fill (m : Memory) (address count : Nat) (value : UInt8) (x : Nat) :
    (m.fill address count value).byte x =
      if address ≤ x ∧ x < address + count then value else m.byte x := by
  have hSize := le_size_cover m (address + count)
  rw [← byte_cover m (address + count) x]
  unfold byte fill
  simp only
  by_cases hx : x < (m.cover (address + count)).size
  · rw [if_pos hx, if_pos hx, Bytes.get_fill _ _ _ _ _ _ _ (size_eq_two_pow _) hSize hx]
  · rw [if_neg hx, if_neg hx, if_neg (by omega)]

theorem byte_fill_of_outside {m : Memory} {address count x : Nat} {value : UInt8}
    (h : x < address ∨ address + count ≤ x) :
    (m.fill address count value).byte x = m.byte x := by
  rw [byte_fill, if_neg (by omega)]

/-- Storing sets the bytes of its word, lowest first, and no others. -/
theorem byte_store (width : Nat) : ∀ (m : Memory) (address value x : Nat),
    (m.store address width value).byte x =
      if address ≤ x ∧ x < address + width then UInt8.ofNat (value / 256 ^ (x - address))
      else m.byte x := by
  induction width with
  | zero =>
    intro m address value x
    rw [store, if_neg (by omega)]
  | succ width ih =>
    intro m address value x
    rw [store, ih, byte_fill]
    by_cases hx : x = address
    · subst hx
      rw [if_neg (by omega), if_pos (by omega), if_pos (by omega)]
      simp
    · by_cases h : address + 1 ≤ x ∧ x < address + 1 + width
      · rw [if_pos h, if_pos (by omega), Nat.div_div_eq_div_mul, Nat.mul_comm, ← Nat.pow_succ]
        congr 3
        omega
      · rw [if_neg h, if_neg (by omega), if_neg (by omega)]

theorem byte_store_of_outside {m : Memory} {address width value x : Nat}
    (h : x < address ∨ address + width ≤ x) :
    (m.store address width value).byte x = m.byte x := by
  rw [byte_store, if_neg (by omega)]

-- ---------------------------------------------------------------------------
-- Reading
-- ---------------------------------------------------------------------------

/-- A slice is the bytes of its addresses. -/
theorem slice_eq_map_byte (m : Memory) (address count : Nat) :
    m.slice address count = (List.range' address count).map m.byte := by
  unfold slice runs
  split
  · next h =>
    rw [Bytes.expand_runs]
    apply List.map_congr_left
    intro x hx
    have := List.mem_range'_1.mp hx
    rw [byte_of_lt_size (by omega)]
  · split
    · next h =>
      simp only [Run.expand, List.flatMap_cons, List.flatMap_nil, List.append_nil]
      refine (List.eq_replicate_iff.mpr ⟨by simp, ?_⟩).symm
      intro b hb
      obtain ⟨x, hx, rfl⟩ := List.mem_map.mp hb
      have := List.mem_range'_1.mp hx
      exact byte_of_size_le (by omega)
    · next hAbove hBelow =>
      have hCount : count = (m.size - address) + (address + count - m.size) := by omega
      rw [Run.expand_append, Bytes.expand_runs]
      conv => rhs; rw [hCount, ← List.range'_append_1, List.map_append]
      congr 1
      · apply List.map_congr_left
        intro x hx
        have := List.mem_range'_1.mp hx
        rw [byte_of_lt_size (by omega)]
      · simp only [Run.expand, List.flatMap_cons, List.flatMap_nil, List.append_nil]
        refine (List.eq_replicate_iff.mpr ⟨by simp, ?_⟩).symm
        intro b hb
        obtain ⟨x, hx, rfl⟩ := List.mem_map.mp hb
        have := List.mem_range'_1.mp hx
        exact byte_of_size_le (by omega)

theorem length_slice (m : Memory) (address count : Nat) :
    (m.slice address count).length = count := by
  rw [slice_eq_map_byte, List.length_map, List.length_range']

theorem load_lt (m : Memory) (address width : Nat) : m.load address width < 256 ^ width := by
  have h := littleEndian_lt (m.slice address width)
  rwa [length_slice] at h

/-- Reading a word depends on its bytes only. -/
theorem load_congr {m m' : Memory} {address width : Nat}
    (h : ∀ x, address ≤ x → x < address + width → m.byte x = m'.byte x) :
    m.load address width = m'.load address width := by
  rw [load, load, slice_eq_map_byte, slice_eq_map_byte]
  congr 1
  apply List.map_congr_left
  intro x hx
  have := List.mem_range'_1.mp hx
  exact h x (by omega) (by omega)

/-- The lowest bytes of a word are the word modulo their range. -/
theorem load_low (m : Memory) {address low width : Nat} (h : low ≤ width) :
    m.load address low = m.load address width % 256 ^ low := by
  have hLength := m.length_slice address low
  have hSplit : m.slice address width =
      m.slice address low ++ m.slice (address + low) (width - low) := by
    rw [slice_eq_map_byte, slice_eq_map_byte, slice_eq_map_byte, ← List.map_append,
      List.range'_append_1, Nat.add_sub_cancel' h]
  have hLow := littleEndian_lt (m.slice address low)
  rw [hLength] at hLow
  rw [load, load, hSplit, littleEndian_append, hLength, Nat.add_mul_mod_self_left,
    Nat.mod_eq_of_lt hLow]

/-- A word that was stored is read back, cut to its width. -/
theorem load_store (m : Memory) (address width value : Nat) :
    (m.store address width value).load address width = value % 256 ^ width := by
  rw [load, slice_eq_map_byte, ← littleEndian_bytes width address value]
  congr 1
  apply List.map_congr_left
  intro x hx
  have := List.mem_range'_1.mp hx
  rw [byte_store, if_pos (by omega)]

/-- Storing one word leaves every word apart from it as it was. -/
theorem load_store_of_apart {m : Memory} {address width value address' width' : Nat}
    (h : address' + width' ≤ address ∨ address + width ≤ address') :
    (m.store address width value).load address' width' = m.load address' width' := by
  apply load_congr
  intro x hx hx'
  exact byte_store_of_outside (by omega)

-- ---------------------------------------------------------------------------
-- Copying
-- ---------------------------------------------------------------------------

/-- Pouring runs sets the bytes they stand for, one after the other, and no others. -/
theorem byte_pour (rs : List Run) : ∀ (m : Memory) (address x : Nat),
    (m.pour address rs).byte x =
      if address ≤ x then ((Run.expand rs)[x - address]?).getD (m.byte x) else m.byte x := by
  induction rs with
  | nil =>
    intro m address x
    simp [pour, Run.expand]
  | cons run rs ih =>
    intro m address x
    have hExpand : Run.expand (run :: rs) =
        List.replicate run.count run.byte ++ Run.expand rs := rfl
    rw [pour, ih, byte_fill, hExpand, List.getElem?_append, List.length_replicate]
    by_cases hAddress : address ≤ x
    · rw [if_pos hAddress]
      by_cases hRun : x < address + run.count
      · rw [if_neg (by omega), if_pos (by omega), if_pos (by omega), List.getElem?_replicate,
          if_pos (by omega)]
        rfl
      · rw [if_pos (by omega), if_neg (by omega), if_neg (by omega)]
        congr 2
        omega
    · rw [if_neg hAddress, if_neg (by omega), if_neg (by omega)]

/-- Copying sets the bytes of the target to those of the source, and no others. -/
theorem byte_copy (m : Memory) (source target count x : Nat) :
    (m.copy source target count).byte x =
      if target ≤ x ∧ x < target + count then m.byte (source + (x - target)) else m.byte x := by
  rw [copy, byte_pour, ← slice, slice_eq_map_byte]
  by_cases hTarget : target ≤ x
  · rw [if_pos hTarget]
    by_cases hCount : x < target + count
    · rw [if_pos (by omega), List.getElem?_map, List.getElem?_range' (by omega)]
      simp
    · rw [if_neg (by omega), List.getElem?_eq_none (by simp; omega)]
      rfl
  · rw [if_neg hTarget, if_neg (by omega)]

end Memory

end RegionHeap
