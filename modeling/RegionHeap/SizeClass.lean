import RegionHeap.Word

/-!
# Size classes

Free chunks are grouped by the power of two at or below their size: class `k`
holds the sizes from `2 ^ k` to `2 ^ (k + 1) - 1`. A request is admitted at the
first class all of whose sizes cover it, so that any chunk found there or above
fits without a look at its exact size.

Main definitions: `SizeClass.ofSize`, `SizeClass.admitting?`, `SizeClass.range`.
-/

namespace RegionHeap

/-- One class for each bit of a word. -/
abbrev SizeClass := Fin 64

namespace SizeClass

/-- How many classes there are. -/
def count : Nat := 64

/-- The class that holds chunks of `size` bytes: the position of the highest set
bit. Size zero, which no chunk has, counts with class zero. -/
def ofSize (size : Nat) : SizeClass :=
  ⟨min size.log2 63, by omega⟩

/-- The first class whose every chunk holds at least `need` bytes, if there is
one. -/
def admitting? (need : Nat) : Option SizeClass :=
  if need ≤ 1 then some 0
  else if h : (need - 1).log2 + 1 < 64 then some ⟨(need - 1).log2 + 1, h⟩
  else none

/-- The smallest and the largest size of a class. -/
def range (k : SizeClass) : Nat × Nat := (1 <<< k.val, 1 <<< (k.val + 1) - 1)

/-- The class with a given number; there is none from `count` on, where a shift by
that number would pass the width of a word. -/
def ofIndex (k : Nat) : Checked SizeClass :=
  if h : k < 64 then .ok ⟨k, h⟩ else .error .overflow

/-- Every class, in ascending order. -/
def all : List SizeClass := List.finRange 64

end SizeClass

end RegionHeap
