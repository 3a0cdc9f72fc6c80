import RegionHeap.Word

/-!
# Layouts

The size and the alignment of a block that a program asks for.
-/

namespace RegionHeap

/-- The size and the alignment of a block. -/
structure Layout where
  size : Nat
  align : Nat
  deriving DecidableEq, Repr

namespace Layout

/-- The alignment is a power of two, and the size rounded up to it is less than half
the address space. -/
def Valid (layout : Layout) : Prop :=
  layout.align = 1 <<< layout.align.log2 ∧ layout.size + layout.align ≤ 1 <<< 63

instance (layout : Layout) : Decidable layout.Valid :=
  inferInstanceAs (Decidable (_ ∧ _))

/-- Whether every payload is aligned enough for the layout. -/
def fitsPayload (layout : Layout) : Bool := layout.align ≤ Word.alignment

end Layout

end RegionHeap
