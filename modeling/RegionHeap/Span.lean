import RegionHeap.Word

/-!
# Spans of addresses
-/

namespace RegionHeap

/-- The addresses from `start` up to but not including `stop`. -/
structure Span where
  start : Nat
  stop : Nat
  deriving DecidableEq, Repr

namespace Span

/-- How many addresses the span has; none if its ends are in the wrong order. -/
def length (s : Span) : Nat := s.stop - s.start

/-- The distance from the start of the span to its end, which must not lie below. -/
def size (s : Span) : Checked Nat := Word.sub s.stop s.start

end Span

end RegionHeap
