import RegionHeap.Proofs.Allocation
import RegionHeap.Proofs.Release

/-!
# Stores and tilings

`Store.Represents` is the invariant between two calls: memory, bins and counters hold the
blocks and stacks of a tiling, all of them settled, and no two free blocks are neighbours.

* `Holds.of_contents`: what a store holds is read off headers and ring links.
* `Represents.of_payloads`: what callers write into their payloads does not matter.
* `Holds.of_counters`: nor do the numbers of calls.
-/

namespace RegionHeap

variable {r : Region} {m : Memory} {blocks settled : List Block} {stack : SizeClass → List Nat}
variable {s : Store} {t : Tiling}

-- ---------------------------------------------------------------------------
-- The invariant
-- ---------------------------------------------------------------------------

namespace Store

/-- Between two calls, the store holds the blocks and stacks of a tiling. -/
structure Represents (s : Store) (r : Region) (t : Tiling) : Prop where
  holds : s.Holds r t.blocks t.blocks t.stack
  coalesced : Coalesced t.blocks

/-- What a store holds is in its headers and in the ring links of its free blocks. -/
theorem Holds.of_contents (h : s.Holds r blocks settled stack)
    (hHeader : ∀ g y, y ∈ r.headers blocks → g.reach = headerSize →
      r.content m g y = r.content s.memory g y)
    (hLink : ∀ g k y, y ∈ stack k → g.reach = headerSize + minPayload →
      r.content m g y = r.content s.memory g y) :
    Store.Holds { s with memory := m } r blocks settled stack where
  region := h.region
  chained := h.chained.congr fun f o ho hf => hHeader f o ho hf
  sub := h.sub
  filed :=
    { head := h.filed.head
      circle := fun k => (h.filed.circle k).congr (fun o ho => hLink .ringNext k o ho rfl)
        fun o ho => hLink .ringPrevious k o ho rfl
      occupied := h.filed.occupied
      count := h.filed.count }
  binned := h.binned
  freeBytes := h.freeBytes
  usedBytes := h.usedBytes
  metaBytes := h.metaBytes

/-- A store holds what it holds whatever the payloads of used blocks hold. -/
theorem Holds.of_payloads (h : s.Holds r blocks blocks stack)
    (hSame : ∀ x, (∀ b ∈ blocks, b.isFree = false →
      x < r.payload b.offset ∨ r.payload b.offset + b.size ≤ x) → m.byte x = s.memory.byte x) :
    Store.Holds { s with memory := m } r blocks blocks stack := by
  refine h.of_contents (fun g y hy hg => ?_) fun g k y hy hg => ?_
  · refine Region.content_congr fun x hLow hHigh => hSame x fun b hb _ => ?_
    have := g.position_add_width_le_reach
    unfold Region.payload
    rcases Region.header_apart_payload h.tiled hy hb with hBelow | hAbove
    · omega
    · unfold Block.stop at hAbove
      omega
  · obtain ⟨c, hc, hFree, rfl, -⟩ := h.exists_free hy
    refine Region.content_congr fun x hLow hHigh => hSame x fun b hb hUsed => ?_
    have := g.position_add_width_le_reach
    have := (h.tiled.payload hc).1
    unfold Region.payload
    rcases h.tiled.apart hc hb with rfl | hBelow | hAbove
    · rw [hFree] at hUsed
      exact absurd hUsed (by decide)
    · unfold Block.stop at hBelow
      omega
    · unfold Block.stop at hAbove
      omega

/-- The call counters can change. -/
theorem Holds.of_counters (h : s.Holds r blocks blocks stack) (allocations frees failed : Nat) :
    Store.Holds { s with heap := { s.heap with counters :=
      { s.heap.counters with
        allocations := allocations
        frees := frees
        failedAllocations := failed } } } r blocks blocks stack :=
  ⟨h.region, h.chained, h.sub, h.filed, h.binned, h.freeBytes, h.usedBytes, h.metaBytes⟩

theorem Represents.of_payloads (h : s.Represents r t)
    (hSame : ∀ x, (∀ b ∈ t.used, x < r.payload b.offset ∨ r.payload b.offset + b.size ≤ x) →
      m.byte x = s.memory.byte x) : Store.Represents { s with memory := m } r t where
  holds := h.holds.of_payloads fun x hx =>
    hSame x fun b hb => hx b (Tiling.mem_used.mp hb).1 (Tiling.mem_used.mp hb).2
  coalesced := h.coalesced

end Store

end RegionHeap
