import RegionHeap.Proofs.Validation

/-!
# What freeing looks at

Freeing a chunk reads a handful of fields and decides by them what it writes. In two memories that
hold the same in these fields it does the same, whatever else they hold: every step that completes
in one completes in the other, and leaves the fields as equal as they were.

* `Checked.Follows`: a computation completes with a related result wherever another completes.
* `Region.SameOn K`: two memories hold the same bytes in the fields `K`.
* `Store.Twin`: so do the memories of two stores with one heap.
* `SameOn.detach`, `SameOn.push`, `SameOn.unlink`: which fields a change of a ring or of the chain
  reads.
* `Twin.absorbNext`, `Twin.settle`: which fields the two merges read.
-/

namespace RegionHeap

variable {α β γ δ : Type} {r : Region} {K : Nat → Field → Prop} {m m' : Memory} {o v : Nat}
variable {f : Field} {bins : Bins} {k : SizeClass} {s s' : Store}

-- ---------------------------------------------------------------------------
-- One computation after the other
-- ---------------------------------------------------------------------------

/-- Wherever `x` has a result, `x'` has one too, and the two are related. -/
def Checked.Follows (R : α → β → Prop) (x : Checked α) (x' : Checked β) : Prop :=
  ∀ a, x = .ok a → ∃ a', x' = .ok a' ∧ R a a'

namespace Checked.Follows

variable {R : α → β → Prop} {S : γ → δ → Prop} {x : Checked α} {x' : Checked β}

theorem pure {a : α} {a' : β} (h : R a a') :
    Follows R (Pure.pure a : Checked α) (Pure.pure a' : Checked β) := by
  rintro _ ⟨⟩
  exact ⟨a', rfl, h⟩

theorem bind {g : α → Checked γ} {g' : β → Checked δ} (h : Follows R x x')
    (hThen : ∀ a a', x = .ok a → R a a' → Follows S (g a) (g' a')) :
    Follows S (x >>= g) (x' >>= g') := by
  intro c hRun
  obtain ⟨a, hx, hg⟩ := bind_eq_ok_iff.mp hRun
  obtain ⟨a', hx', hRelated⟩ := h a hx
  obtain ⟨c', hg', hRelated'⟩ := hThen a a' hx hRelated c hg
  exact ⟨c', by rw [hx', ok_bind, hg'], hRelated'⟩

/-- A first step that is the same in both. -/
theorem same {y y' : Checked α} {g : α → Checked γ} {g' : α → Checked δ} (h : y' = y)
    (hThen : ∀ a, y = .ok a → Follows S (g a) (g' a)) : Follows S (y >>= g) (y' >>= g') := by
  rw [h]
  refine bind (R := Eq) (fun a ha => ⟨a, ha, rfl⟩) ?_
  rintro a _ ha rfl
  exact hThen a ha

end Checked.Follows

open Checked (Follows)

-- ---------------------------------------------------------------------------
-- Memories that are the same in some fields
-- ---------------------------------------------------------------------------

/-- The fields that lead from the first members of rings to the last are among `K`. -/
def Bins.HeadsKnown (bins : Bins) (K : Nat → Field → Prop) : Prop :=
  ∀ k head, bins.head k = some head → K head .ringPrevious

namespace Region

/-- Two memories hold the same bytes in the fields `K`. -/
def SameOn (r : Region) (K : Nat → Field → Prop) (m m' : Memory) : Prop :=
  ∀ o f, K o f → ∀ x, r.base + o + f.position ≤ x → x < r.base + o + f.position + f.width →
    m'.byte x = m.byte x

/-- The same value comes with memories that are the same in the fields `K`. -/
def SameWith (r : Region) (K : Nat → Field → Prop) (x x' : α × Memory) : Prop :=
  x'.1 = x.1 ∧ r.SameOn K x.2 x'.2

namespace SameOn

theorem content (h : r.SameOn K m m') (hK : K o f) : r.content m' f o = r.content m f o :=
  Memory.load_congr (h o f hK)

theorem read (h : r.SameOn K m m') (hK : K o f) : r.read m' o f = r.read m o f :=
  read_congr fun _ => h o f hK

/-- Writing the same value to both memories does not tell them apart. -/
theorem write (h : r.SameOn K m m') :
    Follows (r.SameOn K) (r.write m o f v) (r.write m' o f v) := by
  intro m₁ hWrite
  obtain ⟨hAccess, rfl⟩ := write_eq_ok_iff.mp hWrite
  refine ⟨_, write_eq_put hAccess, fun y g hK x hLow hHigh => ?_⟩
  unfold put
  rw [Memory.byte_store, Memory.byte_store, h y g hK x hLow hHigh]

theorem chunkSize (h : r.SameOn K m m') (hNext : K o .next) :
    r.chunkSize m' o = r.chunkSize m o := by
  unfold Region.chunkSize
  rw [h.read hNext]

theorem isFree (h : r.SameOn K m m') (hTag : K o .tag) : r.isFree m' o = r.isFree m o := by
  unfold Region.isFree Region.mark?
  rw [h.read hTag]

/-- Leaving the chain depends on the chunk's two links. -/
theorem unlink (h : r.SameOn K m m') (hPrevious : K o .previous) (hNext : K o .next) :
    Follows (r.SameOn K) (r.unlink m o) (r.unlink m' o) := by
  unfold Region.unlink
  refine .same (h.read hPrevious) fun previous _ => .same (h.read hNext) fun next _ => ?_
  exact h.write.bind fun _ _ _ h₁ => h₁.write

/-- Leaving a ring depends on the chunk's two ring links. -/
theorem detach (h : r.SameOn K m m') (hNext : K o .ringNext) (hPrevious : K o .ringPrevious) :
    Follows (r.SameWith K) (bins.detach r m o k) (bins.detach r m' o k) := by
  unfold Bins.detach
  refine .same rfl fun count _ => .same (h.read hNext) fun next _ => ?_
  split
  · exact .pure ⟨rfl, h⟩
  · refine .same (h.read hPrevious) fun previous _ => ?_
    exact h.write.bind fun _ _ _ h₁ => h₁.write.bind fun _ _ _ h₂ => .pure ⟨rfl, h₂⟩

theorem remove (h : r.SameOn K m m') (hSize : K o .next) (hNext : K o .ringNext)
    (hPrevious : K o .ringPrevious) :
    Follows (r.SameWith K) (bins.remove r m o) (bins.remove r m' o) := by
  unfold Bins.remove
  exact .same (h.chunkSize hSize) fun _ _ => h.detach hNext hPrevious

/-- Joining a ring depends on the chunk's size and on the last member of the ring, to which the
first points back. -/
theorem push (h : r.SameOn K m m') (hSize : K o .next) (hHeads : bins.HeadsKnown K) :
    Follows (r.SameWith K) (bins.push r m o) (bins.push r m' o) := by
  unfold Bins.push
  refine .same (h.chunkSize hSize) fun size _ => ?_
  have hCount : ∀ {m₁ m₁' occupied}, r.SameOn K m₁ m₁' → Follows (r.SameWith K)
      (do let count ← Word.add bins.count 1
          return ({ bins.setHead (SizeClass.ofSize size) (some o) with
            occupied := occupied, count := count }, m₁))
      (do let count ← Word.add bins.count 1
          return ({ bins.setHead (SizeClass.ofSize size) (some o) with
            occupied := occupied, count := count }, m₁')) :=
    fun h₁ => .same rfl fun _ _ => .pure ⟨rfl, h₁⟩
  cases hHead : bins.head (SizeClass.ofSize size) with
  | none =>
    simp only [hHead]
    exact h.write.bind fun _ _ _ h₁ => h₁.write.bind fun _ _ _ h₂ => hCount h₂
  | some head =>
    simp only [hHead]
    refine .same (h.read (hHeads _ _ hHead)) fun last _ => ?_
    exact h.write.bind fun _ _ _ h₁ => h₁.write.bind fun _ _ _ h₂ =>
      h₂.write.bind fun _ _ _ h₃ => h₃.write.bind fun _ _ _ h₄ => hCount h₄

/-- A header passes by its fields and by what its neighbours hold of it. -/
theorem passes (h : r.SameOn K m m') (hOwn : ∀ f : Field, f.reach = headerSize → K o f)
    (hBefore : K (r.content m .previous o) .next) (hAfter : K (r.content m .next o) .previous)
    (hPasses : r.PassesAsUsed m o) : r.PassesAsUsed m' o := by
  have hPrevious := h.content (hOwn .previous rfl)
  have hNext := h.content (hOwn .next rfl)
  exact {
    aligned := hPasses.aligned
    inside := hPasses.inside
    canary := (h.content (hOwn .canary rfl)).trans hPasses.canary
    tag := (h.content (hOwn .tag rfl)).trans hPasses.tag
    previous_aligned := hPrevious ▸ hPasses.previous_aligned
    next_aligned := hNext ▸ hPasses.next_aligned
    previous_lt := hPrevious ▸ hPasses.previous_lt
    lt_next := hNext ▸ hPasses.lt_next
    next_le := hNext ▸ hPasses.next_le
    next_previous := by rw [hPrevious, h.content hBefore, hPasses.next_previous]
    previous_next := by rw [hNext, h.content hAfter, hPasses.previous_next] }

end SameOn

end Region

-- ---------------------------------------------------------------------------
-- Stores with the same heap
-- ---------------------------------------------------------------------------

namespace Store

/-- Two stores have the same heap, and memories that are the same in the fields `K`. -/
structure Twin (r : Region) (K : Nat → Field → Prop) (s s' : Store) : Prop where
  heap : s'.heap = s.heap
  same : r.SameOn K s.memory s'.memory

/-- The fields of a free chunk that leaving its ring depends on. -/
structure RingKnown (K : Nat → Field → Prop) (o : Nat) : Prop where
  next : K o .next
  ringNext : K o .ringNext
  ringPrevious : K o .ringPrevious

/-- What absorbing the chunk at `o` into the one before it depends on: its state and, if it is
free, its links. -/
structure AbsorbKnown (s : Store) (r : Region) (K : Nat → Field → Prop) (o : Nat) : Prop where
  tag : K o .tag
  free : r.isFree s.memory o = .ok true → K o .previous ∧ RingKnown K o

/-- What settling a chunk behind the one at `o` depends on: its state, its links if it is free,
and what is then on top of the rings. -/
structure SettleKnown (s : Store) (r : Region) (K : Nat → Field → Prop) (o : Nat) : Prop where
  tag : K o .tag
  merged : r.isFree s.memory o = .ok true →
    RingKnown K o ∧ ∀ s', s.unfile r o = .ok s' → s'.heap.bins.HeadsKnown K
  alone : r.isFree s.memory o = .ok false → s.heap.bins.HeadsKnown K

namespace Twin

theorem unfile (h : s.Twin r K s') (hKnown : RingKnown K o) :
    Follows (Twin r K) (s.unfile r o) (s'.unfile r o) := by
  obtain ⟨heap, m'⟩ := s'
  obtain ⟨rfl, hSame⟩ := h
  unfold Store.unfile
  refine (hSame.remove hKnown.next hKnown.ringNext hKnown.ringPrevious).bind ?_
  rintro ⟨bins, m₁⟩ ⟨_, m₁'⟩ - ⟨rfl, h₁⟩
  exact .same (h₁.chunkSize hKnown.next) fun size _ => .same rfl fun _ _ => .pure ⟨rfl, h₁⟩

theorem file (h : s.Twin r K s') (hSize : K o .next) (hHeads : s.heap.bins.HeadsKnown K) :
    Follows (Twin r K) (s.file r o) (s'.file r o) := by
  obtain ⟨heap, m'⟩ := s'
  obtain ⟨rfl, hSame⟩ := h
  unfold Store.file
  refine (hSame.push hSize hHeads).bind ?_
  rintro ⟨bins, m₁⟩ ⟨_, m₁'⟩ - ⟨rfl, h₁⟩
  exact .same (h₁.chunkSize hSize) fun size _ => .same rfl fun _ _ => .pure ⟨rfl, h₁⟩

theorem dropHeader (h : s.Twin r K s') (hPrevious : K o .previous) (hNext : K o .next) :
    Follows (Twin r K) (s.dropHeader r o) (s'.dropHeader r o) := by
  obtain ⟨heap, m'⟩ := s'
  obtain ⟨rfl, hSame⟩ := h
  unfold Store.dropHeader
  exact (hSame.unlink hPrevious hNext).bind fun _ _ _ h₁ => .same rfl fun _ _ => .pure ⟨rfl, h₁⟩

theorem absorbNext (h : s.Twin r K s') (hNext : K o .next)
    (hSuccessor : ∀ next, r.read s.memory o .next = .ok next → s.AbsorbKnown r K next) :
    Follows (Twin r K) (s.absorbNext r o) (s'.absorbNext r o) := by
  unfold Store.absorbNext
  refine .same (h.same.read hNext) fun next hRead => ?_
  have hAbsorb := hSuccessor next hRead
  refine .same (h.same.isFree hAbsorb.tag) fun isFree hFree => ?_
  cases isFree with
  | false => exact .pure h
  | true =>
    obtain ⟨hPrevious, hKnown⟩ := hAbsorb.free hFree
    exact (h.unfile hKnown).bind fun _ _ _ h₁ => h₁.dropHeader hPrevious hKnown.next

theorem settle (h : s.Twin r K s') (hPrevious : K o .previous) (hNext : K o .next)
    (hPredecessor : ∀ previous, r.read s.memory o .previous = .ok previous →
      s.SettleKnown r K previous) :
    Follows (Twin r K) (s.settle r o) (s'.settle r o) := by
  unfold Store.settle
  refine .same (h.same.read hPrevious) fun previous hRead => ?_
  have hSettle := hPredecessor previous hRead
  refine .same (h.same.isFree hSettle.tag) fun isFree hFree => ?_
  cases isFree with
  | false => exact h.same.write.bind fun _ _ _ h₁ => file ⟨h.heap, h₁⟩ hNext (hSettle.alone hFree)
  | true =>
    obtain ⟨hKnown, hHeads⟩ := hSettle.merged hFree
    refine (h.unfile hKnown).bind fun s₂ s₂' hUnfile h₂ => ?_
    refine h₂.same.write.bind fun m₃ m₃' _ h₃ => ?_
    have hTwin₃ : Twin r K { s₂ with memory := m₃ } { s₂' with memory := m₃' } := ⟨h₂.heap, h₃⟩
    refine (hTwin₃.dropHeader hPrevious hNext).bind fun s₄ s₄' hDrop h₄ => ?_
    -- neither the tag nor the chain tells what is on top of the rings
    have hBins : s₄.heap.bins = s₂.heap.bins := by
      unfold Store.dropHeader at hDrop
      obtain ⟨m, -, hDrop⟩ := bind_eq_ok_iff.mp hDrop
      obtain ⟨metaBytes, -, hDrop⟩ := bind_eq_ok_iff.mp hDrop
      obtain rfl := Except.ok.inj hDrop
      rfl
    exact h₄.file hKnown.next (hBins ▸ hHeads s₂ hUnfile)

end Twin

end Store

end RegionHeap
