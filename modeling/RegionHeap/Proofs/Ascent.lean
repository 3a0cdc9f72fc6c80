import RegionHeap.Proofs.Walk

/-!
# What a walk returns

Whatever memory holds, a walk along `next` ends, and the chunks that it returns ascend in
aligned steps up to the tail. It fails to return only over a header whose successor lies inside
it.

* `Region.Ascends`: the walk goes on from one chunk to another.
* `Region.chunksFrom_spec`: what is known of a list that a walk returns.
* `Region.chunksFrom_returns_iff`: when it returns one.
* `Store.chunks_spec`: what this means for a heap.
-/

namespace RegionHeap

namespace Region

variable {r : Region} {m : Memory} {o x : Nat} {a b : ChunkInfo} {chain : List ChunkInfo}

/-- The walk goes on from `a` to `b`. -/
structure Ascends (r : Region) (m : Memory) (a b : ChunkInfo) : Prop where
  next : r.read m a.offset .next = .ok b.offset
  lt : a.offset < b.offset
  le : b.offset ≤ r.tail
  aligned : b.offset % Word.alignment = 0

theorem successor?_some {next : Nat} {hNext : o < next ∧ next ≤ r.tail}
    (h : r.successor? m o = .ok (some ⟨next, hNext⟩)) :
    r.read m o .next = .ok next ∧ next % Word.alignment = 0 := by
  unfold successor? at h
  obtain ⟨v, hRead, h⟩ := bind_eq_ok_iff.mp h
  split at h
  · split at h
    · obtain rfl := Subtype.mk.inj (Option.some.inj (Except.ok.inj h))
      exact ⟨hRead, ‹_›⟩
    · exact absurd (Except.ok.inj h) (by simp)
  · exact absurd (Except.ok.inj h) (by simp)

theorem chunkAt_offset (h : r.chunkAt m o = .ok a) : a.offset = o := by
  unfold chunkAt at h
  obtain ⟨size, -, h⟩ := bind_eq_ok_iff.mp h
  obtain ⟨mark, -, h⟩ := bind_eq_ok_iff.mp h
  rw [← Except.ok.inj h]

/-- What the walk sees of a chunk is what is in memory. -/
theorem chunkAt_inv (h : r.chunkAt m o = .ok a) :
    r.chunkSize m o = .ok a.size ∧ r.isFree m o = .ok a.isFree := by
  unfold chunkAt at h
  obtain ⟨size, hSize, h⟩ := bind_eq_ok_iff.mp h
  obtain ⟨mark, hMark, h⟩ := bind_eq_ok_iff.mp h
  obtain rfl := Except.ok.inj h
  refine ⟨hSize, ?_⟩
  unfold isFree
  rw [hMark]
  rfl

/-- **The chunks that a walk returns** begin where it begins, are those in memory, and ascend. -/
theorem chunksFrom_spec : ∀ (o : Nat) {chain : List ChunkInfo}, r.chunksFrom m o = .ok chain →
    (∃ a rest, chain = a :: rest ∧ a.offset = o) ∧ (∀ a ∈ chain, r.chunkAt m a.offset = .ok a) ∧
      chain.IsChain (r.Ascends m) := by
  intro o
  induction o using chunksFrom.induct (r := r) with
  | case1 o ih =>
    intro chain h
    unfold chunksFrom at h
    obtain ⟨a, hChunk, h⟩ := bind_eq_ok_iff.mp h
    obtain ⟨successor, hSuccessor, h⟩ := bind_eq_ok_iff.mp h
    obtain rfl := chunkAt_offset hChunk
    match successor with
    | none =>
      obtain rfl := Except.ok.inj h
      refine ⟨⟨a, [], rfl, rfl⟩, fun b hb => ?_, List.isChain_singleton a⟩
      obtain rfl := List.mem_singleton.mp hb
      exact hChunk
    | some ⟨next, hNext⟩ =>
      obtain ⟨rest, hRest, h⟩ := bind_eq_ok_iff.mp h
      obtain rfl := Except.ok.inj h
      obtain ⟨⟨b, tail, rfl, rfl⟩, hChunks, hChain⟩ := ih next hNext hRest
      obtain ⟨hRead, hAligned⟩ := successor?_some hSuccessor
      refine ⟨⟨a, _, rfl, rfl⟩, fun d hd => ?_, ?_⟩
      · rcases List.mem_cons.mp hd with rfl | hd
        · exact hChunk
        · exact hChunks d hd
      · exact List.isChain_cons_cons.mpr ⟨⟨hRead, hNext.1, hNext.2, hAligned⟩, hChain⟩

/-- A returned list ascends as a whole. -/
theorem ascending_of_isChain (h : chain.IsChain (r.Ascends m)) :
    chain.Pairwise fun a b => a.offset < b.offset :=
  List.isChain_iff_pairwise.mp (h.imp fun _ _ hab => hab.lt)

/-- Beyond the first chunk a walk stays at aligned offsets up to the tail. -/
theorem bounds_of_isChain {rest : List ChunkInfo} (h : (a :: rest).IsChain (r.Ascends m)) :
    ∀ b ∈ rest, b.offset ≤ r.tail ∧ b.offset % Word.alignment = 0 := by
  induction rest generalizing a with
  | nil => simp
  | cons d rest ih =>
    obtain ⟨hAscends, hRest⟩ := List.isChain_cons_cons.mp h
    intro b hb
    rcases List.mem_cons.mp hb with rfl | hb
    · exact ⟨hAscends.le, hAscends.aligned⟩
    · exact ih hRest b hb

-- ---------------------------------------------------------------------------
-- Walks that return
-- ---------------------------------------------------------------------------

/-- The walk from one offset comes to another. -/
inductive Walked (r : Region) (m : Memory) : Nat → Nat → Prop
  | here (o : Nat) : Walked r m o o
  | on {o x next : Nat} {hNext : o < next ∧ next ≤ r.tail} :
      r.successor? m o = .ok (some ⟨next, hNext⟩) → Walked r m next x → Walked r m o x

/-- The successor of the header at `o` lies inside that header. -/
def Overlapped (r : Region) (m : Memory) (o : Nat) : Prop :=
  ∃ next, r.read m o .next = .ok next ∧ o < next ∧ next < o + headerSize

theorem read_header_returns {f : Field} (ho : o ≤ r.tail) (hAligned : o % Word.alignment = 0)
    (hf : f.reach = headerSize) : ∃ v, r.read m o f = .ok v :=
  ⟨_, read_of_le_tail ho hAligned hf⟩

/-- The size of a chunk is a difference that runs over when the successor is inside the
header. -/
theorem chunkSize_returns_iff (ho : o ≤ r.tail) (hAligned : o % Word.alignment = 0) :
    (∃ size, r.chunkSize m o = .ok size) ↔ ¬r.Overlapped m o := by
  obtain ⟨next, hRead⟩ := read_header_returns (m := m) ho hAligned (f := .next) rfl
  unfold chunkSize Overlapped
  rw [hRead, ok_bind]
  constructor
  · rintro ⟨size, hSize⟩ ⟨next', hRead', hLow, hHigh⟩
    obtain rfl := Except.ok.inj hRead'
    rw [if_neg (by omega)] at hSize
    have := Word.sub_eq_ok_iff.mp hSize
    omega
  · intro hApart
    split
    · exact ⟨0, rfl⟩
    · refine ⟨_, Word.sub_eq_ok_iff.mpr ⟨?_, rfl⟩⟩
      by_contra hLow
      exact hApart ⟨next, rfl, by omega, by omega⟩

theorem mark?_returns (ho : o ≤ r.tail) (hAligned : o % Word.alignment = 0) :
    ∃ mark, r.mark? m o = .ok mark := by
  obtain ⟨tag, hRead⟩ := read_header_returns (m := m) ho hAligned (f := .tag) rfl
  unfold mark?
  rw [hRead]
  exact ⟨_, rfl⟩

theorem isFree_returns (ho : o ≤ r.tail) (hAligned : o % Word.alignment = 0) :
    ∃ free, r.isFree m o = .ok free := by
  obtain ⟨mark, hMark⟩ := mark?_returns (m := m) ho hAligned
  unfold isFree
  rw [hMark]
  exact ⟨_, rfl⟩

theorem chunkAt_returns_iff (ho : o ≤ r.tail) (hAligned : o % Word.alignment = 0) :
    (∃ a, r.chunkAt m o = .ok a) ↔ ¬r.Overlapped m o := by
  obtain ⟨mark, hMark⟩ := mark?_returns (m := m) ho hAligned
  rw [← chunkSize_returns_iff ho hAligned]
  unfold chunkAt
  constructor
  · rintro ⟨a, hChunk⟩
    obtain ⟨size, hSize, -⟩ := bind_eq_ok_iff.mp hChunk
    exact ⟨size, hSize⟩
  · rintro ⟨size, hSize⟩
    rw [hSize, ok_bind, hMark]
    exact ⟨_, rfl⟩

theorem successor?_returns (ho : o ≤ r.tail) (hAligned : o % Word.alignment = 0) :
    ∃ successor, r.successor? m o = .ok successor := by
  obtain ⟨next, hRead⟩ := read_header_returns (m := m) ho hAligned (f := .next) rfl
  unfold successor?
  rw [hRead, ok_bind]
  split
  · split
    · exact ⟨_, rfl⟩
    · exact ⟨_, rfl⟩
  · exact ⟨_, rfl⟩

/-- **A walk returns** unless it comes to a header whose successor lies inside it. -/
theorem chunksFrom_returns_iff : ∀ o ≤ r.tail, o % Word.alignment = 0 →
    ((∃ chain, r.chunksFrom m o = .ok chain) ↔ ∀ x, r.Walked m o x → ¬r.Overlapped m x) := by
  intro o
  induction o using chunksFrom.induct (r := r) with
  | case1 o ih =>
    intro ho hAligned
    obtain ⟨successor, hSuccessor⟩ := successor?_returns (m := m) ho hAligned
    unfold chunksFrom
    constructor
    · rintro ⟨chain, h⟩ x hWalked
      obtain ⟨a, hChunk, h⟩ := bind_eq_ok_iff.mp h
      rw [hSuccessor, ok_bind] at h
      cases hWalked with
      | here o => exact (chunkAt_returns_iff ho hAligned).mp ⟨a, hChunk⟩
      | @on _ _ next hNext hOn hRest =>
        obtain rfl := Except.ok.inj (hSuccessor.symm.trans hOn)
        obtain ⟨rest, hReturned, -⟩ := bind_eq_ok_iff.mp h
        exact (ih next hNext hNext.2 (successor?_some hSuccessor).2).mp ⟨rest, hReturned⟩ x hRest
    · intro hApart
      obtain ⟨a, hChunk⟩ := (chunkAt_returns_iff ho hAligned).mpr (hApart o (.here o))
      rw [hChunk, ok_bind, hSuccessor, ok_bind]
      match successor with
      | none => exact ⟨_, rfl⟩
      | some ⟨next, hNext⟩ =>
        obtain ⟨rest, hReturned⟩ := (ih next hNext hNext.2 (successor?_some hSuccessor).2).mpr
          fun x hWalked => hApart x (.on hSuccessor hWalked)
        simp only
        rw [hReturned]
        exact ⟨_, rfl⟩

end Region

-- ---------------------------------------------------------------------------
-- The chunks of a heap
-- ---------------------------------------------------------------------------

/-- **The chunks of a heap**, if the walk returns them, ascend from the head in aligned steps, up
to the tail at most. -/
theorem Store.chunks_spec {s : Store} {r : Region} {chain : List ChunkInfo}
    (hRegion : s.heap.region = some r) (h : s.chunks = .ok chain) :
    chain.head?.map (·.offset) = some 0 ∧ chain.IsChain (r.Ascends s.memory) ∧
      ∀ a ∈ chain, a.offset ≤ r.tail ∧ a.offset % Word.alignment = 0 := by
  unfold Store.chunks at h
  simp only [hRegion] at h
  obtain ⟨⟨a, rest, rfl, hHead⟩, -, hAscends⟩ := Region.chunksFrom_spec 0 h
  refine ⟨congrArg some hHead, hAscends, fun b hb => ?_⟩
  rcases List.mem_cons.mp hb with rfl | hb
  · rw [hHead]
    exact ⟨Nat.zero_le _, Nat.zero_mod _⟩
  · exact Region.bounds_of_isChain hAscends b hb

end RegionHeap
