import Mathlib.Data.Nat.Log
import RegionHeap.Proofs.Client
import RegionHeap.Proofs.Totals

/-!
# Which requests are served

A request is served from the first class that has a chunk and whose every size covers it. Chunks
of lower classes are never looked at, so a request can be refused although a chunk is large enough
for it: what decides is whether the largest free chunk reaches the next power of two.

* `paddedSize`: how many bytes a request takes.
* `Stats.Refuses`: whether a request is refused, from the totals of a heap alone.
* `Represents.allocate_eq_none_iff`: a tiling refuses exactly these requests.
* `Represents.serves`: the chunk that a request is served with otherwise.
* `correct_run_admits`: what becomes of a request in every state that a correct client can bring
  about.
-/

namespace RegionHeap

variable {r : Region} {need size o : Nat} {k : SizeClass}
variable {s s' : Store} {t t' : Tiling} {c : Client}

-- ---------------------------------------------------------------------------
-- The size of a request
-- ---------------------------------------------------------------------------

/-- How many bytes a request of `size` bytes takes: as many as a multiple of the alignment has,
and no fewer than the smallest payload. -/
def paddedSize (size : Nat) : Nat := max (Word.roundUp size Word.alignment) minPayload

theorem Word.alignUp?_eq (n : Nat) :
    alignUp? n = if roundUp n alignment < limit then some (roundUp n alignment) else none := by
  have hRound : alignDown (n + (alignment - 1)) = roundUp n alignment := rfl
  unfold alignUp?
  rw [hRound]
  refine if_congr ?_ rfl rfl
  unfold roundUp alignment limit
  omega

/-- A request can be padded unless that leaves the range of words. -/
theorem payloadNeed?_eq (size : Nat) : payloadNeed? size =
    if Word.roundUp size Word.alignment < Word.limit then some (paddedSize size) else none := by
  unfold payloadNeed?
  rw [Word.alignUp?_eq]
  split <;> rfl

-- ---------------------------------------------------------------------------
-- Refusals
-- ---------------------------------------------------------------------------

/-- The request is refused: it cannot be padded, or no class covers it, or the largest free chunk
does not reach the next power of two. -/
def Stats.Refuses (stats : Stats) (size : Nat) : Prop :=
  Word.limit ≤ Word.roundUp size Word.alignment ∨ 2 ^ 63 < paddedSize size ∨
    stats.largestFree < 2 ^ Nat.clog 2 (paddedSize size)

instance (stats : Stats) (size : Nat) : Decidable (stats.Refuses size) :=
  inferInstanceAs (Decidable (_ ∨ _ ∨ _))

/-- The store with one more refusal counted. -/
def Store.countRefusal (s : Store) : Store where
  heap :=
    { s.heap with
      counters :=
        { s.heap.counters with
          failedAllocations := s.heap.counters.failedAllocations + 1 } }
  memory := s.memory

namespace Tiling

/-- A request is refused if it cannot be padded or no class serves it. -/
theorem allocate_eq_none_iff : t.allocate size = none ↔
    Word.limit ≤ Word.roundUp size Word.alignment ∨ t.servingClass? (paddedSize size) = none := by
  unfold allocate
  rw [payloadNeed?_eq]
  by_cases hPadded : Word.roundUp size Word.alignment < Word.limit
  · rw [if_pos hPadded]
    cases hClass : t.servingClass? (paddedSize size) with
    | none => simp [hClass]
    | some k =>
      obtain ⟨o, rest, hStack⟩ := List.exists_cons_of_ne_nil (servingClass?_spec hClass).2.1
      simp [hClass, hStack, hPadded]
  · rw [if_neg hPadded]
    simp [Nat.le_of_not_lt hPadded]

end Tiling

namespace Store.Represents

/-- **A class serves a request** if the largest free block reaches the next power of two. -/
theorem exists_serving_iff (h : s.Represents r t) :
    (∃ k : SizeClass, need ≤ 2 ^ k.val ∧ t.stack k ≠ []) ↔
      2 ^ Nat.clog 2 need ≤ t.largestFree := by
  constructor
  · rintro ⟨k, hCovers, hStack⟩
    obtain ⟨o, rest, hCons⟩ := List.exists_cons_of_ne_nil hStack
    obtain ⟨b, hb, hFree, -, hClass⟩ := h.holds.exists_free (k := k) (o := o) (by simp [hCons])
    calc 2 ^ Nat.clog 2 need
        ≤ 2 ^ k.val := Nat.pow_le_pow_right (by decide) (Nat.clog_le_of_le_pow hCovers)
      _ ≤ b.size := SizeClass.two_pow_le_of_ofSize_eq (h.size_pos hb) hClass
      _ ≤ t.largestFree := Tiling.size_le_largestFree hb hFree
  · intro hReaches
    obtain ⟨b, hb, hFree, hLe⟩ :=
      Tiling.exists_le_size_of_le_largestFree (Nat.two_pow_pos _) hReaches
    -- the class of a block that reaches the power of two is not below it
    have hUpper := SizeClass.lt_two_pow_of_ofSize_eq (h.size_lt_limit hb) rfl
    have hClass : Nat.clog 2 need < (SizeClass.ofSize b.size).val + 1 :=
      (Nat.pow_lt_pow_iff_right (by decide)).mp (Nat.lt_of_le_of_lt hLe hUpper)
    refine ⟨SizeClass.ofSize b.size, ?_, List.ne_nil_of_mem (h.holds.binned.mem_of_free hb hFree)⟩
    calc need
        ≤ 2 ^ Nat.clog 2 need := Nat.le_pow_clog (by decide) need
      _ ≤ 2 ^ (SizeClass.ofSize b.size).val :=
        Nat.pow_le_pow_right (by decide) (Nat.le_of_lt_succ hClass)

theorem largestFree_lt_limit (h : s.Represents r t) : t.largestFree < Word.limit := by
  by_contra hLarge
  obtain ⟨b, hb, -, hLe⟩ :=
    Tiling.exists_le_size_of_le_largestFree (by decide : 0 < Word.limit) (Nat.le_of_not_lt hLarge)
  have := h.size_lt_limit hb
  omega

/-- **Refusals** can be told from the totals. -/
theorem allocate_eq_none_iff {stats : Stats} (h : s.Represents r t)
    (hLargest : stats.largestFree = t.largestFree) :
    t.allocate size = none ↔ stats.Refuses size := by
  have hServing : t.servingClass? (paddedSize size) = none ↔
      t.largestFree < 2 ^ Nat.clog 2 (paddedSize size) := by
    rw [Tiling.servingClass?_eq_none_iff, ← Nat.not_le, ← h.exists_serving_iff]
    push Not
    exact Iff.rfl
  -- the last class covers no more than this, and no chunk is larger than a word
  have hLast : 2 ^ 63 < paddedSize size →
      t.largestFree < 2 ^ Nat.clog 2 (paddedSize size) := by
    intro hLarge
    refine Nat.lt_of_lt_of_le h.largestFree_lt_limit ?_
    show 2 ^ 64 ≤ _
    exact Nat.pow_le_pow_right (by decide) ((Nat.lt_clog_iff_pow_lt (by decide)).mpr hLarge)
  rw [Tiling.allocate_eq_none_iff, hServing, Stats.Refuses, hLargest]
  tauto

/-- A request that is refused is counted, and that is all. -/
theorem allocate_refused (h : s.Represents r t) (hNone : t.allocate size = none)
    (hFailed : s.heap.counters.failedAllocations + 1 < Word.limit) :
    s.allocate size = .ok (.error (.outOfMemory size), s.countRefusal) := by
  rcases h.takeChunk size with ⟨-, hTake⟩ | ⟨o, t', s', hSome, -⟩
  · unfold Store.allocate
    simp only [h.holds.region]
    rw [hTake, ok_bind]
    simp only
    rw [Word.add_eq_ok_iff.mpr ⟨rfl, hFailed⟩, ok_bind]
    rfl
  · exact absurd (hNone.symm.trans hSome) (by simp)

end Store.Represents

-- ---------------------------------------------------------------------------
-- The chunk that is taken
-- ---------------------------------------------------------------------------

/-- The free chunk at `o` is next in line to serve `need` bytes: it is the newest of class `k`,
the lowest of the occupied classes that cover them. -/
structure Store.Serves (s : Store) (r : Region) (need : Nat) (k : SizeClass) (o : Nat) : Prop where
  covers : need ≤ k.range.1
  occupied : s.heap.bins.occupied[k] = true
  lowest : ∀ j < k, need ≤ j.range.1 → s.heap.bins.occupied[j] = false
  head : s.heap.bins.head k = some o
  /-- Its size is in the class, and what is needed can be subtracted from it. -/
  capacity : ∃ n, r.chunkSize s.memory o = .ok n ∧ SizeClass.ofSize n = k ∧
    Word.sub n need = .ok (n - need)

/-- **A request that is granted** takes the chunk that is next in line. -/
theorem Store.Represents.serves (h : s.Represents r t)
    (hAllocate : t.allocate size = some (o, t')) : ∃ k, s.Serves r (paddedSize size) k o := by
  obtain ⟨need, k, rest, hNeed, hClass, hStack, -⟩ := Tiling.allocate_inv hAllocate
  rw [payloadNeed?_eq] at hNeed
  obtain rfl := Option.some.inj (Option.ite_none_right_eq_some.mp hNeed).2
  obtain ⟨hCovers, -, hLowest⟩ := Tiling.servingClass?_spec hClass
  obtain ⟨b, hb, -, rfl, rfl⟩ := h.holds.exists_free (k := k) (o := o) (by simp [hStack])
  have hLe := SizeClass.two_pow_le_of_ofSize_eq (h.size_pos hb) rfl
  have hOccupied : ∀ j : SizeClass, s.heap.bins.occupied[j] = !(t.stack j).isEmpty :=
    h.holds.filed.occupied
  refine ⟨_, ?_, ?_, fun j hj hCovers' => ?_, ?_, b.size, ?_, rfl, ?_⟩
  · rw [SizeClass.range_eq]
    exact hCovers
  · rw [hOccupied, hStack]
    rfl
  · rw [SizeClass.range_eq] at hCovers'
    rw [hOccupied]
    by_contra hSome
    exact absurd (hLowest j hCovers' (by simpa using hSome)) (Fin.not_le.mpr hj)
  · rw [h.holds.filed.head, hStack]
    rfl
  · exact h.holds.chained.chunkSize_eq hb
  · exact Word.sub_eq_ok_iff.mpr ⟨by omega, rfl⟩

-- ---------------------------------------------------------------------------
-- Correct runs
-- ---------------------------------------------------------------------------

/-- **Which requests are served**, in every state that a correct client can bring about. A request
is refused exactly if it cannot be padded, if no class covers it, or if the largest free chunk does
not reach the next power of two, and then one more refusal is counted and nothing else changes. Any
other request is granted the chunk that is next in line, and counted once. -/
theorem correct_run_admits {start stop : Nat} {config : Config} {log : List Exchange}
    (hInit : s.init start stop config = .ok (.ok (), s'))
    (hRun : Client.Run .correct ⟨s', []⟩ log c) (hCalls : log.length + 1 < Word.limit) :
    ∃ r stats, Region.ofBounds? start stop = .ok r ∧ c.store.stats = .ok stats ∧
      ∀ size,
        ((∃ s'', c.store.allocate size = .ok (.error (.outOfMemory size), s'')) ↔
          stats.Refuses size) ∧
        (stats.Refuses size →
          c.store.allocate size = .ok (.error (.outOfMemory size), c.store.countRefusal)) ∧
        (¬stats.Refuses size → ∃ k o s'', c.store.Serves r (paddedSize size) k o ∧
          c.store.allocate size = .ok (.ok (r.payload o), s'') ∧
          s''.heap.counters.allocations = c.store.heap.counters.allocations + 1 ∧
          s''.heap.counters.frees = c.store.heap.counters.frees ∧
          s''.heap.counters.failedAllocations = c.store.heap.counters.failedAllocations) := by
  obtain ⟨r, hBounds, hLaidOut⟩ := Store.laidOut_of_init hInit
  obtain ⟨hTracks, -, -, hAllocations, hFailed⟩ := Client.Run.tracks hLaidOut hRun
  refine ⟨r, _, hBounds, hTracks.represents.stats_eq, fun size => ?_⟩
  have hRoom : c.store.HasRoom (Tiling.replay r log) size := ⟨fun _ => by omega, fun _ => by omega⟩
  rw [← hTracks.represents.allocate_eq_none_iff rfl]
  rcases hTracks.represents.allocate hRoom with
    ⟨hNone, s'', hCall, -⟩ | ⟨o, t', s'', hSome, hCall, hAllocated, -⟩
  · exact ⟨⟨fun _ => hNone, fun _ => ⟨s'', hCall⟩⟩,
      fun _ => hTracks.represents.allocate_refused hNone (by omega), fun h => absurd hNone h⟩
  · have hNotNone : (Tiling.replay r log).allocate size ≠ none := by simp [hSome]
    refine ⟨⟨?_, fun hNone => absurd hNone hNotNone⟩, fun hNone => absurd hNone hNotNone,
      fun _ => ?_⟩
    · rintro ⟨s₂, hRefused⟩
      obtain ⟨hAnswer, -⟩ := Prod.mk.inj (Except.ok.inj (hCall.symm.trans hRefused))
      exact absurd hAnswer (by simp)
    · obtain ⟨k, hServes⟩ := hTracks.represents.serves hSome
      exact ⟨k, o, s'', hServes, hCall, hAllocated.allocations, hAllocated.frees,
        hAllocated.failedAllocations⟩

/-- After two small allocations the largest free chunk has 800 bytes, and yet 600 bytes are
refused: their class begins at 1024. There is room for 500. -/
theorem correct_run_admits_below_next_power :
    ∃ s log c stats, Store.init ⟨Heap.empty, Memory.blank⟩ 65536 66560 .hardened =
        .ok (.ok (), s) ∧
      Client.Run .correct ⟨s, []⟩ log c ∧ requests log = [.allocate 24, .allocate 24] ∧
      c.store.stats = .ok stats ∧ stats.largestFree = 800 ∧
      c.store.allocate 600 = .ok (.error (.outOfMemory 600), c.store.countRefusal) ∧
      ∃ k o s'', c.store.Serves .kibibyte 512 k o ∧
        c.store.allocate 500 = .ok (.ok (Region.kibibyte.payload o), s'') := by
  obtain ⟨s, hInit, hLaidOut⟩ := Store.init_kibibyte .hardened
  obtain ⟨log, c, hRun, hRequests⟩ := Client.Run.extend hLaidOut [.allocate 24, .allocate 24]
    (.start trivial) (by decide) (by decide)
  have hLength : log.length + 1 < Word.limit := by
    rw [← List.length_map (·.request), show log.map (·.request) = _ from hRequests]
    decide
  obtain ⟨r, stats, hBounds, hStats, hAdmits⟩ := correct_run_admits hInit hRun hLength
  obtain rfl : Region.kibibyte = r := Except.ok.inj hBounds
  have hLargest : stats.largestFree = 800 := by
    have hTracks := (Client.Run.tracks hLaidOut hRun).1
    rw [← Except.ok.inj (hTracks.represents.stats_eq.symm.trans hStats), Tiling.replay, hRequests]
    show Tiling.largestFree _ = 800
    decide
  have hRefused : stats.Refuses 600 := by
    unfold Stats.Refuses
    rw [hLargest]
    decide
  have hGranted : ¬stats.Refuses 500 := by
    unfold Stats.Refuses
    rw [hLargest]
    decide
  obtain ⟨k, o, s'', hServes, hCall, -⟩ := (hAdmits 500).2.2 hGranted
  exact ⟨s, log, c, stats, hInit, hRun, hRequests, hStats, hLargest, (hAdmits 600).2.1 hRefused,
    k, o, s'', hServes, hCall⟩

end RegionHeap
