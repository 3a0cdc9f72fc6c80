import RegionHeap.Proofs.Admission
import RegionHeap.Proofs.Separation

/-!
# Capacities

No header says how large its chunk is: the chunk goes on until the next header. So a payload keeps
its capacity only because that header stays where it is as long as the payload is live, whatever
becomes of the chunk behind it.

* `Obtained`: for how many bytes a log says that a live pointer was granted.
* `Represents.capacity_of_allocate`: a chunk that is granted has the padded size, and at most a
  header more.
* `Run.capacity_kept`: a pointer that is not freed stays live and keeps its capacity.
* `Client.Accounted`, `Run.accounted`: a log accounts for every live pointer and its capacity.
* `correct_run_keeps_capacity`: in every state that a correct client can bring about.
-/

namespace RegionHeap

variable {r : Region} {b : Block} {need o p size : Nat} {request : Call} {answer : Answer}
variable {exchange : Exchange} {log : List Exchange} {m : Memory}
variable {s s' : Store} {t t' : Tiling} {c c' start : Client}

-- ---------------------------------------------------------------------------
-- Logs
-- ---------------------------------------------------------------------------

/-- The log says that `p` was granted for `size` bytes, and that it was not freed since. -/
def Obtained (log : List Exchange) (p size : Nat) : Prop :=
  ∃ before request after, log = before ++ ⟨request, .allocated (.ok p)⟩ :: after ∧
    request.size? = some size ∧ Call.free p ∉ requests after

theorem not_obtained_nil : ¬Obtained [] p size := by
  rintro ⟨before, request, after, hLog, -⟩
  exact absurd hLog.symm (by simp)

/-- With one more exchange, `p` was obtained by that or earlier. -/
theorem obtained_concat : Obtained (log ++ [exchange]) p size ↔
    (exchange.answer = .allocated (.ok p) ∧ exchange.request.size? = some size) ∨
      (Obtained log p size ∧ exchange.request ≠ .free p) := by
  constructor
  · rintro ⟨before, request, after, hLog, hSize, hKept⟩
    rcases List.eq_nil_or_concat' after with rfl | ⟨rest, last, rfl⟩
    · obtain ⟨-, hLast⟩ := List.append_inj' hLog rfl
      obtain rfl := List.singleton_inj.mp hLast
      exact Or.inl ⟨rfl, hSize⟩
    · rw [← List.cons_append, ← List.append_assoc] at hLog
      obtain ⟨rfl, hLast⟩ := List.append_inj' hLog rfl
      obtain rfl := List.singleton_inj.mp hLast
      rw [requests_concat, List.mem_append, List.mem_singleton, not_or] at hKept
      exact Or.inr ⟨⟨before, request, rest, rfl, hSize, hKept.1⟩, Ne.symm hKept.2⟩
  · rintro (⟨hAnswer, hSize⟩ | ⟨⟨before, request, after, rfl, hSize, hKept⟩, hOther⟩)
    · refine ⟨log, exchange.request, [], ?_, hSize, List.not_mem_nil⟩
      rw [← hAnswer]
    · refine ⟨before, request, after ++ [exchange], by simp, hSize, ?_⟩
      rw [requests_concat, List.mem_append, List.mem_singleton, not_or]
      exact ⟨hKept, Ne.symm hOther⟩

-- ---------------------------------------------------------------------------
-- What is granted
-- ---------------------------------------------------------------------------

/-- The first part of a block that is used has the size that is needed, and at most a header
more. -/
theorem Block.take_first (hNeed : need ≤ b.size) : ∃ d rest, b.take need = d :: rest ∧
    d.isFree = false ∧ d.offset = b.offset ∧ need ≤ d.size ∧ d.size ≤ need + headerSize := by
  by_cases hWhole : b.size ≤ need + headerSize
  · exact ⟨_, [], take_whole hWhole, rfl, rfl, hNeed, hWhole⟩
  · exact ⟨_, _, take_cut (by omega), rfl, rfl, Nat.le_refl _, Nat.le_add_right _ _⟩

/-- **The chunk that is granted** has the padded size, and at most a header more. -/
theorem Store.Represents.capacity_of_allocate (h : s.Represents r t)
    (hAllocate : t.allocate size = some (o, t')) : ∃ d ∈ t'.used, d.offset = o ∧
      paddedSize size ≤ d.size ∧ d.size ≤ paddedSize size + headerSize := by
  obtain ⟨need, pre, b, post, rest, hNeed, -, -, rfl, hLe, -, rfl⟩ := h.takes hAllocate
  rw [payloadNeed?_eq] at hNeed
  obtain rfl := Option.some.inj (Option.ite_none_right_eq_some.mp hNeed).2
  obtain ⟨d, others, hTake, hUsed, hOffset, hBounds⟩ := Block.take_first hLe
  refine ⟨d, Tiling.mem_used.mpr ⟨?_, hUsed⟩, hOffset, hBounds⟩
  show d ∈ pre ++ b.take (paddedSize size) ++ post
  rw [hTake]
  simp

namespace Client

namespace Tracks

/-- A call leaves the capacities of the payloads that stay live as they were. -/
theorem usableSize_perform (h : c.Tracks r t) (hAllowed : Protocol.correct.allows c request)
    (hCall : c.perform request = .ok (answer, c')) (hp : p ∈ c.live) (hp' : p ∈ c'.live) :
    c'.store.usableSize p = c.store.usableSize p := by
  obtain ⟨c'', hCall', hTracks', hConducted⟩ := h.perform hAllowed (h.hasRoom_of_perform hCall)
  obtain ⟨-, rfl⟩ := Prod.mk.inj (Except.ok.inj (hCall.symm.trans hCall'))
  obtain ⟨n, hBefore, hAfter, -⟩ := (hConducted.frames h hTracks').kept p hp hp'
  rw [hBefore, hAfter]

/-- So does writing into payloads. -/
theorem usableSize_write (h : c.Tracks r t)
    (hSame : ∀ x, ¬c.Owns x → m.byte x = c.store.memory.byte x) (hp : p ∈ c.live) :
    (c.write m).store.usableSize p = c.store.usableSize p := by
  obtain ⟨b, hb, rfl⟩ := h.exists_used hp
  rw [h.represents.usableSize hb, (h.write hSame).represents.usableSize hb]

/-- What is live after a call was live and is not what it freed, or was granted by it. -/
theorem mem_live_iff (h : c.Tracks r t) (hAllowed : Protocol.correct.allows c request)
    (hCall : c.perform request = .ok (answer, c')) :
    p ∈ c'.live ↔ answer = .allocated (.ok p) ∨ (p ∈ c.live ∧ request ≠ .free p) := by
  cases request with
  | allocate size | allocateZeroed size =>
    obtain ⟨⟨result, s'⟩, -, hOutcome⟩ := bind_eq_ok_iff.mp hCall
    obtain ⟨rfl, rfl⟩ := Prod.mk.inj (Except.ok.inj hOutcome)
    cases result with
    | ok q => simp [eq_comm]
    | error e => simp
  | free q =>
    obtain ⟨c'', hCall', -⟩ := h.perform hAllowed trivial
    obtain ⟨rfl, rfl⟩ := Prod.mk.inj (Except.ok.inj (hCall.symm.trans hCall'))
    rw [live_of_freed hCall', h.nodup.mem_erase_iff]
    simp [Tiling.serve, and_comm, eq_comm]

end Tracks

-- ---------------------------------------------------------------------------
-- Runs
-- ---------------------------------------------------------------------------

/-- **A pointer that is not freed** stays live in a correct run, and keeps its capacity. -/
theorem Run.capacity_kept (hStart : start.Tracks r t) (hp : p ∈ start.live)
    (hRun : Run .correct start log c) (hKept : Call.free p ∉ requests log) :
    p ∈ c.live ∧ c.store.usableSize p = start.store.usableSize p := by
  induction hRun with
  | start _ => exact ⟨hp, rfl⟩
  | call hRun hAllowed hCall _ ih =>
    rw [requests_concat, List.mem_append, List.mem_singleton, not_or] at hKept
    obtain ⟨hLive, hSame⟩ := ih hKept.1
    have hTracks := (hRun.continues hStart).tracks
    have hLive' := (hTracks.mem_live_iff hAllowed hCall).mpr (Or.inr ⟨hLive, Ne.symm hKept.2⟩)
    exact ⟨hLive', (hTracks.usableSize_perform hAllowed hCall hLive hLive').trans hSame⟩
  | write hRun hWrites _ ih =>
    obtain ⟨hLive, hSame⟩ := ih hKept
    have hTracks := (hRun.continues hStart).tracks
    exact ⟨hLive, (hTracks.usableSize_write hWrites hLive).trans hSame⟩

/-- The log accounts for the client: what is live is what was obtained, with the capacity that was
asked for. -/
structure Accounted (log : List Exchange) (c : Client) : Prop where
  live_iff : ∀ p, p ∈ c.live ↔ ∃ size, Obtained log p size
  capacity : ∀ p size, Obtained log p size → ∃ n, c.store.usableSize p = .ok (.ok n) ∧
    paddedSize size ≤ n ∧ n ≤ paddedSize size + headerSize

namespace Accounted

/-- One more correct call. -/
theorem call (h : Accounted log c) (hTracks : c.Tracks r t)
    (hAllowed : Protocol.correct.allows c request) (hCall : c.perform request = .ok (answer, c')) :
    Accounted (log ++ [⟨request, answer⟩]) c' := by
  constructor
  · intro p
    rw [hTracks.mem_live_iff hAllowed hCall, h.live_iff]
    simp only [obtained_concat]
    constructor
    · rintro (rfl | ⟨⟨size, hObtained⟩, hOther⟩)
      · obtain ⟨size, -, -, hSize, -⟩ := hTracks.granted hCall
        exact ⟨size, Or.inl ⟨rfl, hSize⟩⟩
      · exact ⟨size, Or.inr ⟨hObtained, hOther⟩⟩
    · rintro ⟨size, ⟨hAnswer, -⟩ | ⟨hObtained, hOther⟩⟩
      · exact Or.inl hAnswer
      · exact Or.inr ⟨⟨size, hObtained⟩, hOther⟩
  · intro p size hObtained
    rcases obtained_concat.mp hObtained with ⟨rfl, hSize⟩ | ⟨hBefore, hOther⟩
    · -- the call that granted `p` asked for `size` bytes
      obtain ⟨_, o, t', hSize', hAllocate, rfl, hTracks', -⟩ := hTracks.granted hCall
      obtain rfl := Option.some.inj (hSize'.symm.trans hSize)
      obtain ⟨d, hd, rfl, hBounds⟩ := hTracks.represents.capacity_of_allocate hAllocate
      exact ⟨d.size, hTracks'.represents.usableSize hd, hBounds⟩
    · obtain ⟨n, hUsable, hBounds⟩ := h.capacity p size hBefore
      have hLive := (h.live_iff p).mpr ⟨size, hBefore⟩
      have hLive' := (hTracks.mem_live_iff hAllowed hCall).mpr (Or.inr ⟨hLive, hOther⟩)
      exact ⟨n, (hTracks.usableSize_perform hAllowed hCall hLive hLive').trans hUsable, hBounds⟩

theorem write (h : Accounted log c) (hTracks : c.Tracks r t)
    (hSame : ∀ x, ¬c.Owns x → m.byte x = c.store.memory.byte x) : Accounted log (c.write m) where
  live_iff := h.live_iff
  capacity p size hObtained := by
    obtain ⟨n, hUsable, hBounds⟩ := h.capacity p size hObtained
    have hLive := (h.live_iff p).mpr ⟨size, hObtained⟩
    exact ⟨n, (hTracks.usableSize_write hSame hLive).trans hUsable, hBounds⟩

end Accounted

/-- **The log of a correct run** accounts for the client, if nothing was live before. -/
theorem Run.accounted (hStart : start.Tracks r t) (hNone : start.live = [])
    (hRun : Run .correct start log c) : Accounted log c := by
  induction hRun with
  | start _ =>
    constructor
    · intro p
      simp [hNone, not_obtained_nil]
    · intro p size hObtained
      exact absurd hObtained not_obtained_nil
  | call hRun hAllowed hCall _ ih => exact ih.call (hRun.continues hStart).tracks hAllowed hCall
  | write hRun hSame _ ih => exact ih.write (hRun.continues hStart).tracks hSame

end Client

/-- **Capacities**, in every state that a correct client can bring about. The live pointers are
those that were granted and not freed since. Each has room for what was asked for, rounded up to a
multiple of the alignment, and for at most a header more, and as long as it is not freed this stays
the same through every further run. -/
theorem correct_run_keeps_capacity {start stop : Nat} {config : Config}
    (hInit : s.init start stop config = .ok (.ok (), s'))
    (hRun : Client.Run .correct ⟨s', []⟩ log c) :
    (∀ p, p ∈ c.live ↔ ∃ size, Obtained log p size) ∧
      ∀ p size, Obtained log p size → ∃ n, c.store.usableSize p = .ok (.ok n) ∧
        paddedSize size ≤ n ∧ n ≤ paddedSize size + headerSize ∧
        ∀ log' c', Client.Run .correct c log' c' → Call.free p ∉ requests log' →
          c'.store.usableSize p = .ok (.ok n) := by
  obtain ⟨r, -, hLaidOut⟩ := Store.laidOut_of_init hInit
  obtain ⟨hTracks, -⟩ := Client.Run.tracks hLaidOut hRun
  have hAccounted := hRun.accounted (Client.tracks_of_laidOut hLaidOut) rfl
  refine ⟨hAccounted.live_iff, ?_⟩
  intro p size hObtained
  obtain ⟨n, hUsable, hLow, hHigh⟩ := hAccounted.capacity p size hObtained
  have hLive := (hAccounted.live_iff p).mpr ⟨size, hObtained⟩
  refine ⟨n, hUsable, hLow, hHigh, ?_⟩
  intro log' c' hRun' hKept
  exact (hRun'.capacity_kept hTracks hLive hKept).2.trans hUsable

/-- A chunk of 80 bytes is handed out for 60, for which 64 are needed. It keeps its size while both
of its neighbours are freed and one of them is used again. -/
theorem correct_run_keeps_capacity_between_frees :
    ∃ s log c log' c' n, Store.init ⟨Heap.empty, Memory.blank⟩ 65536 66560 .hardened =
        .ok (.ok (), s) ∧
      Client.Run .correct ⟨s, []⟩ log c ∧ Obtained log 65664 60 ∧
      Client.Run .correct c log' c' ∧
      requests log' = [.free 65776, .free 65600, .allocateZeroed 20] ∧
      c.store.usableSize 65664 = .ok (.ok n) ∧ 64 ≤ n ∧ n ≤ 96 ∧
      c'.store.usableSize 65664 = .ok (.ok n) := by
  obtain ⟨s, hInit, hLaidOut⟩ := Store.init_kibibyte .hardened
  obtain ⟨log, c, hRun, hRequests⟩ := Client.Run.extend hLaidOut
    [.allocate 24, .allocate 80, .allocate 24, .free 65664, .allocate 60] (.start trivial)
    (by decide) (by decide)
  obtain ⟨hTracks, hAnswers, -, hAllocations, hFailed⟩ := Client.Run.tracks hLaidOut hRun
  have hLength : log.length = 5 := by
    rw [← length_requests, hRequests]
    rfl
  have hObtained : Obtained log 65664 60 := by
    rw [exchanges_eq log, hAnswers, hRequests]
    exact ⟨[⟨.allocate 24, .allocated (.ok 65600)⟩, ⟨.allocate 80, .allocated (.ok 65664)⟩,
      ⟨.allocate 24, .allocated (.ok 65776)⟩, ⟨.free 65664, .freed (.ok ())⟩], .allocate 60, [],
      rfl, rfl, by decide⟩
  rw [Tiling.replay, hRequests] at hTracks
  have hLimit : log.length + 3 < Word.limit := by
    rw [hLength]
    decide
  obtain ⟨log', c', hRun', hRequests'⟩ := Client.Run.resume
    [.free 65776, .free 65600, .allocateZeroed 20] hTracks (by decide)
    (Nat.lt_of_le_of_lt (Nat.add_le_add_right hAllocations 3) hLimit)
    (Nat.lt_of_le_of_lt (Nat.add_le_add_right hFailed 3) hLimit)
  obtain ⟨-, hCapacity⟩ := correct_run_keeps_capacity hInit hRun
  obtain ⟨n, hUsable, hLow, hHigh, hKeeps⟩ := hCapacity 65664 60 hObtained
  have hKept : Call.free 65664 ∉ requests log' := by
    rw [hRequests']
    decide
  exact ⟨s, log, c, log', c', n, hInit, hRun, hObtained, hRun', hRequests', hUsable, hLow, hHigh,
    hKeeps log' c' hRun' hKept⟩

end RegionHeap
