import RegionHeap.Proofs.Calls
import RegionHeap.Proofs.Setup

/-!
# Clients and their runs

A client makes calls and remembers which pointers it was given and has not freed. Between
calls it writes into the payloads of those pointers. `Protocol` says which calls it may make
and which states it must keep to, and `Client.Run` is any finite history of a client that follows
a protocol.

* `Client.perform`: one call, with its answer.
* `Protocol.correct`: only live pointers are freed. `Protocol.reckless`: anything may be
  freed, as long as no live payload holds a word that looks like the tag of a used chunk.
* `Tiling.serve`: what a tiling answers to the same requests.
* `Tracks.perform`, `Tracks.write`: a correct step keeps client, store and tiling in step.
* `Run.continues`, `Run.tracks`: so does a correct run, from anywhere and from the beginning.
* `Run.progress`, `Run.resume`, `Run.extend`: it can go on with every call that the tiling allows.
* `Run.transfer`: clients that track one tiling can make the same calls, with the same answers.
-/

namespace RegionHeap

-- ---------------------------------------------------------------------------
-- Calls
-- ---------------------------------------------------------------------------

/-- What a client asks of a heap. -/
inductive Call
  | allocate (size : Nat)
  | allocateZeroed (size : Nat)
  | free (pointer : Nat)
  deriving DecidableEq, Repr

/-- What a heap answers. -/
inductive Answer
  | allocated (result : Except HeapError Nat)
  | freed (result : Except HeapError Unit)
  deriving DecidableEq

/-- How many bytes a call asks for. -/
def Call.size? : Call → Option Nat
  | .allocate size | .allocateZeroed size => some size
  | .free _ => none

namespace Answer

/-- The answer is a pointer. -/
def isGranted : Answer → Bool
  | allocated (.ok _) => true
  | allocated (.error _) | freed _ => false

/-- The answer is that there is no chunk. -/
def isRefused : Answer → Bool
  | allocated (.error _) => true
  | allocated (.ok _) | freed _ => false

/-- The answer is that a pointer was freed. -/
def isAccepted : Answer → Bool
  | freed (.ok ()) => true
  | freed (.error _) | allocated _ => false

end Answer

/-- A request and its answer. -/
structure Exchange where
  request : Call
  answer : Answer

/-- A store and the pointers that its client was given and has not freed, newest first. -/
structure Client where
  store : Store
  live : List Nat

namespace Client

/-- The client takes note of what an allocation returns. -/
def allocated (c : Client) (outcome : Outcome Nat) : Answer × Client :=
  (.allocated outcome.1,
    { store := outcome.2
      live :=
        match outcome.1 with
        | .ok pointer => pointer :: c.live
        | .error _ => c.live })

/-- The client takes note of whether a pointer was freed. -/
def freed (c : Client) (pointer : Nat) (outcome : Outcome Unit) : Answer × Client :=
  (.freed outcome.1,
    { store := outcome.2
      live :=
        match outcome.1 with
        | .ok () => c.live.erase pointer
        | .error _ => c.live })

/-- One call. -/
def perform (c : Client) : Call → Checked (Answer × Client)
  | .allocate size => return c.allocated (← c.store.allocate size)
  | .allocateZeroed size => return c.allocated (← c.store.allocateZeroed size)
  | .free pointer => return c.freed pointer (← c.store.free pointer)

/-- The bytes that a client may write: those of its live payloads. -/
def Owns (c : Client) (address : Nat) : Prop :=
  ∃ p ∈ c.live, ∃ n, c.store.usableSize p = .ok (.ok n) ∧ p ≤ address ∧ address < p + n

/-- The client after it wrote to memory. -/
def write (c : Client) (m : Memory) : Client := { c with store := { c.store with memory := m } }

end Client

-- ---------------------------------------------------------------------------
-- Runs
-- ---------------------------------------------------------------------------

/-- Which calls a client may make, and which states it has to keep to. -/
structure Protocol where
  allows : Client → Call → Prop
  admits : Client → Prop

/-- Only live pointers are freed. -/
def Protocol.correct : Protocol where
  allows c
    | .allocate _ | .allocateZeroed _ => True
    | .free pointer => pointer ∈ c.live
  admits _ := True

/-- A client that follows a protocol: it makes calls, and it writes into its payloads. -/
inductive Client.Run (P : Protocol) (start : Client) : List Exchange → Client → Prop
  | start : P.admits start → Run P start [] start
  | call {log : List Exchange} {c c' : Client} {request : Call} {answer : Answer} :
      Run P start log c → P.allows c request → c.perform request = .ok (answer, c') →
        P.admits c' → Run P start (log ++ [⟨request, answer⟩]) c'
  | write {log : List Exchange} {c : Client} {m : Memory} :
      Run P start log c → (∀ x, ¬c.Owns x → m.byte x = c.store.memory.byte x) →
        P.admits (c.write m) → Run P start log (c.write m)

-- ---------------------------------------------------------------------------
-- Tilings answer the same requests
-- ---------------------------------------------------------------------------

namespace Tiling

/-- What a tiling of the region answers, and what becomes of it. -/
def serve (r : Region) (t : Tiling) : Call → Answer × Tiling
  | .allocate size | .allocateZeroed size =>
    match t.allocate size with
    | some (offset, t') => (.allocated (.ok (r.payload offset)), t')
    | none => (.allocated (.error (.outOfMemory size)), t)
  | .free pointer => (.freed (.ok ()), t.free (pointer - r.payload 0))

/-- The answers to requests made one after the other. -/
def answers (r : Region) : Tiling → List Call → List Answer
  | _, [] => []
  | t, request :: rest => (t.serve r request).1 :: answers r (t.serve r request).2 rest

/-- What becomes of a tiling. -/
def after (r : Region) (t : Tiling) (requests : List Call) : Tiling :=
  requests.foldl (fun t request => (t.serve r request).2) t

/-- A call that a correct client may make of a tiling. -/
def Allows (r : Region) (t : Tiling) : Call → Prop
  | .allocate _ | .allocateZeroed _ => True
  | .free pointer => pointer ∈ t.used.map fun b => r.payload b.offset

instance {r : Region} {t : Tiling} : (request : Call) → Decidable (t.Allows r request)
  | .allocate _ | .allocateZeroed _ => isTrue trivial
  | .free pointer => inferInstanceAs (Decidable (pointer ∈ t.used.map fun b => r.payload b.offset))

/-- Calls that a correct client may make one after the other. -/
def AllowsAll (r : Region) : Tiling → List Call → Prop
  | _, [] => True
  | t, request :: rest => t.Allows r request ∧ AllowsAll r (t.serve r request).2 rest

instance {r : Region} : (t : Tiling) → (requests : List Call) → Decidable (t.AllowsAll r requests)
  | _, [] => isTrue trivial
  | t, request :: rest =>
    have : Decidable (AllowsAll r (t.serve r request).2 rest) := instDecidableAllowsAll _ rest
    inferInstanceAs (Decidable (t.Allows r request ∧ AllowsAll r (t.serve r request).2 rest))

variable {r : Region} {t t' : Tiling} {request : Call} {requests : List Call}

/-- A request that is granted is an allocation that the tiling makes. -/
theorem serve_granted {p : Nat} (h : (t.serve r request).1 = .allocated (.ok p)) :
    ∃ size o, request.size? = some size ∧ t.allocate size = some (o, (t.serve r request).2) ∧
      r.payload o = p := by
  cases request with
  | allocate size | allocateZeroed size =>
    simp only [serve] at h ⊢
    cases hAllocate : t.allocate size with
    | none =>
      rw [hAllocate] at h
      exact absurd (Answer.allocated.inj h) (by simp)
    | some served =>
      rw [hAllocate] at h
      exact ⟨size, served.1, rfl, hAllocate, Except.ok.inj (Answer.allocated.inj h)⟩
  | free q => exact absurd h (by simp [serve])

/-- An allocation that the tiling makes is granted, whichever call asks for it. -/
theorem serve_of_allocate {size o : Nat} (hSize : request.size? = some size)
    (hAllocate : t.allocate size = some (o, t')) :
    t.serve r request = (.allocated (.ok (r.payload o)), t') := by
  cases request with
  | allocate n | allocateZeroed n =>
    obtain rfl : n = size := Option.some.inj hSize
    unfold serve
    simp only [hAllocate]
  | free q => exact absurd hSize (by simp [Call.size?])

theorem after_concat :
    t.after r (requests ++ [request]) = ((t.after r requests).serve r request).2 := by
  simp [after]

theorem answers_concat :
    t.answers r (requests ++ [request]) =
      t.answers r requests ++ [((t.after r requests).serve r request).1] := by
  induction requests generalizing t with
  | nil => rfl
  | cons first rest ih =>
    show (t.serve r first).1 :: answers r (t.serve r first).2 (rest ++ [request]) = _
    rw [ih]
    rfl

end Tiling

-- ---------------------------------------------------------------------------
-- Client, store and tiling in step
-- ---------------------------------------------------------------------------

variable {r : Region} {b : Block} {s s' : Store} {t t' : Tiling} {c c' : Client}

/-- The counters have room for one more call. -/
def Client.HasRoom (c : Client) (t : Tiling) : Call → Prop
  | .allocate size | .allocateZeroed size => c.store.HasRoom t size
  | .free _ => True

theorem Client.HasRoom.of_counters {request : Call}
    (hAllocations : c.store.heap.counters.allocations + 1 < Word.limit)
    (hFailed : c.store.heap.counters.failedAllocations + 1 < Word.limit) :
    c.HasRoom t request := by
  cases request with
  | allocate size | allocateZeroed size => exact ⟨fun _ => hAllocations, fun _ => hFailed⟩
  | free p => trivial

/-- Only the counter that the answer is counted in needs room. -/
theorem Client.HasRoom.of_answer {request : Call}
    (hGranted : (t.serve r request).1.isGranted = true →
      c.store.heap.counters.allocations + 1 < Word.limit)
    (hRefused : (t.serve r request).1.isRefused = true →
      c.store.heap.counters.failedAllocations + 1 < Word.limit) :
    c.HasRoom t request := by
  cases request with
  | allocate size | allocateZeroed size =>
    simp only [Tiling.serve] at hGranted hRefused
    refine ⟨fun hSome => hGranted ?_, fun hNone => hRefused ?_⟩
    · obtain ⟨served, hServed⟩ := Option.ne_none_iff_exists'.mp hSome
      rw [hServed]
      rfl
    · rw [hNone]
      rfl
  | free p => trivial

theorem Client.HasRoom.of_refused {request : Call} (h : c.HasRoom t request)
    (hRefused : (t.serve r request).1.isRefused = true) :
    c.store.heap.counters.failedAllocations + 1 < Word.limit := by
  cases request with
  | allocate size | allocateZeroed size =>
    simp only [Tiling.serve] at hRefused
    refine h.2 ?_
    cases hServed : t.allocate size with
    | none => rfl
    | some served =>
      rw [hServed] at hRefused
      exact absurd hRefused Bool.false_ne_true
  | free p => exact absurd hRefused Bool.false_ne_true

/-- What an allowed call does to a store and to its tiling. -/
inductive Conducted (r : Region) (t t' : Tiling) (s s' : Store) : Prop
  | allocated (o size : Nat) : Store.Allocated r t t' o size s s' → Conducted r t t' s s'
  | refused : t' = t → Store.Refused r t s s' → Conducted r t t' s s'
  | freed (b : Block) : t' = t.free b.offset → t.used.Perm (b :: t'.used) →
      Store.Freed r t b.offset s s' → Conducted r t t' s s'

/-- A call that was answered so is counted once, as what it was. -/
structure Answer.Counted (answer : Answer) (s s' : Store) : Prop where
  allocations :
    s'.heap.counters.allocations = s.heap.counters.allocations + answer.isGranted.toNat
  frees : s'.heap.counters.frees = s.heap.counters.frees + answer.isAccepted.toNat
  failedAllocations :
    s'.heap.counters.failedAllocations = s.heap.counters.failedAllocations + answer.isRefused.toNat

namespace Client

/-- The store represents the tiling, the live pointers are those of the used blocks, and
every allocation is live or was freed. -/
structure Tracks (c : Client) (r : Region) (t : Tiling) : Prop where
  represents : c.store.Represents r t
  live : c.live.Perm (t.used.map fun b => r.payload b.offset)
  allocations : c.store.heap.counters.allocations = c.store.heap.counters.frees + c.live.length
  allocations_lt : c.store.heap.counters.allocations < Word.limit

theorem payload_injective (r : Region) : Function.Injective r.payload := by
  intro x y hxy
  unfold Region.payload at hxy
  omega

theorem payload_sub (r : Region) (o : Nat) : r.payload o - r.payload 0 = o := by
  unfold Region.payload
  omega

namespace Tracks

/-- A live pointer is that of a used block. -/
theorem exists_used (h : c.Tracks r t) {p : Nat} (hp : p ∈ c.live) :
    ∃ b ∈ t.used, r.payload b.offset = p :=
  List.mem_map.mp (h.live.mem_iff.mp hp)

theorem payload_mem (h : c.Tracks r t) (hb : b ∈ t.used) : r.payload b.offset ∈ c.live :=
  h.live.mem_iff.mpr (List.mem_map_of_mem hb)

theorem distinct (h : c.Tracks r t) : (t.used.map Block.offset).Nodup :=
  (List.filter_sublist.map _).nodup h.represents.holds.distinct

/-- No pointer is live twice. -/
theorem nodup (h : c.Tracks r t) : c.live.Nodup := by
  refine h.live.nodup_iff.mpr ?_
  rw [show (fun b : Block => r.payload b.offset) = r.payload ∘ Block.offset from rfl,
    ← List.map_map]
  exact h.distinct.map (payload_injective r)

/-- While a pointer is live there is room in the counter of releases. -/
theorem frees_lt (h : c.Tracks r t) {p : Nat} (hp : p ∈ c.live) :
    c.store.heap.counters.frees + 1 < Word.limit := by
  have := h.allocations
  have := h.allocations_lt
  have := List.length_pos_of_mem hp
  omega

/-- The order of the live pointers does not matter. -/
theorem of_perm (h : c.Tracks r t) {live : List Nat} (hPerm : live.Perm c.live) :
    Tracks { c with live := live } r t where
  represents := h.represents
  live := hPerm.trans h.live
  allocations := by
    rw [hPerm.length_eq]
    exact h.allocations
  allocations_lt := h.allocations_lt

/-- A client owns the payloads of the used blocks. -/
theorem owns_iff (h : c.Tracks r t) {x : Nat} :
    c.Owns x ↔ ∃ b ∈ t.used, r.payload b.offset ≤ x ∧ x < r.payload b.offset + b.size := by
  constructor
  · rintro ⟨p, hp, n, hSize, hLow, hHigh⟩
    obtain ⟨b, hb, rfl⟩ := h.exists_used hp
    rw [h.represents.usableSize hb] at hSize
    obtain rfl := Except.ok.inj (Except.ok.inj hSize)
    exact ⟨b, hb, hLow, hHigh⟩
  · rintro ⟨b, hb, hLow, hHigh⟩
    exact ⟨_, h.payload_mem hb, b.size, h.represents.usableSize hb, hLow, hHigh⟩

/-- **Writing** into live payloads keeps client, store and tiling in step. -/
theorem write (h : c.Tracks r t) {m : Memory}
    (hSame : ∀ x, ¬c.Owns x → m.byte x = c.store.memory.byte x) : (c.write m).Tracks r t where
  represents := h.represents.of_payloads fun x hx => hSame x fun hOwns => by
    obtain ⟨b, hb, hLow, hHigh⟩ := h.owns_iff.mp hOwns
    have := hx b hb
    omega
  live := h.live
  allocations := h.allocations
  allocations_lt := h.allocations_lt

/-- An allocation keeps client, store and tiling in step. -/
theorem of_allocated {o size : Nat} (h : c.Tracks r t)
    (hAllocated : Store.Allocated r t t' o size c.store s')
    (hCount : c.store.heap.counters.allocations + 1 < Word.limit) :
    (c.allocated (.ok (r.payload o), s')).2.Tracks r t' := by
  obtain ⟨b, rfl, -, hPerm⟩ := hAllocated.used
  refine ⟨hAllocated.represents, ?_, ?_, by rw [← hAllocated.allocations] at hCount; exact hCount⟩
  · refine (h.live.cons (r.payload b.offset)).trans ?_
    exact (hPerm.map fun b => r.payload b.offset).symm
  · show s'.heap.counters.allocations = s'.heap.counters.frees + (c.live.length + 1)
    rw [hAllocated.allocations, hAllocated.frees, h.allocations]
    omega

theorem of_refused {e : HeapError} (h : c.Tracks r t)
    (hRefused : Store.Refused r t c.store s') : (c.allocated (.error e, s')).2.Tracks r t := by
  refine ⟨hRefused.represents, h.live, ?_, hRefused.allocations ▸ h.allocations_lt⟩
  show s'.heap.counters.allocations = s'.heap.counters.frees + c.live.length
  rw [hRefused.allocations, hRefused.frees, h.allocations]

theorem of_freed (h : c.Tracks r t) (hb : b ∈ t.used)
    (hPerm : t.used.Perm (b :: (t.free b.offset).used))
    (hFreed : Store.Freed r t b.offset c.store s') :
    (c.freed (r.payload b.offset) (.ok (), s')).2.Tracks r (t.free b.offset) := by
  have hLive := h.payload_mem hb
  refine ⟨hFreed.represents, ?_, ?_, hFreed.allocations ▸ h.allocations_lt⟩
  · show (c.live.erase (r.payload b.offset)).Perm _
    have hErase := (h.live.trans (hPerm.map fun b => r.payload b.offset)).erase
      (r.payload b.offset)
    rwa [List.map_cons, List.erase_cons_head] at hErase
  · show s'.heap.counters.allocations =
      s'.heap.counters.frees + (c.live.erase (r.payload b.offset)).length
    have := List.length_erase_of_mem hLive
    have := List.length_pos_of_mem hLive
    rw [hFreed.allocations, hFreed.frees, h.allocations]
    omega

/-- Client and tiling allow the same calls. -/
theorem allows_iff (h : c.Tracks r t) (request : Call) :
    Protocol.correct.allows c request ↔ t.Allows r request := by
  cases request with
  | allocate size | allocateZeroed size => exact Iff.rfl
  | free p => exact h.live.mem_iff

/-- **A correct call** is answered as the tiling answers it, keeps client, store and tiling in
step, and is counted. -/
theorem perform_counted {request : Call} (h : c.Tracks r t)
    (hAllowed : Protocol.correct.allows c request) (hRoom : c.HasRoom t request) :
    ∃ c', c.perform request = .ok ((t.serve r request).1, c') ∧
      c'.Tracks r (t.serve r request).2 ∧
      Conducted r t (t.serve r request).2 c.store c'.store ∧
      (t.serve r request).1.Counted c.store c'.store := by
  cases request with
  | allocate size =>
    unfold Client.perform Tiling.serve
    rcases h.represents.allocate hRoom with
      ⟨hTiling, s', hCall, hRefused⟩ | ⟨o, t', s', hTiling, hCall, hAllocated, -⟩
    · simp only [hTiling]
      rw [hCall, ok_bind]
      exact ⟨_, rfl, h.of_refused hRefused, .refused rfl hRefused, hRefused.allocations,
        hRefused.frees, hRefused.failedAllocations⟩
    · simp only [hTiling]
      rw [hCall, ok_bind]
      have hCount := hRoom.1 (by simp [hTiling])
      exact ⟨_, rfl, h.of_allocated hAllocated hCount, .allocated o size hAllocated,
        hAllocated.allocations, hAllocated.frees, hAllocated.failedAllocations⟩
  | allocateZeroed size =>
    unfold Client.perform Tiling.serve
    rcases h.represents.allocateZeroed hRoom with
      ⟨hTiling, s', hCall, hRefused⟩ | ⟨o, t', s', hTiling, hCall, hAllocated, -⟩
    · simp only [hTiling]
      rw [hCall, ok_bind]
      exact ⟨_, rfl, h.of_refused hRefused, .refused rfl hRefused, hRefused.allocations,
        hRefused.frees, hRefused.failedAllocations⟩
    · simp only [hTiling]
      rw [hCall, ok_bind]
      have hCount := hRoom.1 (by simp [hTiling])
      exact ⟨_, rfl, h.of_allocated hAllocated hCount, .allocated o size hAllocated,
        hAllocated.allocations, hAllocated.frees, hAllocated.failedAllocations⟩
  | free p =>
    have hLive : p ∈ c.live := hAllowed
    obtain ⟨b, hb, rfl⟩ := h.exists_used hLive
    obtain ⟨s', hCall, hPerm, hFreed⟩ := h.represents.free hb (h.frees_lt hLive)
    unfold Client.perform Tiling.serve
    simp only
    rw [hCall, ok_bind, payload_sub]
    exact ⟨_, rfl, h.of_freed hb hPerm hFreed, .freed b rfl hPerm hFreed, hFreed.allocations,
      hFreed.frees, hFreed.failedAllocations⟩

theorem perform {request : Call} (h : c.Tracks r t)
    (hAllowed : Protocol.correct.allows c request) (hRoom : c.HasRoom t request) :
    ∃ c', c.perform request = .ok ((t.serve r request).1, c') ∧
      c'.Tracks r (t.serve r request).2 ∧
      Conducted r t (t.serve r request).2 c.store c'.store := by
  obtain ⟨c', hCall, hTracks, hConducted, -⟩ := h.perform_counted hAllowed hRoom
  exact ⟨c', hCall, hTracks, hConducted⟩

/-- A call that returned had room in its counter. -/
theorem hasRoom_of_perform {request : Call} {result : Answer × Client} (h : c.Tracks r t)
    (hCall : c.perform request = .ok result) : c.HasRoom t request := by
  cases request with
  | allocate size =>
    obtain ⟨outcome, hAllocate, -⟩ := bind_eq_ok_iff.mp hCall
    exact h.represents.hasRoom_of_allocate hAllocate
  | allocateZeroed size =>
    obtain ⟨outcome, hZeroed, -⟩ := bind_eq_ok_iff.mp hCall
    obtain ⟨first, hAllocate, -⟩ := bind_eq_ok_iff.mp hZeroed
    exact h.represents.hasRoom_of_allocate hAllocate
  | free p => trivial

end Tracks

section

variable {request : Call} {c₁ : Client} {p size : Nat}

/-- Allocations are allowed. -/
theorem allows_of_size (hSize : request.size? = some size) : Protocol.correct.allows c request := by
  cases request with
  | allocate n | allocateZeroed n => trivial
  | free q => exact absurd hSize (by simp [Call.size?])

/-- Who is granted a pointer holds it. -/
theorem live_of_granted (hCall : c.perform request = .ok (.allocated (.ok p), c₁)) :
    Protocol.correct.allows c request ∧ c₁.live = p :: c.live := by
  cases request with
  | allocate size | allocateZeroed size =>
    obtain ⟨⟨result, s'⟩, -, hOutcome⟩ := bind_eq_ok_iff.mp hCall
    obtain ⟨hAnswer, rfl⟩ := Prod.mk.inj (Except.ok.inj hOutcome)
    obtain rfl : result = .ok p := Answer.allocated.inj hAnswer
    exact ⟨trivial, rfl⟩
  | free q =>
    obtain ⟨outcome, -, hOutcome⟩ := bind_eq_ok_iff.mp hCall
    obtain ⟨hAnswer, -⟩ := Prod.mk.inj (Except.ok.inj hOutcome)
    exact absurd hAnswer (by simp)

/-- Who frees a pointer no longer holds it. -/
theorem live_of_freed (hCall : c.perform (.free p) = .ok (.freed (.ok ()), c₁)) :
    c₁.live = c.live.erase p := by
  obtain ⟨⟨result, s'⟩, -, hOutcome⟩ := bind_eq_ok_iff.mp hCall
  obtain ⟨hAnswer, rfl⟩ := Prod.mk.inj (Except.ok.inj hOutcome)
  obtain rfl : result = .ok () := Answer.freed.inj hAnswer
  rfl

/-- **An allocation that is granted** is the one that the tiling makes. -/
theorem Tracks.granted (h : c.Tracks r t)
    (hCall : c.perform request = .ok (.allocated (.ok p), c₁)) :
    ∃ size o t₁, request.size? = some size ∧ t.allocate size = some (o, t₁) ∧ r.payload o = p ∧
      c₁.Tracks r t₁ ∧ Conducted r t t₁ c.store c₁.store ∧
      (Answer.allocated (.ok p)).Counted c.store c₁.store := by
  obtain ⟨hAllowed, -⟩ := live_of_granted hCall
  obtain ⟨_, hCall', hTracks, hConducted, hCounted⟩ :=
    h.perform_counted hAllowed (h.hasRoom_of_perform hCall)
  obtain ⟨hAnswer, rfl⟩ := Prod.mk.inj (Except.ok.inj (hCall.symm.trans hCall'))
  obtain ⟨size, o, hSize, hAllocate, hPayload⟩ := Tiling.serve_granted hAnswer.symm
  rw [← hAnswer] at hCounted
  exact ⟨size, o, _, hSize, hAllocate, hPayload, hTracks, hConducted, hCounted⟩

end

/-- A client of a heap that was just set up. -/
theorem tracks_of_laidOut {config : Config} (h : Store.LaidOut r config s s') :
    Tracks ⟨s', []⟩ r (Tiling.initial r.size) where
  represents := h.represents
  live := List.Perm.refl []
  allocations := by
    show s'.heap.counters.allocations = s'.heap.counters.frees + 0
    rw [h.allocations, h.frees]
  allocations_lt := by
    show s'.heap.counters.allocations < Word.limit
    rw [h.allocations]
    decide

/-- A heap that was just set up has counted nothing. -/
theorem hasRoom_of_laidOut {config : Config} {request : Call} (h : Store.LaidOut r config s s') :
    HasRoom ⟨s', []⟩ (Tiling.initial r.size) request :=
  .of_counters (by rw [h.allocations]; decide) (by rw [h.failedAllocations]; decide)

end Client

namespace Conducted

/-- No call changes the configuration. -/
theorem config_eq (h : Conducted r t t' s s') : s'.heap.config = s.heap.config := by
  cases h with
  | allocated o size h => exact h.config
  | refused _ h => exact h.config
  | freed b _ _ h => exact h.config

/-- A call is counted once. -/
theorem counters_le (h : Conducted r t t' s s') :
    s'.heap.counters.allocations ≤ s.heap.counters.allocations + 1 ∧
      s'.heap.counters.failedAllocations ≤ s.heap.counters.failedAllocations + 1 := by
  cases h with
  | allocated o size h => exact ⟨h.allocations.le, by rw [h.failedAllocations]; omega⟩
  | refused _ h => exact ⟨by rw [h.allocations]; omega, h.failedAllocations.le⟩
  | freed b _ _ h => exact ⟨by rw [h.allocations]; omega, by rw [h.failedAllocations]; omega⟩

end Conducted

-- ---------------------------------------------------------------------------
-- Correct runs
-- ---------------------------------------------------------------------------

/-- The calls of a log, in order. -/
def requests (log : List Exchange) : List Call := log.map (·.request)

/-- The state of a tiling of the region after the calls of a log. -/
def Tiling.replay (r : Region) (log : List Exchange) : Tiling :=
  (Tiling.initial r.size).after r (requests log)

/-- How many answers of a log are of a kind. -/
def tally (kind : Answer → Bool) (log : List Exchange) : Nat := (log.map (·.answer)).countP kind

section

variable {kind : Answer → Bool} {log : List Exchange} {exchange : Exchange}

/-- A log is its requests and its answers. -/
theorem exchanges_eq (log : List Exchange) :
    log = List.zipWith Exchange.mk (requests log) (log.map (·.answer)) := by
  induction log with
  | nil => rfl
  | cons exchange rest ih => exact congrArg (exchange :: ·) ih

theorem length_requests (log : List Exchange) : (requests log).length = log.length :=
  List.length_map _

theorem requests_concat : requests (log ++ [exchange]) = requests log ++ [exchange.request] := by
  simp [requests]

theorem tally_concat :
    tally kind (log ++ [exchange]) = tally kind log + (kind exchange.answer).toNat := by
  unfold tally
  rw [List.map_append, List.countP_append, List.map_singleton, List.countP_singleton]
  cases kind exchange.answer <;> rfl

theorem tally_le : tally kind log ≤ log.length := by
  rw [← List.length_map (·.answer)]
  exact List.countP_le_length

end

namespace Client

variable {start start' : Client} {log : List Exchange}

/-- The exchanges of a log took a client that tracked `t` from `start` to where it is now: the
tiling has the same answers, and every call is counted. -/
structure Continues (start : Client) (r : Region) (t : Tiling) (log : List Exchange)
    (c : Client) : Prop where
  tracks : c.Tracks r (t.after r (requests log))
  answers : log.map (·.answer) = t.answers r (requests log)
  config : c.store.heap.config = start.store.heap.config
  allocations : c.store.heap.counters.allocations =
    start.store.heap.counters.allocations + tally Answer.isGranted log
  frees : c.store.heap.counters.frees =
    start.store.heap.counters.frees + tally Answer.isAccepted log
  failedAllocations : c.store.heap.counters.failedAllocations =
    start.store.heap.counters.failedAllocations + tally Answer.isRefused log

namespace Continues

theorem refl (h : start.Tracks r t) : start.Continues r t [] start :=
  ⟨h, rfl, rfl, rfl, rfl, rfl⟩

/-- One more correct call. -/
theorem call {request : Call} {answer : Answer} (h : start.Continues r t log c)
    (hAllowed : Protocol.correct.allows c request) (hCall : c.perform request = .ok (answer, c')) :
    start.Continues r t (log ++ [⟨request, answer⟩]) c' := by
  obtain ⟨c'', hCall', hTracks, hConducted, hCounted⟩ :=
    h.tracks.perform_counted hAllowed (h.tracks.hasRoom_of_perform hCall)
  -- a call has one outcome, so the answer in the log is the tiling's
  obtain ⟨rfl, rfl⟩ := Prod.mk.inj (Except.ok.inj (hCall.symm.trans hCall'))
  constructor
  · rw [requests_concat, Tiling.after_concat]
    exact hTracks
  · rw [requests_concat, Tiling.answers_concat, List.map_append, h.answers]
    rfl
  · exact hConducted.config_eq.trans h.config
  · rw [tally_concat, ← Nat.add_assoc, ← h.allocations]
    exact hCounted.allocations
  · rw [tally_concat, ← Nat.add_assoc, ← h.frees]
    exact hCounted.frees
  · rw [tally_concat, ← Nat.add_assoc, ← h.failedAllocations]
    exact hCounted.failedAllocations

/-- Memory can change as long as what the client tracks does not. -/
theorem of_memory {m : Memory} (h : start.Continues r t log c)
    (hTracks : (c.write m).Tracks r (t.after r (requests log))) :
    start.Continues r t log (c.write m) :=
  ⟨hTracks, h.answers, h.config, h.allocations, h.frees, h.failedAllocations⟩

end Continues

end Client

namespace Client.Run

variable {config : Config} {start start' : Client} {log log' : List Exchange} {P : Protocol}

/-- A run can be continued. -/
theorem append (h : Run P start log c) (h' : Run P c log' c') : Run P start (log ++ log') c' := by
  induction h' with
  | start _ => rwa [List.append_nil]
  | call _ hAllowed hCall hAdmits ih =>
    rw [← List.append_assoc]
    exact ih.call hAllowed hCall hAdmits
  | write _ hSame hAdmits ih => exact ih.write hSame hAdmits

/-- **A correct run** from anywhere stays in step with the tiling that answers the same calls. -/
theorem continues (hStart : start.Tracks r t) (hRun : Run .correct start log c) :
    start.Continues r t log c := by
  induction hRun with
  | start _ => exact .refl hStart
  | call _ hAllowed hCall _ ih => exact ih.call hAllowed hCall
  | write _ hSame _ ih => exact ih.of_memory (ih.tracks.write hSame)

/-- A correct run of a heap that was just set up stays in step with the initial tiling. -/
theorem tracks (hStart : Store.LaidOut r config s s') (hRun : Run .correct ⟨s', []⟩ log c) :
    c.Tracks r (Tiling.replay r log) ∧
      log.map (·.answer) = (Tiling.initial r.size).answers r (requests log) ∧
      c.store.heap.config = config ∧
      c.store.heap.counters.allocations ≤ log.length ∧
      c.store.heap.counters.failedAllocations ≤ log.length := by
  have h := hRun.continues (tracks_of_laidOut hStart)
  refine ⟨h.tracks, h.answers, h.config.trans hStart.config, ?_, ?_⟩
  · rw [h.allocations, hStart.allocations, Nat.zero_add]
    exact tally_le
  · rw [h.failedAllocations, hStart.failedAllocations, Nat.zero_add]
    exact tally_le

/-- **No call is stuck** in a correct run of fewer calls than a counter can count. -/
theorem progress {request : Call} (hStart : Store.LaidOut r config s s')
    (hRun : Run .correct ⟨s', []⟩ log c) (hAllowed : Protocol.correct.allows c request)
    (hCalls : log.length + 1 < Word.limit) :
    ∃ c', c.perform request = .ok (((Tiling.replay r log).serve r request).1, c') := by
  obtain ⟨hTracks, -, -, hAllocations, hFailed⟩ := tracks hStart hRun
  obtain ⟨c', hCall, -⟩ :=
    hTracks.perform hAllowed (HasRoom.of_counters (by omega) (by omega))
  exact ⟨c', hCall⟩

/-- **Whatever calls a tiling allows can be made** by a client that tracks it, as long as the
counters have room. -/
theorem resume (calls : List Call) : ∀ {c : Client} {t : Tiling}, c.Tracks r t →
    t.AllowsAll r calls →
    c.store.heap.counters.allocations + calls.length < Word.limit →
    c.store.heap.counters.failedAllocations + calls.length < Word.limit →
      ∃ log c', Run .correct c log c' ∧ requests log = calls := by
  induction calls with
  | nil => exact fun _ _ _ _ => ⟨[], _, .start trivial, rfl⟩
  | cons request rest ih =>
    intro c t h hAllows hAllocations hFailed
    rw [List.length_cons] at hAllocations hFailed
    -- what the tiling allows the client may do, and the rest follows from there
    have hAllowed := (h.allows_iff request).mpr hAllows.1
    obtain ⟨c', hCall, hTracks, hConducted⟩ :=
      h.perform hAllowed (HasRoom.of_counters (by omega) (by omega))
    have hLe := hConducted.counters_le
    obtain ⟨log, c'', hRun, hRequests⟩ := ih hTracks hAllows.2 (by omega) (by omega)
    refine ⟨_, c'', ((Run.start trivial).call hAllowed hCall trivial).append hRun, ?_⟩
    rw [← hRequests]
    rfl

/-- Calls that the tiling of a run allows extend the run. -/
theorem extend (hStart : Store.LaidOut r config s s') (calls : List Call)
    {log : List Exchange} {c : Client} (hRun : Run .correct ⟨s', []⟩ log c)
    (hAllows : (Tiling.replay r log).AllowsAll r calls)
    (hCalls : log.length + calls.length < Word.limit) :
    ∃ log' c', Run .correct ⟨s', []⟩ log' c' ∧ requests log' = requests log ++ calls := by
  obtain ⟨hTracks, -, -, hAllocations, hFailed⟩ := tracks hStart hRun
  obtain ⟨log', c', hRun', rfl⟩ := resume calls hTracks hAllows (by omega) (by omega)
  exact ⟨_, c', hRun.append hRun', List.map_append⟩

/-- A run counts no more refusals than a counter can hold. -/
theorem refusals_lt (hStart : start.Tracks r t) (hRun : Run .correct start log c) :
    tally Answer.isRefused log < Word.limit := by
  induction hRun with
  | start _ => exact Nat.two_pow_pos 64
  | @call log c c' request answer hRun hAllowed hCall _ ih =>
    have h := hRun.continues hStart
    have hFailed := h.failedAllocations
    have hRoom := h.tracks.hasRoom_of_perform hCall
    obtain ⟨c'', hCall', -⟩ := h.tracks.perform hAllowed hRoom
    obtain ⟨rfl, -⟩ := Prod.mk.inj (Except.ok.inj (hCall.symm.trans hCall'))
    rw [tally_concat]
    cases hRefused : ((t.after r (requests log)).serve r request).1.isRefused with
    | false => exact ih
    | true =>
      have := hRoom.of_refused hRefused
      show tally Answer.isRefused log + 1 < Word.limit
      omega
  | write _ _ _ ih => exact ih

/-- **What one client can do another can**: the log of a run is also the log of a run of every
other client that tracks the same tiling, if the calls fit into its counters. -/
theorem transfer (hStart : start.Tracks r t) (hStart' : start'.Tracks r t)
    (hRun : Run .correct start log c)
    (hAllocations : start'.store.heap.counters.allocations + tally Answer.isGranted log <
      Word.limit)
    (hFailed : start'.store.heap.counters.failedAllocations + tally Answer.isRefused log <
      Word.limit) :
    ∃ c', Run .correct start' log c' := by
  induction hRun with
  | start _ => exact ⟨start', .start trivial⟩
  | @call log c c₁ request answer hRun hAllowed hCall _ ih =>
    rw [tally_concat] at hAllocations hFailed
    obtain ⟨c', hRun'⟩ := ih (by omega) (by omega)
    have h := hRun.continues hStart
    have h' := hRun'.continues hStart'
    obtain ⟨_, hPerform, -⟩ := h.tracks.perform hAllowed (h.tracks.hasRoom_of_perform hCall)
    obtain ⟨rfl, -⟩ := Prod.mk.inj (Except.ok.inj (hCall.symm.trans hPerform))
    -- the other client tracks the same tiling, so it may make the call and has the same answer
    have hAllowed' := (h'.tracks.allows_iff request).mpr ((h.tracks.allows_iff request).mp hAllowed)
    have hAllocations' := h'.allocations
    have hFailed' := h'.failedAllocations
    obtain ⟨c₁', hCall', -⟩ := h'.tracks.perform hAllowed' <| HasRoom.of_answer
      (fun hGranted => by rw [hGranted, Bool.toNat_true] at hAllocations; omega)
      (fun hRefused => by rw [hRefused, Bool.toNat_true] at hFailed; omega)
    exact ⟨c₁', hRun'.call hAllowed' hCall' trivial⟩
  | write _ _ _ ih => exact ih hAllocations hFailed

end Client.Run

end RegionHeap
