import RegionHeap.Proofs.Boot
import RegionHeap.Proofs.Leases

/-!
# Blocks and payloads

A heap can be used in two ways at the same time: it is asked for blocks of any alignment, and it is
called for payloads. To its program a payload is a block that has all of its bytes, wherever it
lies, so what is known of blocks is known of payloads.

* `Lease.whole`: a payload as a block.
* `Errand`, `Program.attend`: a request for a block or a call for a payload.
* `Backed.attend`: each leaves every block backed, and writes inside the region only.
* `Program.Mixed`, `Mixed.backed`, `Mixed.progress`: any finite history of a correct program that
  does both.
-/

namespace RegionHeap

variable {r : Region} {s s' : Store} {t t' : Tiling} {o size : Nat}
variable {heap : SharedHeap} {p p' start : Program}

/-- The payload at `pointer` as a block. -/
def Lease.whole (s : Store) (pointer : Nat) : Lease where
  address := pointer
  layout :=
    { size :=
        match s.usableSize pointer with
        | .ok (.ok n) => n
        | _ => 0
      align := 1 }
  raw := pointer

/-- What a program may want of a heap. -/
inductive Errand
  | block (demand : Demand)
  | payload (call : Call)
  deriving DecidableEq, Repr

namespace Program

/-- What a correct program may want: a pointer that it frees is that of a payload which it holds
as a block. -/
def Permits (p : Program) : Errand → Prop
  | .block demand => p.Allows demand
  | .payload (.allocate _) | .payload (.allocateZeroed _) => True
  | .payload (.free pointer) => ∃ l ∈ p.leases, l.address = pointer ∧ l.raw = pointer

/-- The program takes note of what a call for a payload returns. -/
def received (p : Program) (outcome : Except HeapError Nat × SharedHeap) : Program :=
  match outcome.1 with
  | .ok pointer => p.hold outcome.2 (.whole outcome.2.store pointer) fun _ => none
  | .error _ => { p with heap := outcome.2 }

/-- The program takes note of whether a payload was freed. -/
def returned (p : Program) (pointer : Nat) (outcome : Except HeapError Unit × SharedHeap) :
    Program :=
  match outcome.1 with
  | .ok () => p.lose outcome.2 pointer
  | .error _ => { p with heap := outcome.2 }

/-- One call of the heap. -/
def call (p : Program) : Call → Checked Program
  | .allocate size => return p.received (← p.heap.withStore (·.allocate size))
  | .allocateZeroed size => return p.received (← p.heap.withStore (·.allocateZeroed size))
  | .free pointer => return p.returned pointer (← p.heap.withStore (·.free pointer))

/-- One errand. -/
def attend (p : Program) : Errand → Checked Program
  | .block demand => return (← p.perform demand).2
  | .payload request => p.call request

/-- Any finite history of a correct program that asks for blocks and for payloads, and writes into
what it was given. -/
inductive Mixed (start : Program) : List Errand → Program → Prop
  | start : Mixed start [] start
  | attend {log : List Errand} {p p' : Program} {errand : Errand} :
      Mixed start log p → p.Permits errand → p.attend errand = .ok p' →
        Mixed start (log ++ [errand]) p'
  | write {log : List Errand} {p : Program} {m : Memory} {written : Nat → Option UInt8} :
      Mixed start log p → p.Writes m written →
        Mixed start log (p.write m fun x => (written x).or (p.known x))

/-- There is room in the counters for an errand. -/
def HasRoomFor (p : Program) (t : Tiling) : Errand → Prop
  | .block demand => p.HasRoom t demand
  | .payload request => p.client.HasRoom t request

namespace Backed

-- ---------------------------------------------------------------------------
-- Calls
-- ---------------------------------------------------------------------------

/-- A payload that was handed out is a block in no other's way. -/
theorem hold_whole (h : p.Backed r t)
    (hAllocated : Store.Allocated r t t' o size p.heap.store heap.store)
    (hCount : heap.store.heap.counters.allocations < Word.limit) :
    (p.hold heap (.whole heap.store (r.payload o)) fun _ => none).Backed r t' := by
  obtain ⟨d, rfl, hSize, hPerm⟩ := hAllocated.used
  have hd : d ∈ t'.used := hPerm.mem_iff.mpr List.mem_cons_self
  have hInside := hAllocated.represents.payload_inside hd
  have hStop := r.stop_lt
  have hWhole : Lease.whole heap.store (r.payload d.offset) =
      ⟨r.payload d.offset, ⟨d.size, 1⟩, r.payload d.offset⟩ := by
    unfold Lease.whole
    rw [hAllocated.represents.usableSize hd]
  rw [hWhole]
  refine h.held hAllocated hCount rfl (fun c hc hOffset _ => ?_) ?_ rfl
  · obtain rfl := hAllocated.represents.eq_of_offset hc hd hOffset
    exact Nat.le_refl _
  · refine ⟨?_, Nat.mod_one _, hAllocated.represents.payload_aligned hd, Nat.le_refl _,
      Nat.le_refl _, fun _ => rfl, fun hFits => ?_⟩
    · show r.payload d.offset < Word.limit
      unfold Region.stop at hInside
      omega
    · exact absurd hFits (by simp [Layout.fitsPayload, Word.alignment])

/-- **Calling for a payload**: it is refused and nothing changes, or it is held from then on. -/
theorem receive {f : Store → Checked (Outcome Nat)} (h : p.Backed r t)
    (hCount : p.heap.store.HasRoom t size)
    (hServed : (∃ e s', f p.heap.store = .ok (.error e, s') ∧ Store.Refused r t p.heap.store s') ∨
      ∃ o t' s', t.allocate size ≠ none ∧ f p.heap.store = .ok (.ok (r.payload o), s') ∧
        Store.Allocated r t t' o size p.heap.store s') :
    ∃ p', (do return p.received (← p.heap.withStore f)) = Except.ok p' ∧
      (∃ t', p'.Backed r t') ∧ Store.Steps r p.heap.store p'.heap.store := by
  rcases hServed with ⟨e, s', hCall, hRefused⟩ | ⟨o, t', s', hSome, hCall, hAllocated⟩
  · rw [SharedHeap.withStore_eq hCall, ok_bind]
    exact ⟨_, rfl, ⟨t, h.refused hRefused⟩, (Conducted.refused rfl hRefused).steps⟩
  · have hAllocations : s'.heap.counters.allocations < Word.limit := by
      rw [hAllocated.allocations]
      exact hCount.1 hSome
    rw [SharedHeap.withStore_eq hCall, ok_bind]
    exact ⟨_, rfl, ⟨t', h.hold_whole hAllocated hAllocations⟩,
      (Conducted.allocated o size hAllocated).steps⟩

/-- **A correct call** leaves every block backed. -/
theorem call {request : Call} (h : p.Backed r t) (hPermits : p.Permits (.payload request))
    (hRoom : p.client.HasRoom t request) :
    ∃ p', p.call request = .ok p' ∧ (∃ t', p'.Backed r t') ∧
      Store.Steps r p.heap.store p'.heap.store := by
  cases request with
  | allocate size =>
    refine h.receive (f := (·.allocate size)) hRoom ?_
    rcases h.represents.allocate hRoom with
      ⟨-, s', hCall, hRefused⟩ | ⟨o, t', s', hSome, hCall, hAllocated, -⟩
    · exact Or.inl ⟨_, s', hCall, hRefused⟩
    · exact Or.inr ⟨o, t', s', by simp [hSome], hCall, hAllocated⟩
  | allocateZeroed size =>
    refine h.receive (f := (·.allocateZeroed size)) hRoom ?_
    rcases h.represents.allocateZeroed hRoom with
      ⟨-, s', hCall, hRefused⟩ | ⟨o, t', s', hSome, hCall, hAllocated, -⟩
    · exact Or.inl ⟨_, s', hCall, hRefused⟩
    · exact Or.inr ⟨o, t', s', by simp [hSome], hCall, hAllocated⟩
  | free pointer =>
    obtain ⟨l, hl, rfl, hRaw⟩ := hPermits
    obtain ⟨b, s', -, -, hFree, -, hPerm, hFreed, hBacked⟩ := h.dealloc hl .silent
    rw [hRaw] at hFree
    refine ⟨p.lose { p.heap with store := s' } l.address, ?_, ⟨_, hBacked⟩,
      (Conducted.freed b rfl hPerm hFreed).steps⟩
    unfold Program.call
    simp only
    rw [SharedHeap.withStore_eq hFree, ok_bind]
    rfl

-- ---------------------------------------------------------------------------
-- Errands
-- ---------------------------------------------------------------------------

/-- An errand that returned had room in its counter. -/
theorem hasRoomFor {errand : Errand} (h : p.Backed r t) (hPermits : p.Permits errand)
    (hCall : p.attend errand = .ok p') : p.HasRoomFor t errand := by
  cases errand with
  | block demand =>
    obtain ⟨result, hPerform, -⟩ := bind_eq_ok_iff.mp hCall
    exact h.hasRoom hPermits hPerform
  | payload request =>
    cases request with
    | allocate size =>
      obtain ⟨_, hStore, -⟩ := bind_eq_ok_iff.mp hCall
      obtain ⟨_, hAllocate, -⟩ := SharedHeap.withStore_eq_ok_iff.mp hStore
      exact h.represents.hasRoom_of_allocate hAllocate
    | allocateZeroed size =>
      obtain ⟨_, hStore, -⟩ := bind_eq_ok_iff.mp hCall
      obtain ⟨_, hZeroed, -⟩ := SharedHeap.withStore_eq_ok_iff.mp hStore
      obtain ⟨_, hAllocate, -⟩ := bind_eq_ok_iff.mp hZeroed
      exact h.represents.hasRoom_of_allocate hAllocate
    | free pointer => trivial

/-- **A correct errand** returns, leaves every block backed, and writes inside the region only. -/
theorem attend {errand : Errand} (h : p.Backed r t) (hPermits : p.Permits errand)
    (hRoom : p.HasRoomFor t errand) :
    ∃ p', p.attend errand = .ok p' ∧ (∃ t', p'.Backed r t') ∧
      Store.Steps r p.heap.store p'.heap.store := by
  cases errand with
  | block demand =>
    obtain ⟨address, p', hCall, hBacked, hSteps, -⟩ := h.perform hPermits hRoom
    refine ⟨p', ?_, hBacked, hSteps⟩
    unfold Program.attend
    simp only
    rw [hCall, ok_bind]
    rfl
  | payload request => exact h.call hPermits hRoom

/-- Writing into blocks is writing inside the region. -/
theorem byte_outside_of_writes {m : Memory} {written : Nat → Option UInt8} (h : p.Backed r t)
    (hWrites : p.Writes m written) {x : Nat} (hx : x < r.base ∨ r.stop ≤ x) :
    m.byte x = p.memory.byte x := by
  refine hWrites.byte_of_not_holds ?_
  rintro ⟨l, hl, hFrom, hTo⟩
  have := h.inside hl
  omega

end Backed

theorem HasRoomFor.of_counters {errand : Errand}
    (hAllocations : p.heap.store.heap.counters.allocations + 1 < Word.limit)
    (hFailed : p.heap.store.heap.counters.failedAllocations + 1 < Word.limit) :
    p.HasRoomFor t errand := by
  cases errand with
  | block demand => exact HasRoom.of_counters hAllocations hFailed
  | payload request => exact Client.HasRoom.of_counters hAllocations hFailed

-- ---------------------------------------------------------------------------
-- Runs
-- ---------------------------------------------------------------------------

namespace Mixed

variable {config : Config} {log : List Errand}

/-- **In every run every block is backed**, each errand was counted once, and nothing was ever
written outside the region. -/
theorem backed (hStart : Store.LaidOut r config s heap.store) (hRun : Mixed (.fresh heap) log p) :
    (∃ t, p.Backed r t) ∧ p.heap.store.heap.counters.allocations ≤ log.length ∧
      p.heap.store.heap.counters.failedAllocations ≤ log.length ∧
      ∀ x, x < r.base ∨ r.stop ≤ x → p.memory.byte x = s.memory.byte x := by
  induction hRun with
  | start =>
    exact ⟨⟨_, .fresh hStart⟩, hStart.allocations.le, hStart.failedAllocations.le,
      fun _ hx => hStart.edits.byte_outside hx⟩
  | @attend log p p' errand _ hPermits hCall ih =>
    obtain ⟨⟨t, hBacked⟩, hAllocations, hFailed, hOutside⟩ := ih
    obtain ⟨p'', hCall', hBacked', hCounts, hSame, -⟩ :=
      hBacked.attend hPermits (hBacked.hasRoomFor hPermits hCall)
    obtain rfl := Except.ok.inj (hCall.symm.trans hCall')
    unfold Store.CountsOne at hCounts
    rw [List.length_append, List.length_singleton]
    exact ⟨hBacked', by omega, by omega, fun x hx => (hSame x hx).trans (hOutside x hx)⟩
  | @write log p m written _ hWrites ih =>
    obtain ⟨⟨t, hBacked⟩, hAllocations, hFailed, hOutside⟩ := ih
    exact ⟨⟨t, hBacked.writes hWrites⟩, hAllocations, hFailed,
      fun x hx => (hBacked.byte_outside_of_writes hWrites hx).trans (hOutside x hx)⟩

/-- The configuration is that of the heap that was set up. -/
theorem config_eq (hStart : Store.LaidOut r config s heap.store)
    (hRun : Mixed (.fresh heap) log p) : p.heap.store.heap.config = config := by
  induction hRun with
  | start => exact hStart.config
  | attend hRun hPermits hCall ih =>
    obtain ⟨⟨t, hBacked⟩, -⟩ := backed hStart hRun
    obtain ⟨p'', hCall', -, hSteps⟩ :=
      hBacked.attend hPermits (hBacked.hasRoomFor hPermits hCall)
    obtain rfl := Except.ok.inj (hCall.symm.trans hCall')
    exact hSteps.config.trans ih
  | write _ _ ih => exact ih

/-- **No errand is stuck** in a run of fewer errands than a counter can count. -/
theorem progress {errand : Errand} (hStart : Store.LaidOut r config s heap.store)
    (hRun : Mixed (.fresh heap) log p) (hPermits : p.Permits errand)
    (hCalls : log.length + 1 < Word.limit) : ∃ p', p.attend errand = .ok p' := by
  obtain ⟨⟨t, hBacked⟩, hAllocations, hFailed, -⟩ := backed hStart hRun
  obtain ⟨p', hCall, -⟩ :=
    hBacked.attend hPermits (HasRoomFor.of_counters (by omega) (by omega))
  exact ⟨p', hCall⟩

end Mixed

end Program

end RegionHeap
