import RegionHeap.Proofs.Errands
import RegionHeap.Proofs.Remnants

/-!
# Reports

A heap that refuses a request tells a logger, and before it returns the logger may use the heap: it
asks for blocks, which may be refused as well, and gives blocks back. While it does so it is told of
nothing, so a request is reported at most once, and a report is never inside another. All this
happens after the heap has given its lock back: inside the lock, the first call of the logger that
asks the heap for anything would not come back.

* `Store.refusal?`: what there is to report of a request.
* `GuardedHeap.serve_eq`, `SharedHeap.serve_eq`: a request, and then the calls of the logger, one
  after the other.
* `GuardedHeap.Reports`: how a refusal is reported, and how each of those calls finds the lock.
* `Program.Idle`: a heap without a region refuses everything, and nothing comes of it.
* `Mixed.remembers_last`: a payload that was just given back is remembered as freed.
* `Program.Reached`: a heap in correct use, with or without a region.
* `Reached.serve`, `Reached.serveAll`: a correct request, and any number of them.
* `Program.Asks`, `Asks.attempt`: what may be asked at the top.
* `serve_reports_once`: what becomes of a heap and its journal, whoever listens.
-/

namespace RegionHeap

variable {r : Region} {s s' : Store} {t : Tiling} {l : Lease} {layout : Layout} {address : Nat}
variable {request : Request} {requests : List Request} {a : Attempt} {heap : SharedHeap}
variable {p p' : Program} {log : List Errand} {wanted : Errand} {config : Config}

-- ---------------------------------------------------------------------------
-- Refusals
-- ---------------------------------------------------------------------------

namespace Store

/-- What there is to report of a request: that the heap does not allocate, or does not free. -/
def refusal? (s : Store) : Request → Option Event
  | .alloc layout =>
    match s.allocate layout.request with
    | .ok (.error e, _) => some (.allocationFailed layout.size layout.align e)
    | _ => none
  | .dealloc address layout =>
    match s.free (s.rawAddress address layout) with
    | .ok (.error e, _) => some (.freeRejected (s.rawAddress address layout) layout.size e)
    | _ => none

/-- Does what requests ask for, one after the other. -/
def attemptAll (s : Store) (requests : List Request) : Checked Store :=
  requests.foldlM (fun s request => return (← s.attempt request).store) s

/-- A valid layout is complained of if the heap does not allocate. -/
theorem complaint_alloc (hValid : layout.Valid) (h : s.attempt (.alloc layout) = .ok a) :
    a.complaint = s.refusal? (.alloc layout) := by
  rw [attempt_alloc hValid] at h
  obtain ⟨⟨answer, s'⟩, hAllocate, h⟩ := bind_eq_ok_iff.mp h
  unfold refusal?
  simp only [hAllocate]
  cases answer with
  | error e =>
    obtain rfl := Except.ok.inj h
    rfl
  | ok raw =>
    obtain ⟨placed, -, h⟩ := bind_eq_ok_iff.mp h
    obtain rfl := Except.ok.inj h
    rfl

/-- A pointer is complained of if the heap does not free it. -/
theorem complaint_dealloc (hAddress : address ≠ null) (hRaw : s.rawAddress address layout ≠ null)
    (h : s.attempt (.dealloc address layout) = .ok a) :
    a.complaint = s.refusal? (.dealloc address layout) := by
  rw [attempt_dealloc hAddress rfl hRaw] at h
  obtain ⟨⟨answer, s'⟩, hFree, h⟩ := bind_eq_ok_iff.mp h
  unfold refusal?
  simp only [hFree]
  cases answer with
  | error e =>
    obtain rfl := Except.ok.inj h
    rfl
  | ok _ =>
    obtain rfl := Except.ok.inj h
    rfl

end Store

-- ---------------------------------------------------------------------------
-- Serving with a logger
-- ---------------------------------------------------------------------------

namespace GuardedHeap

variable {report : Event → GuardedHeap → Checked GuardedHeap}

/-- While a report is going on, a request does to the store what it attempts, and nothing else. -/
theorem serveWith_reporting (hReporting : heap.reporting = true) :
    serveWith report ⟨heap, false⟩ request = (do
      let a ← heap.store.attempt request
      return (a.address, ⟨{ heap with store := a.store }, false⟩)) := by
  rw [serveWith_free]
  refine bind_congr fun a => ?_
  cases hComplaint : a.complaint with
  | none => rfl
  | some event => exact if_pos hReporting

/-- So do the calls of the logger. -/
theorem serveAllWith_reporting (requests : List Request) :
    ∀ {heap : SharedHeap}, heap.reporting = true →
      serveAllWith report ⟨heap, false⟩ requests = (do
        let store ← heap.store.attemptAll requests
        return ⟨{ heap with store := store }, false⟩) := by
  induction requests with
  | nil => exact fun _ => rfl
  | cons request rest ih =>
    intro heap hReporting
    unfold serveAllWith Store.attemptAll
    rw [List.foldlM_cons, List.foldlM_cons, serveWith_reporting hReporting]
    cases hAttempt : heap.store.attempt request with
    | error e => rfl
    | ok a => exact ih hReporting

/-- **A refusal is reported** with the lock free, and it is free again when that is over. -/
theorem report_free (logger : Logger) (nesting : Nat) (event : Event) (heap : SharedHeap) :
    GuardedHeap.report logger (nesting + 1) event ⟨heap, false⟩ = (do
      let store ← heap.store.attemptAll (logger event)
      return ⟨⟨store, false, heap.journal ++ [event]⟩, false⟩) := by
  unfold GuardedHeap.report startReport
  -- whatever would be done about a refusal of these calls is never asked for
  rw [serveAllWith_reporting _ rfl, bind_assoc]
  rfl

/-- **A request is served**: it is attempted, a refusal is entered into the journal, and then the
calls that the logger makes on it are attempted. -/
theorem serve_eq (logger : Logger) (nesting : Nat) (hQuiet : heap.reporting = false) :
    serve logger (nesting + 1) ⟨heap, false⟩ request = (do
      let a ← heap.store.attempt request
      let store ← a.store.attemptAll (a.complaint.elim [] logger)
      return (a.address, ⟨⟨store, false, heap.journal ++ a.complaint.toList⟩, false⟩)) := by
  unfold serve
  rw [serveWith_free]
  refine bind_congr fun a => ?_
  cases hComplaint : a.complaint with
  | none =>
    simp only [Option.elim, Option.toList, List.append_nil]
    rw [← hQuiet]
    rfl
  | some event =>
    simp only [hQuiet, Bool.false_eq_true, if_false]
    rw [report_free, bind_assoc]
    rfl

/-- The calls that a logger makes, one after the other. Each finds the lock free while a report is
going on, and comes back with the lock free and nothing in the journal. -/
inductive Calls (logger : Logger) (nesting : Nat) :
    SharedHeap → List Request → SharedHeap → Prop
  | none {heap : SharedHeap} : Calls logger nesting heap [] heap
  | next {heap heap' last : SharedHeap} {request : Request} {rest : List Request} {address : Nat} :
      heap.reporting = true →
      serve logger nesting ⟨heap, false⟩ request = .ok (address, ⟨heap', false⟩) →
      heap'.journal = heap.journal → Calls logger nesting heap' rest last →
        Calls logger nesting heap (request :: rest) last

/-- Requests that are attempted while a report is going on are such calls. -/
theorem Calls.of_attemptAll (logger : Logger) (nesting : Nat) (requests : List Request) :
    ∀ {heap : SharedHeap} {store : Store}, heap.reporting = true →
      heap.store.attemptAll requests = .ok store →
        Calls logger nesting heap requests { heap with store := store } := by
  induction requests with
  | nil =>
    intro heap store _ hAll
    obtain rfl := Except.ok.inj hAll
    exact .none
  | cons request rest ih =>
    intro heap store hReporting hAll
    unfold Store.attemptAll at hAll
    rw [List.foldlM_cons] at hAll
    obtain ⟨first, hFirst, hRest⟩ := bind_eq_ok_iff.mp hAll
    obtain ⟨a, hAttempt, hStore⟩ := bind_eq_ok_iff.mp hFirst
    obtain rfl := Except.ok.inj hStore
    have hServe : serve logger nesting ⟨heap, false⟩ request =
        .ok (a.address, ⟨{ heap with store := a.store }, false⟩) := by
      unfold serve
      rw [serveWith_reporting hReporting, hAttempt]
      rfl
    exact .next hReporting hServe rfl (@ih { heap with store := a.store } store hReporting hRest)

/-- How a request that the heap refused is reported. The lock was given back before, and it is free
whenever the logger uses the heap. -/
structure Reports (logger : Logger) (nesting : Nat) (heap : SharedHeap) (request : Request)
    (a : Attempt) (event : Event) (heap' : SharedHeap) : Prop where
  /-- The report starts after the attempt, with the lock free. -/
  unlocked : serve logger (nesting + 1) ⟨heap, false⟩ request = (do
    let g ← GuardedHeap.report logger (nesting + 1) event ⟨{ heap with store := a.store }, false⟩
    return (a.address, g))
  /-- The logger makes its calls while the event is the last in the journal, and comes back. -/
  calls : Calls logger nesting ⟨a.store, true, heap.journal ++ [event]⟩ (logger event)
    { heap' with reporting := true }

/-- **A refusal is reported** so if the heap can do what the logger asks for. -/
theorem reports_of_attempt {event : Event} {store : Store} (logger : Logger) (nesting : Nat)
    (hQuiet : heap.reporting = false) (hAttempt : heap.store.attempt request = .ok a)
    (hComplaint : a.complaint = some event)
    (hAll : a.store.attemptAll (logger event) = .ok store) :
    Reports logger nesting heap request a event ⟨store, false, heap.journal ++ [event]⟩ where
  unlocked := by
    unfold serve
    rw [serveWith_free, hAttempt, ok_bind]
    simp only [hComplaint, hQuiet, Bool.false_eq_true, if_false]
  calls := .of_attemptAll logger nesting _ rfl hAll

end GuardedHeap

namespace SharedHeap

/-- While a report is going on, a request from outside is not reported either. -/
theorem serve_reporting (logger : Logger) (nesting : Nat) (hReporting : heap.reporting = true)
    (hAttempt : heap.store.attempt request = .ok a) :
    serve logger nesting heap request = .ok (a.address, { heap with store := a.store }) := by
  refine call_eq_ok_iff.mpr ?_
  unfold GuardedHeap.serve
  rw [GuardedHeap.serveWith_reporting hReporting, hAttempt]
  rfl

/-- **A request from outside** is served, and the lock does not show in it. -/
theorem serve_eq (logger : Logger) (nesting : Nat) (hQuiet : heap.reporting = false) :
    serve logger (nesting + 1) heap request = (do
      let a ← heap.store.attempt request
      let store ← a.store.attemptAll (a.complaint.elim [] logger)
      return (a.address, ⟨store, false, heap.journal ++ a.complaint.toList⟩)) := by
  unfold serve call
  simp only [GuardedHeap.serve_eq logger nesting hQuiet, bind_assoc, pure_bind]
  rfl

end SharedHeap

-- ---------------------------------------------------------------------------
-- Requests of a program
-- ---------------------------------------------------------------------------

/-- A request as a program makes it. -/
def Request.demand : Request → Demand
  | .alloc layout => .alloc layout
  | .dealloc address layout => .dealloc address layout

/-- A request as an errand. -/
def Request.errand (request : Request) : Errand := .block request.demand

namespace Program

/-- The program when a request was served; it takes no note of one that it may not make. -/
def served (p : Program) (request : Request) : Program :=
  if p.Allows request.demand then
    match p.perform request.demand with
    | .ok (_, p') => p'
    | .error _ => p
  else p

/-- The program when requests were served. -/
def servedAll (p : Program) (requests : List Request) : Program := requests.foldl served p

/-- A correct program may make these requests, one after the other. -/
def AllowsAll (p : Program) : List Request → Prop
  | [] => True
  | request :: rest => p.Allows request.demand ∧ (p.served request).AllowsAll rest

instance decidableAllowsAll :
    (requests : List Request) → (p : Program) → Decidable (p.AllowsAll requests)
  | [], _ => isTrue trivial
  | _ :: rest, p =>
    have := decidableAllowsAll rest
    inferInstanceAs (Decidable (p.Allows _ ∧ _))

/-- The store of a program that was answered is what the request made of it. -/
theorem attempt_of_perform (h : p.perform request.demand = .ok (address, p')) :
    ∃ a, p.heap.store.attempt request = .ok a ∧ a.store = p'.heap.store := by
  have hServed : ∀ {result : Nat × SharedHeap},
      SharedHeap.serve .silent SharedHeap.nestingLimit p.heap request = .ok result →
      ∃ a, p.heap.store.attempt request = .ok a ∧ a.store = result.2.store := by
    intro result hServe
    obtain ⟨a, hAttempt⟩ := SharedHeap.attempt_of_serve hServe
    obtain ⟨heap, hServe', hStore⟩ := SharedHeap.serve_silent hAttempt
    obtain rfl := Except.ok.inj (hServe.symm.trans hServe')
    exact ⟨a, hAttempt, hStore.symm⟩
  cases request with
  | alloc layout =>
    obtain ⟨result, hAlloc, hResult⟩ := bind_eq_ok_iff.mp h
    obtain ⟨rfl, rfl⟩ := Prod.mk.inj (Except.ok.inj hResult)
    obtain ⟨a, hAttempt, hStore⟩ := hServed hAlloc
    refine ⟨a, hAttempt, hStore.trans ?_⟩
    unfold gain
    split <;> rfl
  | dealloc address layout =>
    obtain ⟨heap, hDealloc, hResult⟩ := bind_eq_ok_iff.mp h
    obtain ⟨-, rfl⟩ := Prod.mk.inj (Except.ok.inj hResult)
    obtain ⟨result, hServe, hHeap⟩ := bind_eq_ok_iff.mp hDealloc
    obtain rfl := Except.ok.inj hHeap
    exact hServed hServe

-- ---------------------------------------------------------------------------
-- Heaps without a region
-- ---------------------------------------------------------------------------

/-- There is no region, and so there are no blocks. -/
structure Idle (p : Program) : Prop where
  region : p.heap.store.heap.region = none
  leases : p.leases = []

namespace Idle

theorem allocate (h : p.Idle) (size : Nat) :
    p.heap.store.allocate size = .ok (.error .notInitialized, p.heap.store) := by
  unfold Store.allocate
  simp only [h.region]
  rfl

theorem alloc (h : p.Idle) (hValid : layout.Valid) :
    ∃ heap, p.heap.alloc .silent layout = .ok (null, heap) ∧ heap.store = p.heap.store := by
  have hAttempt : p.heap.store.attempt (.alloc layout) =
      .ok ⟨null, some (.allocationFailed layout.size layout.align .notInitialized),
        p.heap.store⟩ := by
    refine (Store.attempt_alloc hValid _).trans ?_
    rw [h.allocate, ok_bind]
    rfl
  exact SharedHeap.serve_silent hAttempt

/-- **Errands** to a heap without a region are refused. -/
theorem attend (h : p.Idle) (hPermits : p.Permits wanted) :
    ∃ p', p.attend wanted = .ok p' ∧ p'.Idle := by
  have hNone : ∀ {l : Lease}, l ∉ p.leases := by simp [h.leases]
  have hRefused : ∀ {heap : SharedHeap}, heap.store = p.heap.store →
      Idle { p with heap := heap } := fun hStore => ⟨hStore ▸ h.region, h.leases⟩
  cases wanted with
  | block demand =>
    cases demand with
    | alloc layout =>
      obtain ⟨heap, hAlloc, hStore⟩ := h.alloc hPermits
      refine ⟨{ p with heap := heap }, ?_, hRefused hStore⟩
      unfold Program.attend perform
      simp only
      rw [hAlloc]
      rfl
    | allocZeroed layout =>
      obtain ⟨heap, hAlloc, hStore⟩ := h.alloc hPermits
      refine ⟨{ p with heap := heap }, ?_, hRefused hStore⟩
      unfold Program.attend perform SharedHeap.allocZeroed
      simp only
      rw [hAlloc]
      rfl
    | realloc address layout newSize =>
      obtain ⟨⟨l, hl, -⟩, -⟩ := hPermits
      exact absurd hl hNone
    | dealloc address layout =>
      obtain ⟨l, hl, -⟩ := hPermits
      exact absurd hl hNone
  | payload request =>
    cases request with
    | allocate size =>
      refine ⟨{ p with heap := p.heap }, ?_, hRefused rfl⟩
      unfold Program.attend call
      simp only
      rw [SharedHeap.withStore_eq (h.allocate size)]
      rfl
    | allocateZeroed size =>
      refine ⟨{ p with heap := p.heap }, ?_, hRefused rfl⟩
      have hZeroed : p.heap.store.allocateZeroed size =
          .ok (.error .notInitialized, p.heap.store) := by
        unfold Store.allocateZeroed
        rw [h.allocate, ok_bind]
        rfl
      unfold Program.attend call
      simp only
      rw [SharedHeap.withStore_eq hZeroed]
      rfl
    | free pointer =>
      obtain ⟨l, hl, -⟩ := hPermits
      exact absurd hl hNone

end Idle

-- ---------------------------------------------------------------------------
-- Blocks that were just given back
-- ---------------------------------------------------------------------------

end Program

/-- The errand gives the block at `address` back. -/
def Errand.GivesBack (address : Nat) (layout : Layout) : Errand → Prop
  | .block (.dealloc old given) | .block (.realloc old given _) => old = address ∧ given = layout
  | .payload (.free pointer) => pointer = address
  | _ => False

namespace Program

/-- The last errand gave the block at `address` back, which is a payload. -/
structure JustReturned (p : Program) (log : List Errand) (address : Nat) (layout : Layout) :
    Prop where
  last : ∃ last, log.getLast? = some last ∧ last.GivesBack address layout
  fits : layout.fitsPayload = true
  gone : ∀ l ∈ p.leases, l.address ≠ address

/-- The pointer is that of no block, and its header says that its chunk was freed. -/
def Remembers (p : Program) (address : Nat) : Prop :=
  ∃ r t o, r.payload o = address ∧ p.Backed r t ∧ p.heap.store.Remembers r t o

namespace Backed

/-- **Giving a block back** leaves the header of its payload as that of a freed chunk. -/
theorem remembers_dealloc (h : p.Backed r t) (hl : l ∈ p.leases) :
    ∃ s', p.heap.store.free l.raw = .ok (.ok (), s') ∧
      p.heap.dealloc .silent l.address l.layout = .ok { p.heap with store := s' } ∧
      (p.lose { p.heap with store := s' } l.address).Remembers l.raw := by
  obtain ⟨b, s', hb, hRaw, hFree, hDealloc, -, hFreed, hBacked⟩ := h.dealloc hl .silent
  refine ⟨s', hFree, hDealloc, r, _, b.offset, hRaw.symm, hBacked, ?_⟩
  rw [hRaw] at hFree
  exact h.represents.remembers_freed hb hFree hFreed

/-- A block that every payload is aligned enough for is a payload. -/
theorem raw_eq_address (h : p.Backed r t) (hl : l ∈ p.leases)
    (hFits : l.layout.fitsPayload = true) : l.raw = l.address := by
  obtain ⟨b, -, hLodged⟩ := h.lodged l hl
  exact (hLodged.placed.whole hFits).symm

/-- **An errand** that gives a payload back leaves its header so. -/
theorem remembers_attend (h : p.Backed r t) (hPermits : p.Permits wanted)
    (hCall : p.attend wanted = .ok p') (hGives : wanted.GivesBack address layout)
    (hFits : layout.fitsPayload = true) (hGone : ∀ l ∈ p'.leases, l.address ≠ address) :
    p'.Remembers address := by
  have hRoom := h.hasRoomFor hPermits hCall
  cases wanted with
  | block demand =>
    obtain ⟨result, hPerform, hResult⟩ := bind_eq_ok_iff.mp hCall
    obtain rfl := Except.ok.inj hResult
    cases demand with
    | alloc given | allocZeroed given => exact hGives.elim
    | dealloc old given =>
      obtain ⟨rfl, rfl⟩ := hGives
      obtain ⟨l, hl, rfl, rfl⟩ := hPermits
      obtain ⟨s', -, hDealloc, hRemembers⟩ := h.remembers_dealloc hl
      obtain ⟨heap, hDealloc', hLost⟩ := bind_eq_ok_iff.mp hPerform
      obtain rfl := Except.ok.inj (hDealloc.symm.trans hDealloc')
      obtain rfl := Except.ok.inj hLost
      rwa [h.raw_eq_address hl hFits] at hRemembers
    | realloc old given newSize =>
      obtain ⟨rfl, rfl⟩ := hGives
      obtain ⟨⟨l, hl, rfl, rfl⟩, hValid⟩ := hPermits
      obtain ⟨⟨fresh, heap⟩, hMoved, hResult⟩ := bind_eq_ok_iff.mp hPerform
      rcases h.copied hl hValid hRoom with
        ⟨heap', hCall', -⟩ | ⟨fresh', copy, t', hNull, -, hl', hCopied, -, hMoves⟩
      · -- the block stayed where it was
        obtain ⟨rfl, rfl⟩ := Prod.mk.inj (Except.ok.inj (hMoved.symm.trans hCall'))
        obtain rfl := Except.ok.inj hResult
        exact absurd rfl (hGone l hl)
      · obtain ⟨s', -, hDealloc, hRemembers⟩ := hCopied.remembers_dealloc hl'
        obtain ⟨hCall', hSame⟩ := hMoves _ hDealloc
        obtain ⟨rfl, rfl⟩ := Prod.mk.inj (Except.ok.inj (hMoved.symm.trans hCall'))
        simp only [if_neg hNull] at hResult
        obtain rfl := Except.ok.inj hResult
        rwa [← hSame, h.raw_eq_address hl hFits] at hRemembers
  | payload request =>
    cases request with
    | allocate size | allocateZeroed size => exact hGives.elim
    | free pointer =>
      obtain rfl : pointer = address := hGives
      obtain ⟨l, hl, rfl, hRaw⟩ := hPermits
      obtain ⟨s', hFree, -, hRemembers⟩ := h.remembers_dealloc hl
      rw [hRaw] at hFree hRemembers
      obtain ⟨outcome, hStore, hReturned⟩ := bind_eq_ok_iff.mp hCall
      obtain rfl := Except.ok.inj ((SharedHeap.withStore_eq hFree).symm.trans hStore)
      obtain rfl := Except.ok.inj hReturned
      exact hRemembers

end Backed

/-- **What the owners of blocks write** leaves the header so. -/
theorem Remembers.writes {m : Memory} {written : Nat → Option UInt8}
    (h : p.Remembers address) (hWrites : p.Writes m written) :
    (p.write m fun x => (written x).or (p.known x)).Remembers address := by
  obtain ⟨r, t, o, hPayload, hBacked, hRemembers⟩ := h
  refine ⟨r, t, o, hPayload, hBacked.writes hWrites, ?_⟩
  refine hRemembers.write hBacked.represents fun x hx => hWrites.byte_of_not_holds ?_
  rintro ⟨l, hl, hFrom, hTo⟩
  obtain ⟨b, hb, hLodged⟩ := hBacked.lodged l hl
  have hInside := hLodged.inside
  have := hx b hb
  omega

/-- **In a run whose last errand gave a payload back**, its header says so. -/
theorem Mixed.remembers_last (hStart : Store.LaidOut r config s heap.store)
    (hRun : Mixed (.fresh heap) log p) (hReturned : p.JustReturned log address layout) :
    p.Remembers address := by
  induction hRun with
  | start =>
    obtain ⟨last, hLast, -⟩ := hReturned.last
    exact absurd hLast (by simp)
  | attend hRun hPermits hCall ih =>
    obtain ⟨last, hLast, hGives⟩ := hReturned.last
    rw [List.getLast?_concat] at hLast
    obtain rfl := Option.some.inj hLast
    obtain ⟨⟨t, hBacked⟩, -⟩ := hRun.backed hStart
    exact hBacked.remembers_attend hPermits hCall hGives hReturned.fits hReturned.gone
  | write hRun hWrites ih =>
    exact (ih ⟨hReturned.last, hReturned.fits, hReturned.gone⟩).writes hWrites

-- ---------------------------------------------------------------------------
-- Heaps in correct use
-- ---------------------------------------------------------------------------

/-- **A run without a region** comes to nothing. -/
theorem Mixed.idle (hRegion : heap.store.heap.region = none) (hRun : Mixed (.fresh heap) log p) :
    p.Idle := by
  induction hRun with
  | start => exact ⟨hRegion, rfl⟩
  | attend _ hPermits hCall ih =>
    obtain ⟨p', hCall', hIdle⟩ := ih.attend hPermits
    obtain rfl := Except.ok.inj (hCall.symm.trans hCall')
    exact hIdle
  | write _ _ ih => exact ⟨ih.region, ih.leases⟩

/-- What is given back is a block. -/
theorem Permits.exists_lease (h : p.Permits wanted) (hGives : wanted.GivesBack address layout) :
    ∃ l ∈ p.leases, l.address = address := by
  cases wanted with
  | block demand =>
    cases demand with
    | alloc given | allocZeroed given => exact hGives.elim
    | realloc old given newSize =>
      obtain ⟨rfl, -⟩ := hGives
      obtain ⟨⟨l, hl, hAddress, -⟩, -⟩ := h
      exact ⟨l, hl, hAddress⟩
    | dealloc old given =>
      obtain ⟨rfl, -⟩ := hGives
      obtain ⟨l, hl, hAddress, -⟩ := h
      exact ⟨l, hl, hAddress⟩
  | payload request =>
    cases request with
    | allocate size | allocateZeroed size => exact hGives.elim
    | free pointer =>
      obtain rfl : pointer = address := hGives
      obtain ⟨l, hl, hAddress, -⟩ := h
      exact ⟨l, hl, hAddress⟩

/-- Without a region nothing was given back. -/
theorem Mixed.not_givesBack (hRegion : heap.store.heap.region = none)
    (hRun : Mixed (.fresh heap) log p) (hLast : log.getLast? = some wanted) :
    ¬wanted.GivesBack address layout := by
  induction hRun with
  | start => exact absurd hLast (by simp)
  | attend hRun hPermits _ _ =>
    rw [List.getLast?_concat] at hLast
    obtain rfl := Option.some.inj hLast
    intro hGives
    obtain ⟨l, hl, -⟩ := hPermits.exists_lease hGives
    rw [(hRun.idle hRegion).leases] at hl
    exact absurd hl List.not_mem_nil
  | write _ _ ih => exact ih hLast

/-- A heap in correct use: it has no region yet, or it was given one and checks pointers. Since
then a correct program has used it. -/
inductive Reached (log : List Errand) (p : Program) : Prop
  | idle {heap : SharedHeap} (hRegion : heap.store.heap.region = none)
      (hRun : Mixed (.fresh heap) log p)
  | laidOut {s : Store} {start stop : Nat} {config : Config} {heap : SharedHeap}
      (hInit : s.init start stop config = .ok (.ok (), heap.store))
      (hValidate : config.validateFrees = true) (hRun : Mixed (.fresh heap) log p)

/-- The program when a request was served that it may make. -/
theorem served_eq (hAllowed : p.Allows request.demand)
    (hPerform : p.perform request.demand = .ok (address, p')) : p.served request = p' := by
  unfold served
  rw [if_pos hAllowed, hPerform]

namespace Reached

/-- There are no blocks, or every block is backed and pointers are checked. -/
theorem idle_or_backed (h : p.Reached log) :
    p.Idle ∨ p.heap.store.heap.config.validateFrees = true ∧ ∃ r t, p.Backed r t := by
  cases h with
  | idle hRegion hRun => exact Or.inl (hRun.idle hRegion)
  | laidOut hInit hValidate hRun =>
    obtain ⟨r, -, hLaidOut⟩ := Store.laidOut_of_init hInit
    obtain ⟨⟨t, hBacked⟩, -⟩ := hRun.backed hLaidOut
    exact Or.inr ⟨(hRun.config_eq hLaidOut) ▸ hValidate, r, t, hBacked⟩

/-- **An errand** returns. -/
theorem attend (h : p.Reached log) (hPermits : p.Permits wanted)
    (hCalls : log.length + 1 < Word.limit) :
    ∃ p', p.attend wanted = .ok p' ∧ p'.Reached (log ++ [wanted]) := by
  cases h with
  | idle hRegion hRun =>
    obtain ⟨p', hCall, -⟩ := (hRun.idle hRegion).attend hPermits
    exact ⟨p', hCall, .idle hRegion (.attend hRun hPermits hCall)⟩
  | laidOut hInit hValidate hRun =>
    obtain ⟨r, -, hLaidOut⟩ := Store.laidOut_of_init hInit
    obtain ⟨p', hCall⟩ := hRun.progress hLaidOut hPermits hCalls
    exact ⟨p', hCall, .laidOut hInit hValidate (.attend hRun hPermits hCall)⟩

/-- A refusal of what a correct program may ask is complained of. -/
theorem complaint_eq (h : p.Reached log) (hAllowed : p.Allows request.demand)
    (hAttempt : p.heap.store.attempt request = .ok a) :
    a.complaint = p.heap.store.refusal? request := by
  cases request with
  | alloc layout => exact Store.complaint_alloc hAllowed hAttempt
  | dealloc address layout =>
    obtain ⟨l, hl, rfl, rfl⟩ := hAllowed
    rcases h.idle_or_backed with hIdle | ⟨-, r, t, hBacked⟩
    · rw [hIdle.leases] at hl
      exact absurd hl List.not_mem_nil
    · obtain ⟨b, -, hLodged⟩ := hBacked.lodged l hl
      refine Store.complaint_dealloc (hBacked.address_ne_null hl) ?_ hAttempt
      rw [hLodged.found, hLodged.raw]
      exact r.payload_ne_null b.offset

/-- **A request** that a correct program may make is served. -/
theorem serve (h : p.Reached log) (hAllowed : p.Allows request.demand)
    (hCalls : log.length + 1 < Word.limit) :
    ∃ a, p.heap.store.attempt request = .ok a ∧ a.complaint = p.heap.store.refusal? request ∧
      a.store = (p.served request).heap.store ∧
      (p.served request).Reached (log ++ [request.errand]) := by
  have hPermits : p.Permits request.errand := hAllowed
  obtain ⟨p', hCall, hReached⟩ := h.attend hPermits hCalls
  obtain ⟨⟨address, p''⟩, hPerform, hResult⟩ := bind_eq_ok_iff.mp hCall
  obtain rfl := Except.ok.inj hResult
  obtain ⟨a, hAttempt, hStore⟩ := attempt_of_perform hPerform
  rw [served_eq hAllowed hPerform]
  exact ⟨a, hAttempt, h.complaint_eq hAllowed hAttempt, hStore, hReached⟩

/-- **Any number of requests** are served one after the other. -/
theorem serveAll (requests : List Request) :
    ∀ {log : List Errand} {p : Program}, p.Reached log → p.AllowsAll requests →
      log.length + requests.length < Word.limit →
      p.heap.store.attemptAll requests = .ok (p.servedAll requests).heap.store ∧
        (p.servedAll requests).Reached (log ++ requests.map Request.errand) := by
  induction requests with
  | nil =>
    intro log p h _ _
    rw [List.map_nil, List.append_nil]
    exact ⟨rfl, h⟩
  | cons request rest ih =>
    -- the first request makes the run one errand longer, and the rest starts from there
    intro log p h hAllows hCalls
    rw [List.length_cons] at hCalls
    obtain ⟨a, hAttempt, -, hStore, hReached⟩ := h.serve hAllows.1 (by omega)
    obtain ⟨hRest, hReached'⟩ := ih hReached hAllows.2 (by
      rw [List.length_append, List.length_singleton]
      omega)
    rw [List.append_assoc, List.singleton_append] at hReached'
    refine ⟨?_, hReached'⟩
    rw [← hStore] at hRest
    unfold Store.attemptAll
    rw [List.foldlM_cons, hAttempt]
    exact hRest

/-- Requests can be played from the start. -/
theorem replay {start stop : Nat} (hInit : s.init start stop config = .ok (.ok (), heap.store))
    (hValidate : config.validateFrees = true) (requests : List Request)
    (hAllows : (Program.fresh heap).AllowsAll requests) (hCalls : requests.length < Word.limit) :
    ((Program.fresh heap).servedAll requests).Reached (requests.map Request.errand) :=
  (serveAll requests (.laidOut hInit hValidate .start) hAllows (by simpa using hCalls)).2

/-- The header of a payload that was just given back says so. -/
theorem remembers (h : p.Reached log) (hReturned : p.JustReturned log address layout) :
    p.Remembers address := by
  cases h with
  | idle hRegion hRun =>
    obtain ⟨last, hLast, hGives⟩ := hReturned.last
    exact absurd hGives (hRun.not_givesBack hRegion hLast)
  | laidOut hInit _ hRun =>
    obtain ⟨r, -, hLaidOut⟩ := Store.laidOut_of_init hInit
    exact hRun.remembers_last hLaidOut hReturned

end Reached

-- ---------------------------------------------------------------------------
-- Requests at the top
-- ---------------------------------------------------------------------------

/-- What is asked of a heap: what a correct program may ask, or to give a payload back that was
just given back. -/
inductive Asks (p : Program) (log : List Errand) : Request → Prop
  | allowed {request : Request} : p.Allows request.demand → Asks p log request
  | again {address : Nat} {layout : Layout} :
      p.JustReturned log address layout → Asks p log (.dealloc address layout)

/-- **A payload that was just given back** is not given back again. -/
theorem Reached.again (h : p.Reached log) (hReturned : p.JustReturned log address layout) :
    ∃ a, p.heap.store.attempt (.dealloc address layout) = .ok a ∧
      a.complaint = p.heap.store.refusal? (.dealloc address layout) ∧ a.store = p.heap.store := by
  obtain ⟨r, t, o, rfl, hBacked, hRemembers⟩ := h.remembers hReturned
  have hValidate : p.heap.store.heap.config.validateFrees = true := by
    rcases h.idle_or_backed with hIdle | ⟨hValidate, -⟩
    · exact absurd (hIdle.region.symm.trans hBacked.represents.holds.region) (by simp)
    · exact hValidate
  obtain ⟨hFree, -⟩ := hRemembers.refuses hBacked.represents hValidate
  have hNull := r.payload_ne_null o
  have hRaw : p.heap.store.rawAddress (r.payload o) layout = r.payload o := by
    unfold Store.rawAddress
    exact if_pos hReturned.fits
  have hAttempt : p.heap.store.attempt (.dealloc (r.payload o) layout) =
      .ok ⟨null, some (.freeRejected (r.payload o) layout.size
        (.corruption (r.payload o) .doubleFree)), p.heap.store⟩ :=
    Store.attempt_dealloc_refused hNull hRaw hNull hFree
  refine ⟨_, hAttempt, Store.complaint_dealloc hNull ?_ hAttempt, rfl⟩
  rw [hRaw]
  exact hNull

/-- **What is asked** is attempted, and a refusal is complained of. -/
theorem Asks.attempt (h : p.Asks log request) (hReached : p.Reached log)
    (hCalls : log.length + 1 < Word.limit) :
    ∃ a log', p.heap.store.attempt request = .ok a ∧
      a.complaint = p.heap.store.refusal? request ∧ a.store = (p.served request).heap.store ∧
      log'.length ≤ log.length + 1 ∧ (p.served request).Reached log' := by
  cases h with
  | allowed hAllowed =>
    obtain ⟨a, hAttempt, hComplaint, hStore, hReached'⟩ := hReached.serve hAllowed hCalls
    exact ⟨a, _, hAttempt, hComplaint, hStore, by simp, hReached'⟩
  | @again address layout hReturned =>
    obtain ⟨a, hAttempt, hComplaint, hStore⟩ := hReached.again hReturned
    have hSame : p.served (.dealloc address layout) = p := if_neg fun hAllowed => by
      obtain ⟨l, hl, hAddress, -⟩ := hAllowed
      exact hReturned.gone l hl hAddress
    rw [hSame]
    exact ⟨a, log, hAttempt, hComplaint, hStore, Nat.le_succ _, hReached⟩

end Program

/-- What a logger asks of the heap when there is something to report. -/
def Logger.calls (logger : Logger) (refusal : Option Event) : List Request :=
  refusal.elim [] logger

/-- **A request is reported at most once**: when it is refused, and then the heap serves the calls
that the logger makes on it, reports none of them, and is ready to report again. The lock is free
when the request comes, while the logger makes its calls, and in the end. -/
theorem serve_reports_once {logger : Logger} (hReached : p.Reached log)
    (hStore : heap.store = p.heap.store) (hQuiet : heap.reporting = false)
    (hAsks : p.Asks log request)
    (hLogger : (p.served request).AllowsAll (logger.calls (heap.store.refusal? request)))
    (hCalls : log.length + 1 + (logger.calls (heap.store.refusal? request)).length < Word.limit) :
    ∃ a store heap', heap.store.attempt request = .ok a ∧
      a.store.attemptAll (logger.calls (heap.store.refusal? request)) = .ok store ∧
      (∃ p' log', p'.heap.store = store ∧ Program.Reached log' p') ∧
      heap' =
        { store := store
          reporting := false
          journal := heap.journal ++ (heap.store.refusal? request).toList } ∧
      ∀ nesting, SharedHeap.serve logger (nesting + 1) heap request = .ok (a.address, heap') ∧
        GuardedHeap.serve logger (nesting + 1) ⟨heap, false⟩ request =
          .ok (a.address, ⟨heap', false⟩) ∧
        ∀ event ∈ heap.store.refusal? request,
          GuardedHeap.Reports logger nesting heap request a event heap' := by
  rw [hStore] at hLogger hCalls ⊢
  obtain ⟨a, log', hAttempt, hComplaint, hStore', hLength, hReached'⟩ :=
    hAsks.attempt hReached (by omega)
  obtain ⟨hAll, hReached''⟩ := Program.Reached.serveAll _ hReached' hLogger (by omega)
  rw [← hStore'] at hAll
  refine ⟨a, _, _, hAttempt, hAll, ⟨_, _, rfl, hReached''⟩, rfl, fun nesting => ?_⟩
  rw [← hStore] at hAttempt
  have hServe : GuardedHeap.serve logger (nesting + 1) ⟨heap, false⟩ request = _ :=
    GuardedHeap.serve_eq logger nesting hQuiet
  rw [hAttempt, ok_bind, hComplaint] at hServe
  change _ = (a.store.attemptAll (logger.calls _) >>= _) at hServe
  rw [hAll, ok_bind] at hServe
  refine ⟨SharedHeap.call_eq_ok_iff.mpr hServe, hServe, fun event hEvent => ?_⟩
  have hRefusal : p.heap.store.refusal? request = some event := hEvent
  rw [hRefusal] at hAll hComplaint ⊢
  exact GuardedHeap.reports_of_attempt logger nesting hQuiet hAttempt hComplaint hAll

/-- The heap is asked for too much. It says so, and the logger asks for a block, gives one back and
asks for too much itself, which is not reported. Had the lock been held, nothing would come back. -/
theorem serve_reports_once_exhausted :
    ∃ (logger : Logger) (p : Program) (address : Nat) (heap : SharedHeap),
      (∀ event, logger event = [.alloc ⟨40, 8⟩, .dealloc 65600 ⟨24, 8⟩, .alloc ⟨2000, 8⟩]) ∧
      Program.Reached [.block (.alloc ⟨24, 8⟩)] p ∧ p.leases.map Lease.address = [65600] ∧
      SharedHeap.serve logger 1 ⟨p.heap.store, false, []⟩ (.alloc ⟨900, 16⟩) =
        .ok (address, heap) ∧
      GuardedHeap.serve logger 1 ⟨⟨p.heap.store, false, []⟩, false⟩ (.alloc ⟨900, 16⟩) =
        .ok (address, ⟨heap, false⟩) ∧
      heap.reporting = false ∧
      heap.journal = [.allocationFailed 900 16 (.outOfMemory 900)] ∧
      GuardedHeap.serve logger 1 ⟨⟨p.heap.store, false, []⟩, true⟩ (.alloc ⟨900, 16⟩) =
        .error .divergence := by
  obtain ⟨p, hp⟩ : ∃ p, (Program.fresh (.kibibyte .hardened)).servedAll [.alloc ⟨24, 8⟩] = p :=
    ⟨_, rfl⟩
  have hReached := Program.Reached.replay (SharedHeap.init_kibibyte .hardened) rfl
    [.alloc ⟨24, 8⟩] (by decide +kernel) (by decide)
  rw [hp] at hReached
  have hLeases : p.leases.map Lease.address = [65600] := by
    rw [← hp]
    decide +kernel
  have hRefusal : p.heap.store.refusal? (.alloc ⟨900, 16⟩) =
      some (.allocationFailed 900 16 (.outOfMemory 900)) := by
    rw [← hp]
    decide +kernel
  have hValid : Layout.Valid ⟨900, 16⟩ := by decide
  have hAsks : p.Asks [.block (.alloc ⟨24, 8⟩)] (.alloc ⟨900, 16⟩) := .allowed hValid
  have hLogger : (p.served (.alloc ⟨900, 16⟩)).AllowsAll
      [.alloc ⟨40, 8⟩, .dealloc 65600 ⟨24, 8⟩, .alloc ⟨2000, 8⟩] := by
    rw [← hp]
    decide +kernel
  have hCalls : 1 + 1 + [Request.alloc ⟨40, 8⟩, .dealloc 65600 ⟨24, 8⟩, .alloc ⟨2000, 8⟩].length <
      Word.limit := by
    decide
  obtain ⟨a, store, _, -, -, -, rfl, hServe⟩ := @serve_reports_once (.alloc ⟨900, 16⟩)
    ⟨p.heap.store, false, []⟩ p _
    (fun _ => [.alloc ⟨40, 8⟩, .dealloc 65600 ⟨24, 8⟩, .alloc ⟨2000, 8⟩]) hReached rfl rfl hAsks
    (by rw [hRefusal]; exact hLogger) (by rw [hRefusal]; exact hCalls)
  obtain ⟨hOutside, hInside, -⟩ := hServe 0
  refine ⟨_, p, _, _, fun _ => rfl, hReached, hLeases, hOutside, hInside, rfl, ?_, ?_⟩
  · rw [hRefusal]
    rfl
  · exact GuardedHeap.serveWith_held _ (by simp [Store.operation?_alloc hValid])

end RegionHeap
