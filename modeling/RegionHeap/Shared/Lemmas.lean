import RegionHeap.Shared.Basic

/-!
# Laws of calls

What a call of a shared heap comes to. The lock does not show in the answer of a call that finds
it free, and it is free again afterwards; a call that finds it held gives no answer.

Main statements:

* `GuardedHeap.withStore_free`, `GuardedHeap.withStore_held`: what the lock does to an operation.
* `GuardedHeap.serveWith_free`: a request is attempted, and a refusal is reported with the lock
  free.
* `SharedHeap.serve_quiet`, `SharedHeap.serve_silent`: what serving a request comes to.
-/

namespace RegionHeap

variable {heap heap' : SharedHeap} {request : Request} {a : Attempt}

-- ---------------------------------------------------------------------------
-- The lock
-- ---------------------------------------------------------------------------

namespace GuardedHeap

/-- An operation that finds the lock free leaves it free. -/
theorem withStore_free {α : Type} (heap : SharedHeap) (f : Store → Checked (α × Store)) :
    withStore ⟨heap, false⟩ f = (do
      let (answer, store) ← f heap.store
      return (answer, ⟨{ heap with store := store }, false⟩)) := rfl

/-- An operation that finds the lock held never begins. -/
theorem withStore_held {α : Type} (heap : SharedHeap) (f : Store → Checked (α × Store)) :
    withStore ⟨heap, true⟩ f = .error .divergence := rfl

/-- **A request that finds the lock free** is attempted. The lock is free again when a refusal is
reported. -/
theorem serveWith_free (report : Event → GuardedHeap → Checked GuardedHeap) (heap : SharedHeap)
    (request : Request) :
    serveWith report ⟨heap, false⟩ request = (do
      let a ← heap.store.attempt request
      let g : GuardedHeap := ⟨{ heap with store := a.store }, false⟩
      match a.complaint with
      | none => return (a.address, g)
      | some event =>
        if heap.reporting then return (a.address, g)
        else return (a.address, ← report event g)) := by
  unfold serveWith Store.attempt
  simp only
  cases heap.store.operation? request with
  | none => rfl
  | some operation =>
    simp only
    rw [withStore_free, bind_assoc, bind_assoc]
    refine bind_congr fun answer => ?_
    rfl

/-- A request that finds the lock held is not served, if the heap has to do anything for it. -/
theorem serveWith_held (report : Event → GuardedHeap → Checked GuardedHeap)
    (h : heap.store.operation? request ≠ none) :
    serveWith report ⟨heap, true⟩ request = .error .divergence := by
  obtain ⟨operation, hOperation⟩ := Option.ne_none_iff_exists'.mp h
  unfold serveWith
  simp only [hOperation]
  rw [withStore_held]
  rfl

end GuardedHeap

-- ---------------------------------------------------------------------------
-- Calls from outside
-- ---------------------------------------------------------------------------

namespace SharedHeap

/-- **A call returns** if it does so with the lock free. -/
theorem call_eq_ok_iff {α : Type} {f : GuardedHeap → Checked (α × GuardedHeap)} {answer : α} :
    heap.call f = .ok (answer, heap') ↔ f ⟨heap, false⟩ = .ok (answer, ⟨heap', false⟩) := by
  unfold call
  rw [bind_eq_ok_iff]
  constructor
  · rintro ⟨⟨given, ⟨left, held⟩⟩, hCall, hResult⟩
    cases held with
    | true => cases hResult
    | false =>
      obtain ⟨rfl, rfl⟩ := Prod.mk.inj (Except.ok.inj hResult)
      exact hCall
  · exact fun hCall => ⟨_, hCall, rfl⟩

/-- An operation called from outside returns if it does so on the store. -/
theorem withStore_eq_ok_iff {α : Type} {f : Store → Checked (α × Store)} {answer : α} :
    heap.withStore f = .ok (answer, heap') ↔
      ∃ store, f heap.store = .ok (answer, store) ∧ { heap with store := store } = heap' := by
  unfold withStore
  rw [call_eq_ok_iff, GuardedHeap.withStore_free, bind_eq_ok_iff]
  constructor
  · rintro ⟨⟨given, store⟩, hRun, hResult⟩
    obtain ⟨rfl, hLeft⟩ := Prod.mk.inj (Except.ok.inj hResult)
    exact ⟨store, hRun, congrArg GuardedHeap.heap hLeft⟩
  · rintro ⟨store, hRun, rfl⟩
    exact ⟨_, hRun, rfl⟩

theorem withStore_eq {α : Type} {f : Store → Checked (α × Store)} {answer : α} {store : Store}
    (h : f heap.store = .ok (answer, store)) :
    heap.withStore f = .ok (answer, { heap with store := store }) :=
  withStore_eq_ok_iff.mpr ⟨store, h, rfl⟩

/-- A request that is not refused is served without a word, whoever listens. -/
theorem serve_quiet (logger : Logger) (nesting : Nat)
    (hAttempt : heap.store.attempt request = .ok a) (hQuiet : a.complaint = none) :
    serve logger nesting heap request = .ok (a.address, { heap with store := a.store }) := by
  refine call_eq_ok_iff.mpr ?_
  unfold GuardedHeap.serve
  rw [GuardedHeap.serveWith_free, hAttempt, ok_bind]
  simp only [hQuiet]
  rfl

/-- So is a block given back. -/
theorem dealloc_quiet {address : Nat} {layout : Layout} {store : Store} (logger : Logger)
    (hAttempt : heap.store.attempt (.dealloc address layout) = .ok ⟨null, none, store⟩) :
    heap.dealloc logger address layout = .ok { heap with store := store } := by
  unfold dealloc
  rw [serve_quiet logger nestingLimit hAttempt rfl]
  rfl

/-- When the logger leaves the heap alone, a request does to the store what it attempts. -/
theorem serve_silent (hAttempt : heap.store.attempt request = .ok a) :
    ∃ heap', serve .silent nestingLimit heap request = .ok (a.address, heap') ∧
      heap'.store = a.store := by
  cases hComplaint : a.complaint with
  | none => exact ⟨_, serve_quiet .silent nestingLimit hAttempt hComplaint, rfl⟩
  | some event =>
    simp only [serve, call_eq_ok_iff]
    unfold GuardedHeap.serve nestingLimit
    rw [GuardedHeap.serveWith_free, hAttempt, ok_bind]
    simp only [hComplaint]
    cases heap.reporting with
    | true => exact ⟨_, rfl, rfl⟩
    | false => exact ⟨_, rfl, rfl⟩

/-- A request that was served was attempted. -/
theorem attempt_of_serve {logger : Logger} {nesting : Nat} {result : Nat × SharedHeap}
    (h : serve logger nesting heap request = .ok result) :
    ∃ a, heap.store.attempt request = .ok a := by
  have hServe : GuardedHeap.serve logger nesting ⟨heap, false⟩ request =
      .ok (result.1, ⟨result.2, false⟩) := call_eq_ok_iff.mp h
  unfold GuardedHeap.serve at hServe
  rw [GuardedHeap.serveWith_free] at hServe
  obtain ⟨a, hAttempt, -⟩ := bind_eq_ok_iff.mp hServe
  exact ⟨a, hAttempt⟩

end SharedHeap

end RegionHeap
