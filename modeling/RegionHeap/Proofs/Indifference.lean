import RegionHeap.Proofs.Totals
import RegionHeap.Proofs.Walk
import RegionHeap.Proofs.Client

/-!
# What a heap does not look at

Two clients that make the same calls of heaps in regions of one size are answered alike, whatever
the regions hold at first and wherever they are, whatever the clients write into their payloads,
whatever becomes of the unused bytes of headers, and however the heaps are configured. The tiling
that both stay in step with knows of none of these.

* `Client.PaddedRun`: a correct run in which the padding of headers changes now and then.
* `Instruction`, `Plays`: calls in terms that mention no address. A pointer to be freed is
  named by the call that returned it.
* `Tiling.serve_agree`: in two regions a tiling has answers that differ by the distance.
* `padded_runs_agree`: two runs that play one script are alike in all that can be observed.
-/

namespace RegionHeap

variable {r r₁ r₂ : Region} {m : Memory} {s s' : Store} {t : Tiling} {c c' c₁ c₂ : Client}

-- ---------------------------------------------------------------------------
-- Padding
-- ---------------------------------------------------------------------------

/-- Where the fields of a header end. The bytes from there to the end of the header belong to no
field. -/
def paddingStart : Nat := 24

theorem Field.end_le_paddingStart {f : Field} (hf : f.reach = headerSize) :
    f.position + f.width ≤ paddingStart := by
  cases f with
  | previous | next | tag | canary => decide
  | ringPrevious | ringNext => exact absurd hf (by decide)

namespace Client

/-- Memory is as the client left it, but for the padding of headers. -/
def Pads (c : Client) (m : Memory) : Prop :=
  ∃ r chunks, c.store.heap.region = some r ∧ c.store.chunks = .ok chunks ∧
    ∀ x, (∀ chunk ∈ chunks, x < r.base + chunk.offset + paddingStart ∨
      r.base + chunk.offset + headerSize ≤ x) → m.byte x = c.store.memory.byte x

/-- A correct client, while the padding of headers changes behind its back. -/
inductive PaddedRun (start : Client) : List Exchange → Client → Prop
  | start : PaddedRun start [] start
  | call {log : List Exchange} {c c' : Client} {request : Call} {answer : Answer} :
      PaddedRun start log c → Protocol.correct.allows c request →
        c.perform request = .ok (answer, c') → PaddedRun start (log ++ [⟨request, answer⟩]) c'
  | write {log : List Exchange} {c : Client} {m : Memory} :
      PaddedRun start log c → (∀ x, ¬c.Owns x → m.byte x = c.store.memory.byte x) →
        PaddedRun start log (c.write m)
  | pad {log : List Exchange} {c : Client} {m : Memory} :
      PaddedRun start log c → c.Pads m → PaddedRun start log (c.write m)

/-- **Padding** is no part of what client, store and tiling have in common. -/
theorem Tracks.pad (h : c.Tracks r t) (hPads : c.Pads m) : (c.write m).Tracks r t := by
  obtain ⟨_, chunks, hRegion, hChunks, hSame⟩ := hPads
  have hHolds := h.represents.holds
  obtain rfl := Option.some.inj (hHolds.region.symm.trans hRegion)
  obtain rfl := Except.ok.inj (h.represents.chunks_eq.symm.trans hChunks)
  have hByte : ∀ x, (∀ o ∈ r.headers t.blocks, x < r.base + o + paddingStart ∨
      r.base + o + headerSize ≤ x) → m.byte x = c.store.memory.byte x := fun x hx =>
    hSame x fun chunk hChunk => hx _ (Tiling.offset_mem_headers hChunk)
  have := sizes_eq
  refine ⟨⟨hHolds.of_contents (fun g y hy hg => ?_) fun g k y hy hg => ?_,
    h.represents.coalesced⟩, h.live, h.allocations, h.allocations_lt⟩
  · have := g.end_le_paddingStart hg
    have : paddingStart ≤ headerSize := by decide
    refine Region.content_congr fun x hLow hHigh => hByte x fun o ho => ?_
    have hClear := (Region.sited_header (f := g) hy hg).clear hHolds.tiled
      (Region.sited_header (f := g) ho hg)
    unfold Region.Clear at hClear
    omega
  · -- the ring links of a free block lie in its payload
    obtain ⟨b, hb, -, rfl, -⟩ := hHolds.exists_free hy
    have := g.position_add_width_le_reach
    have := (hHolds.tiled.payload hb).1
    have hPosition : headerSize ≤ g.position := by
      cases g with
      | previous | next | tag | canary => exact absurd hg (by decide)
      | ringPrevious | ringNext => decide
    refine Region.content_congr fun x hLow hHigh => hByte x fun o ho => ?_
    rcases Region.header_apart_payload hHolds.tiled ho hb with hBelow | hAbove
    · omega
    · unfold Block.stop at hAbove
      omega

variable {start : Client} {log : List Exchange}

theorem PaddedRun.continues (hStart : start.Tracks r t) (hRun : PaddedRun start log c) :
    start.Continues r t log c := by
  induction hRun with
  | start => exact .refl hStart
  | call _ hAllowed hCall ih => exact ih.call hAllowed hCall
  | write _ hSame ih => exact ih.of_memory (ih.tracks.write hSame)
  | pad _ hPads ih => exact ih.of_memory (ih.tracks.pad hPads)

section

variable {config : Config}

/-- The totals after a run of a heap that was just set up. -/
theorem PaddedRun.stats_eq (hStart : Store.LaidOut r config s s')
    (hRun : PaddedRun ⟨s', []⟩ log c) : c.store.stats = .ok ((Tiling.replay r log).stats r.size
      (tally Answer.isGranted log) (tally Answer.isAccepted log) (tally Answer.isRefused log)) := by
  have h := hRun.continues (tracks_of_laidOut hStart)
  rw [h.tracks.represents.stats_eq, h.allocations, h.frees, h.failedAllocations,
    hStart.allocations, hStart.frees, hStart.failedAllocations, Nat.zero_add, Nat.zero_add,
    Nat.zero_add]
  rfl

theorem PaddedRun.hasRoom (hStart : Store.LaidOut r config s s')
    (hRun : PaddedRun ⟨s', []⟩ log c) (hCalls : log.length + 1 < Word.limit) (request : Call) :
    c.HasRoom (Tiling.replay r log) request := by
  have h := hRun.continues (tracks_of_laidOut hStart)
  have hGranted := @tally_le Answer.isGranted log
  have hRefused := @tally_le Answer.isRefused log
  refine HasRoom.of_counters ?_ ?_
  · rw [h.allocations, hStart.allocations]
    omega
  · rw [h.failedAllocations, hStart.failedAllocations]
    omega

end

/-- Padding may stay as it is. -/
theorem Run.padded (hRun : Run .correct start log c) : PaddedRun start log c := by
  induction hRun with
  | start _ => exact .start
  | call _ hAllowed hCall _ ih => exact ih.call hAllowed hCall
  | write _ hSame _ ih => exact ih.write hSame

end Client

-- ---------------------------------------------------------------------------
-- Calls without addresses
-- ---------------------------------------------------------------------------

/-- What a client asks for, where a pointer to be freed is named by the number of the call that
returned it. -/
inductive Instruction
  | allocate (size : Nat)
  | allocateZeroed (size : Nat)
  | free (call : Nat)
  deriving DecidableEq, Repr

/-- The call that an instruction stands for after some answers. -/
def Instruction.call? (earlier : List Answer) : Instruction → Option Call
  | .allocate size => some (.allocate size)
  | .allocateZeroed size => some (.allocateZeroed size)
  | .free call =>
    match earlier[call]? with
    | some (.allocated (.ok pointer)) => some (.free pointer)
    | _ => none

/-- The requests of a log are what the instructions of a script stand for, one after the other. -/
def Plays (earlier : List Answer) : List Instruction → List Exchange → Prop
  | [], [] => True
  | instruction :: script, exchange :: log =>
    instruction.call? earlier = some exchange.request ∧
      Plays (earlier ++ [exchange.answer]) script log
  | [], _ :: _ | _ :: _, [] => False

instance : (earlier : List Answer) → (script : List Instruction) → (log : List Exchange) →
    Decidable (Plays earlier script log)
  | _, [], [] => isTrue trivial
  | earlier, instruction :: script, exchange :: log =>
    have : Decidable (Plays (earlier ++ [exchange.answer]) script log) :=
      instDecidablePlays _ script log
    inferInstanceAs (Decidable (instruction.call? earlier = some exchange.request ∧ _))
  | _, [], _ :: _ | _, _ :: _, [] => isFalse id

-- ---------------------------------------------------------------------------
-- The same up to the distance of two regions
-- ---------------------------------------------------------------------------

/-- Two addresses are as far from the bases of two regions. -/
def Region.Matches (r₁ r₂ : Region) (p q : Nat) : Prop := p + r₂.base = q + r₁.base

/-- The same call of heaps in two regions. -/
def Call.Agree (r₁ r₂ : Region) : Call → Call → Prop
  | .allocate size, .allocate size' | .allocateZeroed size, .allocateZeroed size' => size = size'
  | .free p, .free q => r₁.Matches r₂ p q
  | _, _ => False

/-- The same answer of heaps in two regions. -/
def Answer.Agree (r₁ r₂ : Region) : Answer → Answer → Prop
  | .allocated (.ok p), .allocated (.ok q) => r₁.Matches r₂ p q
  | .allocated (.error e), .allocated (.error e') => e = e'
  | .freed result, .freed result' => result = result'
  | _, _ => False

/-- The same chunk in two regions. -/
structure ChunkInfo.Agree (r₁ r₂ : Region) (a b : ChunkInfo) : Prop where
  offset : a.offset = b.offset
  size : a.size = b.size
  mark : a.mark = b.mark
  address : r₁.Matches r₂ a.address b.address

theorem Region.matches_payload (o : Nat) : r₁.Matches r₂ (r₁.payload o) (r₂.payload o) := by
  unfold Matches payload
  omega

/-- Calls are told apart by how they are answered, not by addresses. -/
theorem Answer.Agree.kinds {a b : Answer} (h : a.Agree r₁ r₂ b) :
    a.isGranted = b.isGranted ∧ a.isAccepted = b.isAccepted ∧ a.isRefused = b.isRefused := by
  match a, b, h with
  | .allocated (.ok _), .allocated (.ok _), _ => exact ⟨rfl, rfl, rfl⟩
  | .allocated (.error _), .allocated (.error _), _ => exact ⟨rfl, rfl, rfl⟩
  | .freed _, .freed _, rfl => exact ⟨rfl, rfl, rfl⟩

theorem countP_agree {kind : Answer → Bool} {answers₁ answers₂ : List Answer}
    (h : List.Forall₂ (Answer.Agree r₁ r₂) answers₁ answers₂)
    (hKind : ∀ a b, Answer.Agree r₁ r₂ a b → kind a = kind b) :
    answers₁.countP kind = answers₂.countP kind := by
  induction h with
  | nil => rfl
  | cons hAgree _ ih => rw [List.countP_cons, List.countP_cons, ih, hKind _ _ hAgree]

/-- After answers that agree, an instruction stands for calls that agree. -/
theorem Instruction.call?_agree {earlier₁ earlier₂ : List Answer}
    (h : List.Forall₂ (Answer.Agree r₁ r₂) earlier₁ earlier₂) (i : Instruction) :
    Option.Rel (Call.Agree r₁ r₂) (i.call? earlier₁) (i.call? earlier₂) := by
  cases i with
  | allocate size | allocateZeroed size => exact .some rfl
  | free call =>
    simp only [call?]
    by_cases hLt : call < earlier₁.length
    · have hLt' : call < earlier₂.length := h.length_eq ▸ hLt
      have hAgree := h.get hLt hLt'
      rw [List.getElem?_eq_getElem hLt, List.getElem?_eq_getElem hLt']
      rw [List.get_eq_getElem, List.get_eq_getElem] at hAgree
      match earlier₁[call], earlier₂[call], hAgree with
      | .allocated (.ok _), .allocated (.ok _), hMatches => exact .some hMatches
      | .allocated (.error _), .allocated (.error _), _ => exact .none
      | .freed _, .freed _, _ => exact .none
    · rw [List.getElem?_eq_none (by omega), List.getElem?_eq_none (by have := h.length_eq; omega)]
      exact .none

namespace Tiling

/-- **A tiling does not know its region**: calls that agree have answers that agree, and change
it in the same way. -/
theorem serve_agree {request₁ request₂ : Call} (h : request₁.Agree r₁ r₂ request₂) :
    (t.serve r₁ request₁).1.Agree r₁ r₂ (t.serve r₂ request₂).1 ∧
      (t.serve r₁ request₁).2 = (t.serve r₂ request₂).2 := by
  match request₁, request₂, h with
  | .allocate size, .allocate _, rfl | .allocateZeroed size, .allocateZeroed _, rfl =>
    simp only [serve]
    cases t.allocate size with
    | none => exact ⟨rfl, rfl⟩
    | some served => exact ⟨Region.matches_payload served.1, rfl⟩
  | .free p, .free q, hMatches =>
    have hMatches : p + r₂.base = q + r₁.base := hMatches
    refine ⟨rfl, congrArg t.free ?_⟩
    unfold Region.payload
    omega

theorem allows_agree {request₁ request₂ : Call} (h : request₁.Agree r₁ r₂ request₂) :
    t.Allows r₁ request₁ ↔ t.Allows r₂ request₂ := by
  match request₁, request₂, h with
  | .allocate _, .allocate _, _ | .allocateZeroed _, .allocateZeroed _, _ => exact Iff.rfl
  | .free p, .free q, hMatches =>
    have hMatches : p + r₂.base = q + r₁.base := hMatches
    have hPayload : ∀ o, r₁.payload o = p ↔ r₂.payload o = q := by
      intro o
      unfold Region.payload
      omega
    show p ∈ List.map _ _ ↔ q ∈ List.map _ _
    simp only [List.mem_map, hPayload]

theorem chunks_agree (hSize : r₁.size = r₂.size) :
    List.Forall₂ (ChunkInfo.Agree r₁ r₂) (t.chunks r₁) (t.chunks r₂) := by
  have hBoundary : ∀ o, ChunkInfo.Agree r₁ r₂ (r₁.boundary o) (r₂.boundary o) :=
    fun o => ⟨rfl, rfl, rfl, Region.matches_payload o⟩
  have hBlocks : List.Forall₂ (ChunkInfo.Agree r₁ r₂) (t.blocks.map (Block.info r₁))
      (t.blocks.map (Block.info r₂)) :=
    List.forall₂_map_left_iff.mpr (List.forall₂_map_right_iff.mpr
      (List.forall₂_same.mpr fun b _ => ⟨rfl, rfl, rfl, Region.matches_payload b.offset⟩))
  have hTail : r₁.tail = r₂.tail := by
    unfold Region.tail
    rw [hSize]
  unfold chunks
  rw [hTail]
  exact .cons (hBoundary 0) (List.rel_append hBlocks (.cons (hBoundary r₂.tail) .nil))

/-- **A script has one outcome**: the answers agree, and so does what becomes of the tiling. -/
theorem script_agree (script : List Instruction) : ∀ {t : Tiling} {earlier₁ earlier₂ : List Answer}
    {log₁ log₂ : List Exchange}, List.Forall₂ (Answer.Agree r₁ r₂) earlier₁ earlier₂ →
      Plays earlier₁ script log₁ → Plays earlier₂ script log₂ →
      log₁.map (·.answer) = t.answers r₁ (requests log₁) →
      log₂.map (·.answer) = t.answers r₂ (requests log₂) →
      List.Forall₂ (Answer.Agree r₁ r₂) (log₁.map (·.answer)) (log₂.map (·.answer)) ∧
        t.after r₁ (requests log₁) = t.after r₂ (requests log₂) := by
  induction script with
  | nil =>
    intro t earlier₁ earlier₂ log₁ log₂ _ hPlays₁ hPlays₂ _ _
    match log₁, log₂, hPlays₁, hPlays₂ with
    | [], [], _, _ => exact ⟨.nil, rfl⟩
  | cons instruction script ih =>
    intro t earlier₁ earlier₂ log₁ log₂ hEarlier hPlays₁ hPlays₂ hAnswers₁ hAnswers₂
    match log₁, log₂, hPlays₁, hPlays₂ with
    | ⟨request₁, answer₁⟩ :: log₁, ⟨request₂, answer₂⟩ :: log₂, ⟨hCall₁, hRest₁⟩,
        ⟨hCall₂, hRest₂⟩ =>
      have hRel := instruction.call?_agree hEarlier
      rw [hCall₁, hCall₂] at hRel
      have hRequests : Call.Agree r₁ r₂ request₁ request₂ := by
        cases hRel with
        | some h => exact h
      obtain ⟨hFirst₁, hAnswers₁⟩ := List.cons.inj hAnswers₁
      obtain ⟨hFirst₂, hAnswers₂⟩ := List.cons.inj hAnswers₂
      obtain ⟨hAnswer, hAfter⟩ := serve_agree (t := t) hRequests
      have hFirst : answer₁.Agree r₁ r₂ answer₂ := by
        rw [show answer₁ = _ from hFirst₁, show answer₂ = _ from hFirst₂]
        exact hAnswer
      -- the rest is played of one tiling, after one more pair of answers that agree
      obtain ⟨hAgree, hSame⟩ := ih (List.rel_append hEarlier (.cons hFirst .nil)) hRest₁ hRest₂
        hAnswers₁ (by rw [hAfter]; exact hAnswers₂)
      refine ⟨.cons hFirst hAgree, ?_⟩
      show (t.serve r₁ request₁).2.after r₁ (requests log₁) =
        (t.serve r₂ request₂).2.after r₂ (requests log₂)
      rw [hSame, hAfter]

end Tiling

-- ---------------------------------------------------------------------------
-- Two runs of one script
-- ---------------------------------------------------------------------------

namespace Client

/-- Validated or trusted, every live pointer leads to the same chunk. -/
def PathsMeet (r : Region) (c : Client) : Prop :=
  ∀ p ∈ c.live, ∃ o, Store.validate r c.store.memory p = .ok (.ok o) ∧ Store.trust r p = .ok o

theorem Tracks.pathsMeet (h : c.Tracks r t) : c.PathsMeet r := by
  intro p hp
  obtain ⟨b, hb, rfl⟩ := h.exists_used hp
  exact ⟨b.offset, h.represents.validate_eq hb, Store.Represents.trust_payload r b.offset⟩

/-- The two clients can make the same calls, and are answered alike. -/
def CanFollow (r₁ r₂ : Region) (log₁ log₂ : List Exchange) (c₁ c₂ : Client) : Prop :=
  ∀ (i : Instruction) (request₁ : Call), i.call? (log₁.map (·.answer)) = some request₁ →
    Protocol.correct.allows c₁ request₁ →
      ∃ request₂ answer₁ answer₂ c₁' c₂', i.call? (log₂.map (·.answer)) = some request₂ ∧
        Protocol.correct.allows c₂ request₂ ∧ c₁.perform request₁ = .ok (answer₁, c₁') ∧
        c₂.perform request₂ = .ok (answer₂, c₂') ∧ answer₁.Agree r₁ r₂ answer₂

/-- All that can be observed of two heaps is the same, up to the distance of their regions. -/
structure Alike (r₁ r₂ : Region) (log₁ log₂ : List Exchange) (c₁ c₂ : Client) : Prop where
  answers : List.Forall₂ (Answer.Agree r₁ r₂) (log₁.map (·.answer)) (log₂.map (·.answer))
  stats : ∃ stats, c₁.store.stats = .ok stats ∧ c₂.store.stats = .ok stats
  chunks : ∃ chunks₁ chunks₂, c₁.store.chunks = .ok chunks₁ ∧ c₂.store.chunks = .ok chunks₂ ∧
    List.Forall₂ (ChunkInfo.Agree r₁ r₂) chunks₁ chunks₂
  next : log₁.length + 1 < Word.limit → CanFollow r₁ r₂ log₁ log₂ c₁ c₂
  paths : c₁.PathsMeet r₁ ∧ c₂.PathsMeet r₂

variable {start₁ start₂ : Client} {log₁ log₂ : List Exchange} {t₁ t₂ : Tiling}

theorem Continues.canFollow (h₁ : start₁.Continues r₁ t log₁ c₁)
    (h₂ : start₂.Continues r₂ t log₂ c₂)
    (hAnswers : List.Forall₂ (Answer.Agree r₁ r₂) (log₁.map (·.answer)) (log₂.map (·.answer)))
    (hAfter : t.after r₁ (requests log₁) = t.after r₂ (requests log₂))
    (hRoom₁ : ∀ request, c₁.HasRoom (t.after r₁ (requests log₁)) request)
    (hRoom₂ : ∀ request, c₂.HasRoom (t.after r₂ (requests log₂)) request) :
    CanFollow r₁ r₂ log₁ log₂ c₁ c₂ := by
  intro i request₁ hCall₁ hAllowed₁
  have hRel := i.call?_agree hAnswers
  rw [hCall₁] at hRel
  obtain ⟨request₂, hCall₂, hRequests⟩ : ∃ request₂,
      i.call? (log₂.map (·.answer)) = some request₂ ∧ request₁.Agree r₁ r₂ request₂ := by
    generalize i.call? (log₂.map (·.answer)) = other at hRel
    cases hRel with
    | some h => exact ⟨_, rfl, h⟩
  have hAllowed₂ : Protocol.correct.allows c₂ request₂ := by
    refine (h₂.tracks.allows_iff request₂).mpr ?_
    rw [← hAfter]
    exact (Tiling.allows_agree hRequests).mp ((h₁.tracks.allows_iff request₁).mp hAllowed₁)
  obtain ⟨c₁', hPerform₁, -⟩ := h₁.tracks.perform hAllowed₁ (hRoom₁ request₁)
  obtain ⟨c₂', hPerform₂, -⟩ := h₂.tracks.perform hAllowed₂ (hRoom₂ request₂)
  refine ⟨request₂, _, _, c₁', c₂', hCall₂, hAllowed₂, hPerform₁, hPerform₂, ?_⟩
  rw [← hAfter]
  exact (Tiling.serve_agree hRequests).1

end Client

/-- **Two runs of one script are alike** in regions of one size: the answers are the same up to the
distance of the regions, the totals are the same, and so are the chunks. Neither where the regions
are, nor what they hold at first, nor what the clients write, nor padding, nor the configuration
makes a difference. -/
theorem padded_runs_agree {s₁ s₁' s₂ s₂' : Store} {start₁ stop₁ start₂ stop₂ : Nat}
    {config₁ config₂ : Config} {script : List Instruction} {log₁ log₂ : List Exchange}
    (hBounds₁ : Region.ofBounds? start₁ stop₁ = .ok r₁)
    (hBounds₂ : Region.ofBounds? start₂ stop₂ = .ok r₂) (hSize : r₁.size = r₂.size)
    (hInit₁ : s₁.init start₁ stop₁ config₁ = .ok (.ok (), s₁'))
    (hInit₂ : s₂.init start₂ stop₂ config₂ = .ok (.ok (), s₂'))
    (hRun₁ : Client.PaddedRun ⟨s₁', []⟩ log₁ c₁) (hRun₂ : Client.PaddedRun ⟨s₂', []⟩ log₂ c₂)
    (hPlays₁ : Plays [] script log₁) (hPlays₂ : Plays [] script log₂) :
    Client.Alike r₁ r₂ log₁ log₂ c₁ c₂ := by
  obtain ⟨_, hBounds₁', hLaidOut₁⟩ := Store.laidOut_of_init hInit₁
  obtain ⟨_, hBounds₂', hLaidOut₂⟩ := Store.laidOut_of_init hInit₂
  obtain rfl := Except.ok.inj (hBounds₁.symm.trans hBounds₁')
  obtain rfl := Except.ok.inj (hBounds₂.symm.trans hBounds₂')
  -- both runs stay in step with one tiling
  have h₁ := hRun₁.continues (Client.tracks_of_laidOut hLaidOut₁)
  have h₂ := hRun₂.continues (Client.tracks_of_laidOut hLaidOut₂)
  rw [← hSize] at h₂
  obtain ⟨hAnswers, hAfter⟩ :=
    Tiling.script_agree script .nil hPlays₁ hPlays₂ h₁.answers h₂.answers
  have hReplay : Tiling.replay r₁ log₁ = Tiling.replay r₂ log₂ := by
    unfold Tiling.replay
    rw [← hSize, hAfter]
  have hLength : log₁.length = log₂.length := by
    simpa using hAnswers.length_eq
  refine ⟨hAnswers, ⟨_, hRun₁.stats_eq hLaidOut₁, ?_⟩, ⟨_, _, h₁.tracks.represents.chunks_eq,
    h₂.tracks.represents.chunks_eq, ?_⟩, fun hCalls => ?_, h₁.tracks.pathsMeet,
    h₂.tracks.pathsMeet⟩
  · have hGranted : tally _ log₁ = tally _ log₂ := countP_agree hAnswers fun _ _ h => h.kinds.1
    have hAccepted : tally _ log₁ = tally _ log₂ := countP_agree hAnswers fun _ _ h => h.kinds.2.1
    have hRefused : tally _ log₁ = tally _ log₂ := countP_agree hAnswers fun _ _ h => h.kinds.2.2
    rw [hRun₂.stats_eq hLaidOut₂, hGranted, hAccepted, hRefused, hReplay, hSize]
  · rw [hAfter]
    exact Tiling.chunks_agree hSize
  · refine h₁.canFollow h₂ hAnswers hAfter (hRun₁.hasRoom hLaidOut₁ hCalls) ?_
    have hRoom := hRun₂.hasRoom hLaidOut₂ (hLength ▸ hCalls)
    unfold Tiling.replay at hRoom
    rwa [← hSize] at hRoom

/-- One kibibyte at another base. -/
def Region.kibibyteAbove : Region :=
  { Region.kibibyte with
    base := 131088
    base_aligned := by decide
    stop_lt := by decide }

/-- A heap that trusts its callers and fills fresh payloads, in memory that is not blank, follows
one that does neither. -/
theorem padded_runs_agree_unchecked :
    ∃ s₁ s₂ log₁ log₂ c₁ c₂,
      Store.init ⟨Heap.empty, Memory.blank⟩ 65536 66560 .hardened = .ok (.ok (), s₁) ∧
      Store.init ⟨Heap.empty, Memory.blank.fill 131072 2048 0xEE⟩ 131080 132120
        (Config.unchecked.withFill 0xCC) = .ok (.ok (), s₂) ∧
      Client.PaddedRun ⟨s₁, []⟩ log₁ c₁ ∧ Client.PaddedRun ⟨s₂, []⟩ log₂ c₂ ∧
      requests log₁ = [.allocate 24, .allocateZeroed 100, .free 65600, .allocate 16] ∧
      requests log₂ = [.allocate 24, .allocateZeroed 100, .free 131152, .allocate 16] ∧
      Client.Alike .kibibyte .kibibyteAbove log₁ log₂ c₁ c₂ := by
  let script : List Instruction := [.allocate 24, .allocateZeroed 100, .free 0, .allocate 16]
  obtain ⟨s₁, hInit₁, hLaidOut₁⟩ := Store.init_kibibyte .hardened
  have hBounds₂ : Region.ofBounds? 131080 132120 = .ok .kibibyteAbove := rfl
  obtain ⟨s₂, hInit₂, hLaidOut₂⟩ := Store.init_spec
    (s := ⟨Heap.empty, Memory.blank.fill 131072 2048 0xEE⟩) (Config.unchecked.withFill 0xCC) rfl
    hBounds₂
  obtain ⟨log₁, c₁, hRun₁, hRequests₁⟩ := Client.Run.extend hLaidOut₁
    [.allocate 24, .allocateZeroed 100, .free 65600, .allocate 16] (.start trivial)
    (by decide +kernel) (by decide)
  obtain ⟨log₂, c₂, hRun₂, hRequests₂⟩ := Client.Run.extend hLaidOut₂
    [.allocate 24, .allocateZeroed 100, .free 131152, .allocate 16] (.start trivial)
    (by decide +kernel) (by decide)
  have hAnswers₁ := (Client.Run.tracks hLaidOut₁ hRun₁).2.1
  have hAnswers₂ := (Client.Run.tracks hLaidOut₂ hRun₂).2.1
  have hPlays₁ : Plays [] script log₁ := by
    rw [exchanges_eq log₁, hAnswers₁, hRequests₁]
    decide +kernel
  have hPlays₂ : Plays [] script log₂ := by
    rw [exchanges_eq log₂, hAnswers₂, hRequests₂]
    decide +kernel
  exact ⟨s₁, s₂, log₁, log₂, c₁, c₂, hInit₁, hInit₂, hRun₁.padded, hRun₂.padded, hRequests₁,
    hRequests₂, padded_runs_agree rfl rfl rfl hInit₁ hInit₂ hRun₁.padded hRun₂.padded hPlays₁
      hPlays₂⟩

end RegionHeap
