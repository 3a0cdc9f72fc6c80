import Mathlib.Data.List.Forall2
import RegionHeap.Proofs.Edits
import RegionHeap.Report

/-!
# What a report tells

A report is a form that is filled in: between fixed words stand numbers of bytes and plain numbers.
Two forms that are filled in alike up to some place can only go on alike, because a number ends
where no digit comes and its unit is told by one letter. So the text tells every number that went
into it. The other question is what a writer keeps of the text. It has to be asked of every place
where the room may end, and of every way to cut the text into the pieces that are written.

* `digits_append_inj`, `byteCount_append_inj`: where a number ends in a text.
* `Part.append_inj`: parts of a form are told from its text.
* `Stats.figures`, `Figures.text`: what goes into a report, and the text that comes out.
* `Sink.writeAll_eq`: what a writer keeps of pieces.
* `report_tells_figures`: the report tells all its figures, and a writer keeps as much as it has
  room for.
-/

namespace RegionHeap

-- ---------------------------------------------------------------------------
-- Numbers in a text
-- ---------------------------------------------------------------------------

variable {m n : Nat} {s t : List Char}

/-- **A plain number** in a text ends where no digit comes. -/
theorem digits_append_inj (hs : ∀ c ∈ s.head?, c.isDigit = false)
    (ht : ∀ c ∈ t.head?, c.isDigit = false) (h : digits m ++ s = digits n ++ t) :
    m = n ∧ s = t := by
  have hDigits : digits m = digits n := by
    rw [← takeWhile_digits_append m hs, h, takeWhile_digits_append n ht]
  rw [hDigits] at h
  exact ⟨digits_injective hDigits, List.append_cancel_left h⟩

/-- What a number of bytes is shown in. -/
inductive ByteUnit
  | byte
  | kib
  | mib

namespace ByteUnit

/-- How many bytes the unit has. -/
def scale : ByteUnit → Nat
  | byte => 1
  | kib => 1024
  | mib => 1024 * 1024

/-- How the unit is written behind a number. -/
def mark : ByteUnit → List Char
  | byte => " B".toList
  | kib => " KiB".toList
  | mib => " MiB".toList

/-- The unit that a number of bytes is shown in. -/
def ofCount (n : Nat) : ByteUnit :=
  if mib.scale ≤ n ∧ n % mib.scale = 0 then mib
  else if kib.scale ≤ n ∧ n % kib.scale = 0 then kib
  else byte

/-- The unit divides the number, so nothing is rounded. -/
theorem scale_dvd (n : Nat) : (ofCount n).scale ∣ n := by
  unfold ofCount
  split
  · next h => exact Nat.dvd_of_mod_eq_zero h.2
  · split
    · next h => exact Nat.dvd_of_mod_eq_zero h.2
    · exact Nat.one_dvd n

theorem head?_mark (u : ByteUnit) : u.mark.head? = some ' ' := by
  cases u <;> rfl

/-- The letter after the blank tells the unit. -/
theorem mark_append_inj {u v : ByteUnit} (h : u.mark ++ s = v.mark ++ t) : u = v ∧ s = t := by
  cases u <;> cases v <;> simp_all [mark]

end ByteUnit

theorem byteCount_eq (n : Nat) : byteCount n =
    digits (n / (ByteUnit.ofCount n).scale) ++ (ByteUnit.ofCount n).mark := by
  by_cases hMib : ByteUnit.mib.scale ≤ n ∧ n % ByteUnit.mib.scale = 0
  · have hUnit : ByteUnit.ofCount n = .mib := if_pos hMib
    rw [hUnit]
    exact if_pos hMib
  · by_cases hKib : ByteUnit.kib.scale ≤ n ∧ n % ByteUnit.kib.scale = 0
    · have hUnit : ByteUnit.ofCount n = .kib := (if_neg hMib).trans (if_pos hKib)
      rw [hUnit]
      exact (if_neg hMib).trans (if_pos hKib)
    · have hUnit : ByteUnit.ofCount n = .byte := (if_neg hMib).trans (if_neg hKib)
      rw [hUnit, show ByteUnit.byte.scale = 1 from rfl, Nat.div_one]
      exact (if_neg hMib).trans (if_neg hKib)

/-- **A number of bytes** in a text ends with its unit, and is told exactly. -/
theorem byteCount_append_inj (h : byteCount m ++ s = byteCount n ++ t) : m = n ∧ s = t := by
  have hBlank : ∀ (u : ByteUnit) (rest : List Char), ∀ c ∈ (u.mark ++ rest).head?,
      c.isDigit = false := by
    intro u rest c hc
    rw [List.head?_append, u.head?_mark] at hc
    obtain rfl := Option.some.inj hc
    rfl
  rw [byteCount_eq, byteCount_eq, List.append_assoc, List.append_assoc] at h
  obtain ⟨hNumber, hRest⟩ := digits_append_inj (hBlank _ s) (hBlank _ t) h
  obtain ⟨hUnit, hst⟩ := ByteUnit.mark_append_inj hRest
  refine ⟨?_, hst⟩
  calc m = m / (ByteUnit.ofCount m).scale * (ByteUnit.ofCount m).scale :=
        (Nat.div_mul_cancel (ByteUnit.scale_dvd m)).symm
    _ = n / (ByteUnit.ofCount n).scale * (ByteUnit.ofCount n).scale := by rw [hNumber, hUnit]
    _ = n := Nat.div_mul_cancel (ByteUnit.scale_dvd n)

-- ---------------------------------------------------------------------------
-- Plain text
-- ---------------------------------------------------------------------------

/-- Every character of the text is one byte. -/
def Ascii (text : List Char) : Prop := ∀ c ∈ text, c.utf8Size = 1

instance (text : List Char) : Decidable (Ascii text) :=
  List.decidableBAll (fun c : Char => c.utf8Size = 1) text

theorem Ascii.append (hs : Ascii s) (ht : Ascii t) : Ascii (s ++ t) := by
  intro c hc
  rcases List.mem_append.mp hc with h | h
  · exact hs c h
  · exact ht c h

theorem ascii_digits (n : Nat) : Ascii (digits n) := by
  intro c hc
  obtain ⟨-, hNine⟩ := Char.isDigit_iff_toNat.mp (isDigit_of_mem_digits hc)
  refine Char.utf8Size_eq_one_iff.mpr (UInt32.le_iff_toNat_le.mpr ?_)
  exact Nat.le_trans hNine (by decide)

theorem ascii_byteCount (n : Nat) : Ascii (byteCount n) := by
  rw [byteCount_eq]
  refine (ascii_digits _).append ?_
  cases ByteUnit.ofCount n <;> decide +kernel

-- ---------------------------------------------------------------------------
-- Forms that are filled in
-- ---------------------------------------------------------------------------

/-- A part of a form. -/
inductive Part
  /-- Words that are always the same. -/
  | words (text : String)
  /-- A number of bytes, with its unit. -/
  | bytes (n : Nat)
  /-- A plain number. -/
  | count (n : Nat)

namespace Part

/-- The text of a part. -/
def text : Part → List Char
  | words text => text.toList
  | bytes n => byteCount n
  | count n => digits n

/-- The same part of a form, filled in twice. -/
inductive Alike : Part → Part → Prop
  | words (text : String) : Alike (words text) (words text)
  | bytes (m n : Nat) : Alike (bytes m) (bytes n)
  | count (m n : Nat) : Alike (count m) (count n)

/-- After a plain number come words that begin with a blank. -/
def Spaced : List Part → Prop
  | [] => True
  | count _ :: rest => (∃ text more, rest = words text :: more ∧ text.toList.head? = some ' ') ∧
      Spaced rest
  | _ :: rest => Spaced rest

variable {ps qs : List Part}

/-- A form that goes on with words that begin with a blank does not go on with a digit, however it
is filled in. -/
theorem head?_of_spaced (hSpaced : ∃ text more, ps = words text :: more ∧
    text.toList.head? = some ' ') (hAlike : List.Forall₂ Alike ps qs) (s t : List Char) :
    (∀ c ∈ (ps.flatMap text ++ s).head?, c.isDigit = false) ∧
      ∀ c ∈ (qs.flatMap text ++ t).head?, c.isDigit = false := by
  obtain ⟨mark, more, rfl, hBlank⟩ := hSpaced
  obtain ⟨q, qs, hFirst, -, rfl⟩ := List.forall₂_cons_left_iff.mp hAlike
  cases hFirst
  have hHead : ∀ (ps : List Part) (s : List Char),
      ∀ c ∈ ((words mark :: ps).flatMap text ++ s).head?, c.isDigit = false := by
    intro ps s c hc
    rw [List.flatMap_cons, List.append_assoc, List.head?_append,
      show (words mark).text.head? = some ' ' from hBlank] at hc
    obtain rfl := Option.some.inj hc
    rfl
  exact ⟨hHead more s, hHead qs t⟩

/-- **The parts of a form** are told from its text, whatever comes after it. -/
theorem append_inj (hAlike : List.Forall₂ Alike ps qs) (hSpaced : Spaced ps)
    (h : ps.flatMap text ++ s = qs.flatMap text ++ t) : ps = qs ∧ s = t := by
  induction hAlike with
  | nil => exact ⟨rfl, h⟩
  | @cons p q ps qs hFirst hRest ih =>
    rw [List.flatMap_cons, List.flatMap_cons, List.append_assoc, List.append_assoc] at h
    cases hFirst with
    | words =>
      obtain ⟨rfl, hst⟩ := ih hSpaced (List.append_cancel_left h)
      exact ⟨rfl, hst⟩
    | bytes =>
      obtain ⟨rfl, hMore⟩ := byteCount_append_inj h
      obtain ⟨rfl, hst⟩ := ih hSpaced hMore
      exact ⟨rfl, hst⟩
    | count =>
      obtain ⟨hs, ht⟩ := head?_of_spaced hSpaced.1 hRest s t
      obtain ⟨rfl, hMore⟩ := digits_append_inj hs ht h
      obtain ⟨rfl, hst⟩ := ih hSpaced.2 hMore
      exact ⟨rfl, hst⟩

end Part

-- ---------------------------------------------------------------------------
-- The text of a report
-- ---------------------------------------------------------------------------

/-- The figures that a report shows. -/
structure Figures where
  total : Nat
  used : Nat
  free : Nat
  chunks : Nat
  largest : Nat
  headers : Nat
  allocations : Nat
  live : Nat
  failed : Nat
  deriving DecidableEq

/-- What statistics come down to in a report. -/
def Stats.figures (stats : Stats) : Figures where
  total := stats.regionSize
  used := stats.usedBytes
  free := stats.freeBytes
  chunks := stats.freeChunks
  largest := stats.largestFree
  headers := stats.metaBytes + stats.sentinelBytes
  allocations := stats.allocations
  live := stats.liveAllocations
  failed := stats.failedAllocations

/-- The bytes of statistics add up to a word. -/
def Stats.Fits (stats : Stats) : Prop :=
  stats.freeBytes + stats.usedBytes + stats.metaBytes + stats.sentinelBytes < Word.limit

namespace Figures

variable {f g : Figures}

/-- The parts of the lines that every report has. -/
def lines (f : Figures) : List (List Part) :=
  [ [.words "Heap: ", .bytes f.total, .words " total\n"],
    [.words "  used:     ", .bytes f.used, .words "\n"],
    [.words "  free:     ", .bytes f.free, .words " in ", .count f.chunks,
      .words " chunks (largest ", .bytes f.largest, .words ")\n"],
    [.words "  meta:     ", .bytes f.headers, .words "\n"],
    [.words "  allocs:   ", .count f.allocations, .words " (", .count f.live, .words " live, ",
      .count f.failed, .words " failed)\n"] ]

/-- The parts of these lines, one after the other. -/
def parts (f : Figures) : List Part := f.lines.flatten

/-- The line that is there only if the bytes do not add up. -/
def warning (f : Figures) : List Char :=
  if f.free + f.used + f.headers = f.total then []
  else "  WARNING: byte totals do not add up\n".toList

/-- The text of a report. -/
def text (f : Figures) : List Char := f.parts.flatMap Part.text ++ f.warning

theorem alike_parts (f g : Figures) : List.Forall₂ Part.Alike f.parts g.parts := by
  unfold parts lines
  repeat' constructor

theorem spaced_parts (f : Figures) : Part.Spaced f.parts := by
  refine ⟨⟨_, _, rfl, rfl⟩, ⟨_, _, rfl, rfl⟩, ⟨_, _, rfl, rfl⟩, ⟨_, _, rfl, rfl⟩, trivial⟩

theorem ascii_parts (f : Figures) : ∀ p ∈ f.parts, Ascii p.text := by
  intro p hp
  cases p with
  | bytes n => exact ascii_byteCount n
  | count n => exact ascii_digits n
  | words text =>
    simp only [parts, lines, List.flatten_cons, List.flatten_nil, List.cons_append,
      List.nil_append, List.append_nil, List.mem_cons, Part.words.injEq, reduceCtorEq,
      List.not_mem_nil, or_false, false_or] at hp
    rcases hp with rfl | rfl | rfl | rfl | rfl | rfl | rfl | rfl | rfl | rfl | rfl | rfl | rfl | rfl
      <;> decide +kernel

/-- The text of a report is plain. -/
theorem ascii_text (f : Figures) : Ascii f.text := by
  refine Ascii.append (fun c hc => ?_) ?_
  · obtain ⟨p, hp, hText⟩ := List.mem_flatMap.mp hc
    exact f.ascii_parts p hp c hText
  · unfold warning
    split
    · exact fun c hc => absurd hc List.not_mem_nil
    · decide +kernel

/-- **The text tells the figures.** -/
theorem text_injective (h : f.text = g.text) : f = g := by
  obtain ⟨hParts, -⟩ := Part.append_inj (f.alike_parts g) f.spaced_parts h
  simp only [parts, lines, List.flatten_cons, List.flatten_nil, List.cons_append, List.nil_append,
    List.append_nil, List.cons.injEq, Part.bytes.injEq, Part.count.injEq, true_and, and_true]
    at hParts
  obtain ⟨hTotal, hUsed, hFree, hChunks, hLargest, hHeaders, hAllocations, hLive, hFailed⟩ := hParts
  cases f
  cases g
  simp_all

end Figures

-- ---------------------------------------------------------------------------
-- Writing it
-- ---------------------------------------------------------------------------

/-- **What a writer keeps** of pieces that are written one after the other is the beginning of all
of them together, as far as there is room. -/
theorem Sink.writeAll_eq (pieces : List (List Char)) (sink : Sink) :
    sink.writeAll (pieces.map .ok) = .ok (decide (pieces.flatten.length ≤ sink.room),
      { room := sink.room - pieces.flatten.length
        text := sink.text ++ pieces.flatten.take sink.room }) := by
  induction pieces generalizing sink with
  | nil => simp [writeAll, pure_eq_ok]
  | cons piece rest ih =>
    rw [List.map_cons, writeAll, ok_bind]
    by_cases hFits : piece.length ≤ sink.room
    · have hTake : (piece ++ rest.flatten).take sink.room =
          piece ++ rest.flatten.take (sink.room - piece.length) := by
        rw [List.take_append, List.take_of_length_le hFits]
      simp only [write, hFits, decide_true, if_true]
      rw [ih, List.flatten_cons, hTake, List.length_append, List.take_of_length_le hFits,
        List.append_assoc, Nat.sub_sub]
      simp only [show rest.flatten.length ≤ sink.room - piece.length ↔
        piece.length + rest.flatten.length ≤ sink.room by omega]
    · have hTake : (piece ++ rest.flatten).take sink.room = piece.take sink.room := by
        rw [List.take_append_of_le_length (by omega)]
      have hNot : ¬piece.length + rest.flatten.length ≤ sink.room := by omega
      simp only [write, hFits, decide_false, Bool.false_eq_true, if_false]
      rw [List.flatten_cons, hTake, List.length_append, decide_eq_false hNot,
        Nat.sub_eq_zero_of_le (by omega), Nat.sub_eq_zero_of_le (by omega)]
      rfl

namespace Stats

variable {stats : Stats}

theorem headerBytes_eq (h : stats.Fits) : stats.headerBytes = .ok stats.figures.headers := by
  unfold Fits at h
  refine Word.add_eq_ok_iff.mpr ⟨rfl, ?_⟩
  show stats.metaBytes + stats.sentinelBytes < Word.limit
  omega

/-- Adding up the bytes, from left to right, does not run over. -/
theorem isBalanced_eq (h : stats.Fits) : stats.isBalanced =
    .ok (stats.figures.free + stats.figures.used + stats.figures.headers ==
      stats.figures.total) := by
  have hSum : stats.freeBytes + stats.usedBytes + stats.metaBytes + stats.sentinelBytes =
      stats.figures.free + stats.figures.used + stats.figures.headers := by
    simp only [figures]
    omega
  have hTotal : Word.sum [stats.freeBytes, stats.usedBytes, stats.metaBytes, stats.sentinelBytes] =
      .ok (stats.figures.free + stats.figures.used + stats.figures.headers) := by
    refine Word.sum_eq_ok_iff.mpr ⟨?_, hSum ▸ h⟩
    rw [← hSum]
    simp only [List.sum_cons, List.sum_nil]
    omega
  rw [isBalanced, hTotal]
  rfl

/-- The lines of a report, none of which runs over, are its text. -/
theorem reportLines_eq (h : stats.Fits) :
    ∃ lines : List (List Char), stats.reportLines = lines.map .ok ∧
      lines.flatten = stats.figures.text := by
  have hWarning : (do
      if ← stats.isBalanced then return []
      else return "  WARNING: byte totals do not add up\n".toList) =
        (Except.ok stats.figures.warning : Checked (List Char)) := by
    rw [isBalanced_eq h, ok_bind, Figures.warning]
    simp only [beq_iff_eq]
    split <;> rfl
  refine ⟨stats.figures.lines.map (·.flatMap Part.text) ++ [stats.figures.warning], ?_, ?_⟩
  · unfold reportLines
    rw [headerBytes_eq h, hWarning]
    simp only [Figures.lines, List.map_cons, List.map_nil, List.cons_append, List.nil_append,
      List.flatMap_cons, List.flatMap_nil, List.append_nil, List.append_assoc, Part.text]
    rfl
  · have hLines : (stats.figures.lines.map (·.flatMap Part.text)).flatten =
        stats.figures.parts.flatMap Part.text := by
      rw [← List.flatMap_def, Figures.parts, ← List.flatMap_id, List.flatMap_assoc]
      rfl
    rw [List.flatten_append, hLines, List.flatten_singleton]
    rfl

/-- A text is the report of statistics: each of its characters is one byte, and a writer keeps as
many of them as it has room for. It may as well be written in any pieces. -/
structure Reports (stats : Stats) (text : List Char) : Prop where
  ascii : Ascii text
  writeReport : ∀ room, stats.writeReport (.ofRoom room) =
    .ok (decide (text.length ≤ room),
      { room := room - text.length, text := text.take room })
  writeAll : ∀ room (pieces : List (List Char)), pieces.flatten = text →
    (Sink.ofRoom room).writeAll (pieces.map .ok) = stats.writeReport (.ofRoom room)

/-- **The report** of statistics is the text of their figures. -/
theorem reports_text (h : stats.Fits) : stats.Reports stats.figures.text := by
  obtain ⟨lines, hLines, hText⟩ := reportLines_eq h
  have hWrite : ∀ room, stats.writeReport (.ofRoom room) =
      .ok (decide (stats.figures.text.length ≤ room),
        { room := room - stats.figures.text.length
          text := stats.figures.text.take room }) := by
    intro room
    rw [Stats.writeReport, hLines, Sink.writeAll_eq, hText]
    rfl
  refine ⟨stats.figures.ascii_text, hWrite, fun room pieces hPieces => ?_⟩
  rw [hWrite, Sink.writeAll_eq, hPieces]
  rfl

end Stats

/-- **A report tells all its figures.** Two reports are the same text exactly if their figures are
the same: numbers of bytes are never rounded, and header bytes are shown together. What a writer
keeps of a report is its beginning, as far as there is room, and the writing succeeds exactly if
there is room for all of it. -/
theorem report_tells_figures {a b : Stats} (ha : a.Fits) (hb : b.Fits) :
    ∃ s t, a.Reports s ∧ b.Reports t ∧
      (s = t ↔
        a.regionSize = b.regionSize ∧ a.usedBytes = b.usedBytes ∧ a.freeBytes = b.freeBytes ∧
        a.freeChunks = b.freeChunks ∧ a.largestFree = b.largestFree ∧
        a.metaBytes + a.sentinelBytes = b.metaBytes + b.sentinelBytes ∧
        a.allocations = b.allocations ∧ a.liveAllocations = b.liveAllocations ∧
        a.failedAllocations = b.failedAllocations) := by
  refine ⟨_, _, Stats.reports_text ha, Stats.reports_text hb, ?_⟩
  have hFigures : a.figures.text = b.figures.text ↔ a.figures = b.figures :=
    ⟨Figures.text_injective, fun h => by rw [h]⟩
  rw [hFigures]
  simp only [Stats.figures, Figures.mk.injEq]

/-- Two heaps that have taken back more than they gave, so that nothing is live in either, and in
which the bytes do not add up. Their header bytes are not the same, but their sums are, and so the
reports are. A third heap has one byte more in use. -/
theorem report_tells_figures_unbalanced :
    let a : Stats := ⟨2 ^ 20, 2 ^ 19, 1536, 96, 64, 5, 7, 1, 2, 2 ^ 18⟩
    let b : Stats := ⟨2 ^ 20, 2 ^ 19, 1536, 64, 96, 5, 9, 1, 2, 2 ^ 18⟩
    let c : Stats := ⟨2 ^ 20, 2 ^ 19, 1537, 96, 64, 5, 7, 1, 2, 2 ^ 18⟩
    a.Fits ∧ b.Fits ∧ c.Fits ∧ (∃ s, a.Reports s ∧ b.Reports s) ∧
      ∃ s t, a.Reports s ∧ c.Reports t ∧ s ≠ t := by
  intro a b c
  have ha : a.Fits := by unfold Stats.Fits; decide
  have hb : b.Fits := by unfold Stats.Fits; decide
  have hc : c.Fits := by unfold Stats.Fits; decide
  obtain ⟨s, t, hs, ht, hSame⟩ := report_tells_figures ha hb
  obtain ⟨u, v, hu, hv, hOther⟩ := report_tells_figures ha hc
  obtain rfl : s = t := hSame.mpr (by decide)
  exact ⟨ha, hb, hc, ⟨s, hs, ht⟩, u, v, hu, hv, fun h => absurd (hOther.mp h) (by decide)⟩

end RegionHeap
