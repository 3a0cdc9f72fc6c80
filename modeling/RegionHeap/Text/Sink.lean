import RegionHeap.Word

/-!
# Writers with limited room

A sink keeps what is written to it until its room is used up. A text that does not
fit is kept as far as it goes, and the writing stops there.
-/

namespace RegionHeap

/-- A writer that has room for some more characters. -/
structure Sink where
  room : Nat
  text : List Char
  deriving DecidableEq, Repr

namespace Sink

/-- A fresh writer. -/
def ofRoom (room : Nat) : Sink := { room := room, text := [] }

/-- Writes a text as far as there is room; the answer says whether all of it fitted. -/
def write (sink : Sink) (text : List Char) : Bool × Sink :=
  (text.length ≤ sink.room,
    { room := sink.room - text.length, text := sink.text ++ text.take sink.room })

/-- Writes one text after the other and stops at the first that does not fit. A text is
worked out only when everything before it has been written. -/
def writeAll (sink : Sink) : List (Checked (List Char)) → Checked (Bool × Sink)
  | [] => return (true, sink)
  | text :: rest => do
    let (fits, sink) := sink.write (← text)
    if fits then sink.writeAll rest else return (false, sink)

end Sink

end RegionHeap
