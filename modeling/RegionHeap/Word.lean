/-!
# Machine words

Addresses, sizes and counters are 64-bit words. They are kept as natural
numbers, and an operation that could leave the range of a word says so: its
result is a `Checked` value, which is a `Fault` when the word runs over.

Main definitions: `Fault`, `Checked`, `Word.add`, `Word.sub`, `Word.alignUp?`,
`Word.alignDown`.
-/

namespace RegionHeap

/-- What stops a computation for good, as opposed to an error that is handed to
the caller. -/
inductive Fault
  /-- A sum or a difference that is no 64-bit word. -/
  | overflow
  /-- A header or a ring link that would lie outside the region. -/
  | outOfRegion
  /-- A header or a ring link at an address that is not as aligned as its words are. -/
  | misaligned
  /-- What never ends: a walk that does not come back to where it started, or waiting
  for a lock that nobody gives back. -/
  | divergence
  deriving DecidableEq, Repr

/-- The result of a computation that may stop with a `Fault`. -/
abbrev Checked := Except Fault

-- ---------------------------------------------------------------------------
-- Running checked computations
-- ---------------------------------------------------------------------------

theorem ok_bind {α β : Type} (a : α) (f : α → Checked β) :
    ((Except.ok a : Checked α) >>= f) = f a := rfl

theorem pure_eq_ok {α : Type} (a : α) : (pure a : Checked α) = .ok a := rfl

/-- A computation in two steps gives a result if both steps do. -/
theorem bind_eq_ok_iff {α β : Type} {x : Checked α} {f : α → Checked β} {b : β} :
    x >>= f = .ok b ↔ ∃ a, x = .ok a ∧ f a = .ok b := by
  cases x with
  | error e => simp [bind, Except.bind]
  | ok a => simp [ok_bind]

-- ---------------------------------------------------------------------------
-- Sums and differences
-- ---------------------------------------------------------------------------

namespace Word

/-- One more than the largest word. -/
def limit : Nat := 1 <<< 64

/-- The sum of two words, if it is a word. -/
def add (a b : Nat) : Checked Nat :=
  if a + b < limit then .ok (a + b) else .error .overflow

/-- The difference of two words, if it is a word. -/
def sub (a b : Nat) : Checked Nat :=
  if b ≤ a then .ok (a - b) else .error .overflow

/-- The sum of a list of words, from left to right. -/
def sum (ns : List Nat) : Checked Nat := ns.foldlM add 0

-- ---------------------------------------------------------------------------
-- Alignment
-- ---------------------------------------------------------------------------

/-- Payloads and headers start at multiples of this many bytes. -/
def alignment : Nat := 16

/-- The largest multiple of `alignment` that is at most `n`. -/
def alignDown (n : Nat) : Nat := n / alignment * alignment

/-- The least multiple of `alignment` that is at least `n`; `none` when rounding
up passes the last word. -/
def alignUp? (n : Nat) : Option Nat :=
  if n + (alignment - 1) < limit then some (alignDown (n + (alignment - 1))) else none

/-- The least multiple of `align` that is at least `n`. -/
def roundUp (n align : Nat) : Nat := (n + align - 1) / align * align

theorem add_eq_ok_iff {a b c : Nat} : add a b = .ok c ↔ a + b = c ∧ c < limit := by
  unfold add
  split <;> simp <;> omega

theorem sub_eq_ok_iff {a b c : Nat} : sub a b = .ok c ↔ b ≤ a ∧ a - b = c := by
  unfold sub
  split <;> simp <;> omega

theorem alignDown_le (n : Nat) : alignDown n ≤ n := by
  unfold alignDown alignment
  omega

theorem alignDown_mod (n : Nat) : alignDown n % alignment = 0 := by
  unfold alignDown alignment
  omega

/-- Rounding up gives the least multiple of the alignment from `n` on, and fails
exactly when that multiple is no word. -/
theorem alignUp?_eq_some_iff {n a : Nat} :
    alignUp? n = some a ↔ n ≤ a ∧ a < n + alignment ∧ a % alignment = 0 ∧ a < limit := by
  unfold alignUp? alignDown alignment limit
  split <;> simp <;> omega

theorem alignUp?_eq_none_iff {n : Nat} : alignUp? n = none ↔ limit < n + alignment := by
  unfold alignUp? alignment
  split <;> simp <;> omega

end Word

end RegionHeap
