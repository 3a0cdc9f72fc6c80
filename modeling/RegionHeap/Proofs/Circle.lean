import Mathlib.Data.List.Chain
import Mathlib.Data.List.Nodup

/-!
# Closed lists with links both ways

The chain of chunks and the ring of every bin are the same thing in two places: a list
of offsets in which each member points to the one after it and back, and the last and
the first point at each other. A link is looked up with a function, so that nothing
here knows about memory.

* `circle_append_comm`: a circle has no first member.
* `Circle.delete`, `Circle.insert`: what two, respectively four, changed links do.
* `Circle.previous_next`, `Circle.next_previous`: links lead to members and back.
* `Circle.unique`: the order of the members determines their links.
* `Circle.nodup`: no member occurs twice, if the first does not.
-/

namespace RegionHeap

/-- `x` and `y` point at each other. -/
def Link (next previous : Nat → Nat) (x y : Nat) : Prop := next x = y ∧ previous y = x

/-- Every member points at the one after it and back, and the last at the first. -/
def Circle (next previous : Nat → Nat) : List Nat → Prop
  | [] => True
  | x :: rest => (x :: rest ++ [x]).IsChain (Link next previous)

variable {next previous next' previous' : Nat → Nat} {a o x y : Nat} {l l₁ l₂ : List Nat}

-- ---------------------------------------------------------------------------
-- Open lists
-- ---------------------------------------------------------------------------

/-- Links read `next` of all members but the last and `previous` of all but the first. -/
theorem isChain_link_congr :
    ∀ {l : List Nat}, l.IsChain (Link next previous) →
      (∀ x ∈ l.dropLast, next' x = next x) → (∀ x ∈ l.tail, previous' x = previous x) →
      l.IsChain (Link next' previous')
  | [], _, _, _ => List.isChain_nil
  | [x], _, _, _ => List.isChain_singleton x
  | x :: y :: rest, h, hNext, hPrevious => by
    rw [List.isChain_cons_cons] at h ⊢
    obtain ⟨⟨hxy, hyx⟩, hRest⟩ := h
    refine ⟨⟨?_, ?_⟩, isChain_link_congr hRest ?_ ?_⟩
    · rw [hNext x (by simp), hxy]
    · rw [hPrevious y (by simp), hyx]
    · intro z hz
      exact hNext z (by simpa using Or.inr hz)
    · intro z hz
      exact hPrevious z (by simpa using Or.inr hz)

/-- A circle reads the links of its members only. -/
theorem Circle.congr (h : Circle next previous l) (hNext : ∀ x ∈ l, next' x = next x)
    (hPrevious : ∀ x ∈ l, previous' x = previous x) : Circle next' previous' l := by
  cases l with
  | nil => trivial
  | cons x rest =>
    refine isChain_link_congr h ?_ ?_
    · intro y hy
      rw [List.dropLast_concat] at hy
      exact hNext y hy
    · intro y hy
      refine hPrevious y ?_
      have hMem : y ∈ rest ++ [x] := hy
      simp only [List.mem_append, List.mem_cons, List.not_mem_nil, or_false] at hMem ⊢
      exact hMem.symm

-- ---------------------------------------------------------------------------
-- Turning a circle
-- ---------------------------------------------------------------------------

/-- A circle can be read from any of its members. -/
theorem circle_append_comm :
    Circle next previous (l₁ ++ l₂) ↔ Circle next previous (l₂ ++ l₁) := by
  cases l₁ with
  | nil => simp
  | cons x xs =>
    cases l₂ with
    | nil => simp
    | cons y ys =>
      have hLeft : (x :: (xs ++ y :: ys) ++ [x]).IsChain (Link next previous) ↔
          (x :: xs ++ [y]).IsChain (Link next previous) ∧
            (y :: ys ++ [x]).IsChain (Link next previous) := by
        rw [show x :: (xs ++ y :: ys) ++ [x] = x :: xs ++ y :: (ys ++ [x]) by simp]
        exact List.isChain_split
      have hRight : (y :: (ys ++ x :: xs) ++ [y]).IsChain (Link next previous) ↔
          (y :: ys ++ [x]).IsChain (Link next previous) ∧
            (x :: xs ++ [y]).IsChain (Link next previous) := by
        rw [show y :: (ys ++ x :: xs) ++ [y] = y :: ys ++ x :: (xs ++ [y]) by simp]
        exact List.isChain_split
      exact hLeft.trans (and_comm.trans hRight.symm)

/-- The members in order from `o` on. -/
theorem circle_from_mem (h : Circle next previous l) (ho : o ∈ l) :
    ∃ before after, l = before ++ o :: after ∧ Circle next previous (o :: (after ++ before)) := by
  obtain ⟨before, after, rfl⟩ := List.append_of_mem ho
  exact ⟨before, after, rfl, circle_append_comm.mp h⟩

-- ---------------------------------------------------------------------------
-- Following links
-- ---------------------------------------------------------------------------

theorem Circle.link_head (h : Circle next previous (x :: y :: l)) : Link next previous x y :=
  (List.isChain_cons_cons.mp h).1

theorem Circle.link (h : Circle next previous (l₁ ++ x :: y :: l₂)) : Link next previous x y :=
  (circle_append_comm.mp h).link_head

theorem Circle.next_cons (h : Circle next previous (o :: l)) :
    next o = (l ++ [o]).head (by simp) := by
  cases l with
  | nil => exact (List.isChain_cons_cons.mp h).1.1
  | cons y rest => exact (List.isChain_cons_cons.mp h).1.1

/-- The chain from the second member on, closed by the first. -/
theorem Circle.chain_tail (h : Circle next previous (o :: l)) :
    (l ++ [o]).IsChain (Link next previous) := h.tail

theorem Circle.previous_cons_concat (h : Circle next previous (o :: (l ++ [x]))) :
    Link next previous x o := by
  have hChain : (l ++ x :: [o]).IsChain (Link next previous) := by
    simpa using h.chain_tail
  exact List.isChain_pair.mp (List.isChain_split.mp hChain).2

/-- The last member and the first point at each other. -/
theorem Circle.close (h : Circle next previous (l ++ [x])) :
    ∃ y rest, l ++ [x] = y :: rest ∧ Link next previous x y := by
  cases l with
  | nil => exact ⟨x, [], rfl, h.next_cons, (List.isChain_cons_cons.mp h).1.2⟩
  | cons y rest => exact ⟨y, rest ++ [x], rfl, h.previous_cons_concat⟩

/-- The first member points back at the last. -/
theorem Circle.exists_eq_concat (h : Circle next previous l) (hHead : l.head? = some x) :
    ∃ front, l = front ++ [previous x] := by
  rcases List.eq_nil_or_concat' l with rfl | ⟨front, z, rfl⟩
  · simp at hHead
  · obtain ⟨y, rest, hEq, hLink⟩ := h.close
    rw [hEq, List.head?_cons, Option.some_inj] at hHead
    exact ⟨front, by rw [← hHead, hLink.2]⟩

/-- The links of a circle lead back. -/
theorem Circle.previous_next (h : Circle next previous l) (hx : x ∈ l) :
    next x ∈ l ∧ previous (next x) = x := by
  obtain ⟨before, after, rfl, hTurned⟩ := circle_from_mem h hx
  cases hRest : after ++ before with
  | nil =>
    rw [hRest] at hTurned
    obtain ⟨hNext, hBack⟩ := (List.isChain_cons_cons.mp hTurned).1
    refine ⟨by simp [hNext], by rw [hNext, hBack]⟩
  | cons y rest =>
    rw [hRest] at hTurned
    obtain ⟨hNext, hBack⟩ := (List.isChain_cons_cons.mp hTurned).1
    have hMem : y ∈ after ++ before := by rw [hRest]; exact List.mem_cons_self
    refine ⟨?_, by rw [hNext, hBack]⟩
    rw [hNext, List.mem_append, List.mem_cons]
    rcases List.mem_append.mp hMem with h | h
    · exact Or.inr (Or.inr h)
    · exact Or.inl h

theorem Circle.next_previous (h : Circle next previous l) (hx : x ∈ l) :
    previous x ∈ l ∧ next (previous x) = x := by
  obtain ⟨before, after, rfl, hTurned⟩ := circle_from_mem h hx
  rcases List.eq_nil_or_concat' (after ++ before) with hNil | ⟨rest, y, hRest⟩
  · rw [hNil] at hTurned
    obtain ⟨hNext, hBack⟩ := (List.isChain_cons_cons.mp hTurned).1
    refine ⟨by simp [hBack], by rw [hBack, hNext]⟩
  · rw [hRest] at hTurned
    obtain ⟨hNext, hBack⟩ := hTurned.previous_cons_concat
    have hMem : y ∈ after ++ before := by rw [hRest]; simp
    refine ⟨?_, by rw [hBack, hNext]⟩
    rw [hBack, List.mem_append, List.mem_cons]
    rcases List.mem_append.mp hMem with h | h
    · exact Or.inr (Or.inr h)
    · exact Or.inl h

/-- The order of the members determines their links. -/
theorem Circle.unique (h : Circle next previous l) (h' : Circle next' previous' l) (hx : x ∈ l) :
    next x = next' x ∧ previous x = previous' x := by
  obtain ⟨before, after, rfl⟩ := List.append_of_mem hx
  have hTurned := circle_append_comm.mp h
  have hTurned' := circle_append_comm.mp h'
  rw [List.cons_append] at hTurned hTurned'
  refine ⟨by rw [hTurned.next_cons, hTurned'.next_cons], ?_⟩
  obtain ⟨front, hFront⟩ := hTurned.exists_eq_concat (x := x) rfl
  obtain ⟨front', hFront'⟩ := hTurned'.exists_eq_concat (x := x) rfl
  exact List.singleton_inj.mp (List.append_inj_right' (hFront.symm.trans hFront') rfl)

/-- Only the member of a circle of one points at itself. -/
theorem Circle.next_eq_self_iff (h : Circle next previous (o :: l)) (hNodup : (o :: l).Nodup) :
    next o = o ↔ l = [] := by
  rw [h.next_cons]
  cases l with
  | nil => simp
  | cons y rest =>
    have : y ≠ o := by
      rintro rfl
      simp at hNodup
    simpa using this

-- ---------------------------------------------------------------------------
-- Changing a circle
-- ---------------------------------------------------------------------------

/-- The first member of a circle is dropped, and its neighbours are made to point at each
other. -/
theorem Circle.delete_head (h : Circle next previous (o :: l)) (hNodup : (o :: l).Nodup)
    (hNext : ∀ x ∈ l, next' x = if x = previous o then next o else next x)
    (hPrevious : ∀ x ∈ l, previous' x = if x = next o then previous o else previous x) :
    Circle next' previous' l := by
  rcases List.eq_nil_or_concat' l with rfl | ⟨rest, z, rfl⟩
  · trivial
  · have hLast : Link next previous z o := h.previous_cons_concat
    cases hFront : rest ++ [z] with
    | nil => simp at hFront
    | cons y ys =>
      rw [hFront] at h hNodup
      have hHead : next o = y := h.next_cons
      -- the chain `y … z` is intact and `z` now leads to `y`
      show (y :: ys ++ [y]).IsChain (Link next' previous')
      rw [← hFront, List.append_assoc]
      show (rest ++ z :: [y]).IsChain (Link next' previous')
      rw [List.isChain_split]
      have hChain : (rest ++ [z]).IsChain (Link next previous) := by
        rw [hFront]
        exact List.IsChain.left_of_append h.chain_tail
      have hNodup' : (rest ++ [z]).Nodup := by
        rw [hFront]
        exact (List.nodup_cons.mp hNodup).2
      have hz : z ∉ rest := by
        intro hMem
        exact (List.nodup_append.mp hNodup').2.2 z hMem z (by simp) rfl
      refine ⟨isChain_link_congr hChain ?_ ?_, ?_⟩
      · intro x hx
        rw [List.dropLast_concat] at hx
        rw [hNext x (by simp [hx]), hLast.2, if_neg]
        rintro rfl
        exact hz hx
      · intro x hx
        rw [hFront, List.tail_cons] at hx
        have hxy : x ≠ y := by
          rintro rfl
          exact (List.nodup_cons.mp (List.nodup_cons.mp hNodup).2).1 hx
        rw [hPrevious x (by rw [hFront]; exact List.mem_cons_of_mem _ hx), hHead, if_neg hxy]
      · refine List.isChain_pair.mpr ⟨?_, ?_⟩
        · rw [hNext z (by simp), hLast.2, if_pos rfl, hHead]
        · rw [hPrevious y (by rw [hFront]; exact List.mem_cons_self), hHead, if_pos rfl, hLast.2]

/-- **Deletion.** The neighbours of `o` are made to point at each other; nothing else
changes. -/
theorem Circle.delete (h : Circle next previous (l₁ ++ o :: l₂)) (hNodup : (l₁ ++ o :: l₂).Nodup)
    (hNext : ∀ x ∈ l₁ ++ l₂, next' x = if x = previous o then next o else next x)
    (hPrevious : ∀ x ∈ l₁ ++ l₂, previous' x = if x = next o then previous o else previous x) :
    Circle next' previous' (l₁ ++ l₂) := by
  refine circle_append_comm.mp ((circle_append_comm.mp h).delete_head ?_ ?_ ?_)
  · exact List.nodup_append_comm.mp hNodup
  · intro x hx
    exact hNext x (List.mem_append.mpr (List.mem_append.mp hx).symm)
  · intro x hx
    exact hPrevious x (List.mem_append.mpr (List.mem_append.mp hx).symm)

/-- `o` is put after the first member of a circle. -/
theorem Circle.insert_head (h : Circle next previous (a :: l)) (hNodup : (a :: l).Nodup)
    (ho : next' o = next a ∧ previous' o = a)
    (hNext : ∀ x ∈ a :: l, next' x = if x = a then o else next x)
    (hPrevious : ∀ x ∈ a :: l, previous' x = if x = next a then o else previous x) :
    Circle next' previous' (a :: o :: l) := by
  show (a :: (o :: l) ++ [a]).IsChain (Link next' previous')
  have haNext : next' a = o := by rw [hNext a List.mem_cons_self, if_pos rfl]
  rw [List.cons_append, List.cons_append, List.isChain_cons_cons]
  refine ⟨⟨haNext, ho.2⟩, ?_⟩
  -- from `o` on: its successor is the old successor of `a`, and the rest is untouched
  cases l with
  | nil =>
    have hSelf : next a = a := h.next_cons
    refine List.isChain_pair.mpr ⟨by rw [ho.1, hSelf], ?_⟩
    rw [hPrevious a List.mem_cons_self, hSelf, if_pos rfl]
  | cons y ys =>
    have hHead : next a = y := h.next_cons
    rw [List.cons_append, List.isChain_cons_cons]
    refine ⟨⟨by rw [ho.1, hHead], ?_⟩, ?_⟩
    · rw [hPrevious y (by simp), hHead, if_pos rfl]
    · refine isChain_link_congr h.chain_tail ?_ ?_
      · intro x hx
        rw [← List.cons_append, List.dropLast_concat] at hx
        have hxa : x ≠ a := by
          rintro rfl
          exact (List.nodup_cons.mp hNodup).1 hx
        rw [hNext x (List.mem_cons_of_mem _ hx), if_neg hxa]
      · intro x hx
        have hMem : x ∈ ys ++ [a] := hx
        have hxy : x ≠ y := by
          rintro rfl
          rcases List.mem_append.mp hMem with h | h
          · exact (List.nodup_cons.mp (List.nodup_cons.mp hNodup).2).1 h
          · exact (List.nodup_cons.mp hNodup).1 (by simp [List.mem_singleton.mp h])
        have hx' : x ∈ a :: y :: ys := by
          rcases List.mem_append.mp hMem with h | h
          · simp [h]
          · simp [List.mem_singleton.mp h]
        rw [hPrevious x hx', hHead, if_neg hxy]

/-- **Insertion.** `o` is put between `a` and its successor; nothing else changes. -/
theorem Circle.insert (h : Circle next previous (l₁ ++ a :: l₂)) (hNodup : (l₁ ++ a :: l₂).Nodup)
    (ho : next' o = next a ∧ previous' o = a)
    (hNext : ∀ x ∈ l₁ ++ a :: l₂, next' x = if x = a then o else next x)
    (hPrevious : ∀ x ∈ l₁ ++ a :: l₂, previous' x = if x = next a then o else previous x) :
    Circle next' previous' (l₁ ++ a :: o :: l₂) := by
  refine circle_append_comm.mp ((circle_append_comm.mp h).insert_head ?_ ho ?_ ?_)
  · exact List.nodup_append_comm.mp hNodup
  · intro x hx
    exact hNext x (List.mem_append.mpr (List.mem_append.mp hx).symm)
  · intro x hx
    exact hPrevious x (List.mem_append.mpr (List.mem_append.mp hx).symm)

-- ---------------------------------------------------------------------------
-- Members that occur once
-- ---------------------------------------------------------------------------

/-- A circle that does not come by its first member early comes by every member once: two
places with the same member have the same places before them, back to the first one. -/
theorem Circle.nodup (h : Circle next previous (o :: l)) (hFirst : o ∉ l) : (o :: l).Nodup := by
  have hChain : (o :: l).IsChain (Link next previous) := List.IsChain.left_of_append h
  have hBack : ∀ (i : Nat) (hi : i + 1 < (o :: l).length),
      previous (o :: l)[i + 1] = (o :: l)[i] := by
    intro i hi
    exact (List.isChain_iff_getElem.mp hChain i hi).2
  have hDistinct : ∀ i j (hij : i < j) (hj : j < (o :: l).length),
      (o :: l)[i] ≠ (o :: l)[j] := by
    intro i
    induction i with
    | zero =>
      intro j hij hj hSame
      obtain ⟨j, rfl⟩ := Nat.exists_eq_add_of_lt hij
      refine hFirst ?_
      rw [show o = (o :: l)[0] from rfl, hSame]
      simp
    | succ i ih =>
      intro j hij hj hSame
      obtain ⟨j, rfl⟩ : ∃ n, j = n + 1 := ⟨j - 1, by omega⟩
      refine ih j (by omega) (by omega) ?_
      rw [← hBack i (by omega), ← hBack j hj, hSame]
  exact List.pairwise_iff_getElem.mpr fun i j _ hj hij => hDistinct i j hij hj

end RegionHeap
