import Mathlib.Data.List.Basic

/-!
# Lists in slots

The elements of a `SlotList` stand in the slots from `start` on, and a position in it is the
number of a slot, which may also be the one behind the last element (`stop`). To erase the
element at a position, the elements before it are moved up by one slot (`eraseUp`), or the ones
behind it are moved down (`eraseDown`). The position itself stays, so it is then behind the
elements before the erased one, or it is at the element that stood behind it (`At.eraseUp`,
`At.eraseDown`).
-/

universe u

/-- A list that fills `length` slots. -/
structure SlotList (α : Type u) where
  slots : ℕ → α
  start : ℕ
  length : ℕ

namespace SlotList

variable {α : Type u}

/-- The position behind the last element. -/
def stop (l : SlotList α) : ℕ := l.start + l.length

def toList (l : SlotList α) : List α := (List.range' l.start l.length).map l.slots

/-- Erase the element at `p`: those before it are moved up. -/
def eraseUp (l : SlotList α) (p : ℕ) : SlotList α where
  slots q := if l.start < q ∧ q ≤ p then l.slots (q - 1) else l.slots q
  start := l.start + 1
  length := l.length - 1

/-- Erase the element at `p`: those behind it are moved down. -/
def eraseDown (l : SlotList α) (p : ℕ) : SlotList α where
  slots q := if p ≤ q ∧ q + 1 < l.stop then l.slots (q + 1) else l.slots q
  start := l.start
  length := l.length - 1

/-! ## Positions -/

/-- The elements before the position are `before`, the ones from it on are `behind`. -/
structure At (l : SlotList α) (p : ℕ) (before behind : List α) : Prop where
  start : l.start + before.length = p
  length : l.length = before.length + behind.length
  before_eq : ∀ i (h : i < before.length), l.slots (l.start + i) = before[i]
  behind_eq : ∀ i (h : i < behind.length), l.slots (p + i) = behind[i]

variable {l : SlotList α} {p : ℕ} {x : α} {before behind : List α}

@[simp] theorem length_toList (l : SlotList α) : l.toList.length = l.length := by
  rw [toList, List.length_map, List.length_range']

theorem getElem_toList {i : ℕ} (h : i < l.toList.length) :
    l.toList[i] = l.slots (l.start + i) := by
  simp only [toList, List.getElem_map, List.getElem_range', Nat.one_mul]

/-- A list is read off from any position in it. -/
theorem At.toList_eq (h : l.At p before behind) : l.toList = before ++ behind := by
  refine List.ext_getElem ?_ fun i hi hi' => ?_
  · rw [length_toList, h.length, List.length_append]
  · rw [getElem_toList]
    by_cases hlt : i < before.length
    · rw [List.getElem_append_left hlt, h.before_eq i hlt]
    · rw [List.getElem_append_right (Nat.le_of_not_lt hlt), ← h.behind_eq]
      congr 1
      have := h.start
      omega

theorem At.stop_eq (h : l.At p before behind) : l.stop = p + behind.length := by
  rw [stop, h.length, ← h.start, Nat.add_assoc]

/-- The position in front of the list. -/
theorem at_start (l : SlotList α) : l.At l.start [] l.toList where
  start := rfl
  length := by rw [length_toList, List.length_nil, Nat.zero_add]
  before_eq i h := by cases h
  behind_eq i h := (getElem_toList h).symm

theorem At.read (h : l.At p before (x :: behind)) : l.slots p = x :=
  h.behind_eq 0 (Nat.zero_lt_succ _)

/-- One element further. -/
theorem At.next (h : l.At p before (x :: behind)) : l.At (p + 1) (before ++ [x]) behind where
  start := by rw [List.length_append, List.length_singleton, ← Nat.add_assoc, h.start]
  length := by
    rw [h.length, List.length_append, List.length_singleton, List.length_cons]
    omega
  before_eq i hi := by
    rw [List.length_append, List.length_singleton] at hi
    by_cases hlt : i < before.length
    · rw [List.getElem_append_left hlt, h.before_eq i hlt]
    · obtain rfl : i = before.length := by omega
      rw [List.getElem_concat_length rfl, h.start, h.read]
  behind_eq i hi := by
    rw [Nat.add_assoc, Nat.add_comm 1 i]
    exact h.behind_eq (i + 1) (Nat.succ_lt_succ hi)

/-- When the elements before it were moved up, the next position is at the element that stood
behind the erased one. -/
theorem At.eraseUp (h : l.At p before (x :: behind)) :
    (l.eraseUp p).At (p + 1) before behind where
  start := by
    show l.start + 1 + before.length = p + 1
    rw [← h.start]
    omega
  length := by
    rw [SlotList.eraseUp, h.length, List.length_cons]
    rfl
  before_eq i hi := by
    have hstart := h.start
    have hmoved : l.start < l.start + 1 + i ∧ l.start + 1 + i ≤ p := by omega
    have hfrom : l.start + 1 + i - 1 = l.start + i := by omega
    rw [SlotList.eraseUp]
    dsimp only
    rw [if_pos hmoved, hfrom, h.before_eq i hi]
  behind_eq i hi := by
    rw [SlotList.eraseUp]
    dsimp only
    rw [if_neg (by omega), Nat.add_assoc, Nat.add_comm 1 i]
    exact h.behind_eq (i + 1) (Nat.succ_lt_succ hi)

/-- When the elements behind it were moved down, the position is at the first of them. -/
theorem At.eraseDown (h : l.At p before (x :: behind)) :
    (l.eraseDown p).At p before behind where
  start := h.start
  length := by
    rw [SlotList.eraseDown, h.length, List.length_cons]
    rfl
  before_eq i hi := by
    have hstart := h.start
    rw [SlotList.eraseDown]
    dsimp only
    rw [if_neg (by omega), h.before_eq i hi]
  behind_eq i hi := by
    have hstop : p + i + 1 < l.stop := by
      rw [h.stop_eq, List.length_cons]
      omega
    rw [SlotList.eraseDown]
    dsimp only
    rw [if_pos ⟨by omega, hstop⟩]
    exact h.behind_eq (i + 1) (Nat.succ_lt_succ hi)

end SlotList
