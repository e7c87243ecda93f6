import Qdocdb.Lib.SlotList
import Qdocdb.Lib.While
import Qdocdb.Text

/-!
# Intersecting lists of link keys

`QDocUtils::multiply` erases from the list that it goes through, and goes on with the iterator
to the erased element. `QList::erase` moves the elements before that one up or those behind it
down, whichever are fewer. In the first case the iterator comes to the next element, in the
second it passes one element by, or the end of the list (`intersects_iff`).
-/

namespace Qdocdb
namespace QDocUtils

/-! ## The loop -/

section Loop

variable (movesUp : ℕ → ℕ → Bool) (b : List QByteArray)

/-- `QList::erase`. Which part is moved depends on how many elements stand before the erased one
and how many there are from it on. -/
def erase (a : SlotList QByteArray) (it : ℕ) : SlotList QByteArray :=
  if movesUp (it - a.start) (a.stop - it) then a.eraseUp it else a.eraseDown it

/-- `QList` of Qt 5 moves the part that is shorter. -/
def shorterPart (before behind : ℕ) : Bool := decide (before < behind)

/-- `ita != a.end()` -/
def notAtEnd (s : SlotList QByteArray × ℕ) : Bool := s.2 != s.1.stop

/-- `if (!b.contains(*ita)) a.erase(ita);` and `ita++` -/
def multiplyRound (s : SlotList QByteArray × ℕ) : Option (SlotList QByteArray × ℕ) :=
  some (if b.contains (s.1.slots s.2) then s.1 else erase movesUp s.1 s.2, s.2 + 1)

/-- The loop of `multiply`: the list and the iterator. Behind the end it reads and erases
whatever is there. -/
def multiplyWhile : ℕ → SlotList QByteArray × ℕ → Option (SlotList QByteArray × ℕ) :=
  whileLoop notAtEnd (multiplyRound movesUp b)

/-- The lists and iterators in which the loop tests for the end. -/
def MultiplyReaches : SlotList QByteArray × ℕ → SlotList QByteArray × ℕ → Prop :=
  WhileReaches notAtEnd (multiplyRound movesUp b)

/-- `multiply` keeps its iterator in the list, and returns the elements of `a` that occur in
`b`. -/
structure Intersects (a : SlotList QByteArray) : Prop where
  inBounds : ∀ s, MultiplyReaches movesUp b (a, a.start) s → s.2 ≤ s.1.stop
  returns : ∃ fuel s, multiplyWhile movesUp b fuel (a, a.start) = some s ∧
    s.1.toList = a.toList.filter (b.contains ·)

end Loop

/-! ## The loop as a sweep -/

variable {movesUp : ℕ → ℕ → Bool} {b : List QByteArray}

/-- What the loop makes of a list, from an iterator in it on: `kept` is before the iterator, the
others are not visited yet. When the elements behind an erased one are moved, the first of them
is not visited; nothing is left when there is none. -/
def sweep (movesUp : ℕ → ℕ → Bool) (b : List QByteArray) (kept : List QByteArray) :
    List QByteArray → Option (List QByteArray)
  | [] => some kept
  | x :: rest =>
    if b.contains x then sweep movesUp b (kept ++ [x]) rest
    else if movesUp kept.length (rest.length + 1) then sweep movesUp b kept rest
    else
      match rest with
      | [] => none
      | y :: rest => sweep movesUp b (kept ++ [y]) rest

section Sweep

variable {x y : QByteArray} {kept rest : List QByteArray}

theorem sweep_of_mem (hx : b.contains x = true) :
    sweep movesUp b kept (x :: rest) = sweep movesUp b (kept ++ [x]) rest := by
  rw [sweep.eq_def]
  exact if_pos hx

theorem sweep_of_up (hx : ¬ b.contains x = true)
    (hup : movesUp kept.length (rest.length + 1) = true) :
    sweep movesUp b kept (x :: rest) = sweep movesUp b kept rest := by
  rw [sweep.eq_def]
  exact (if_neg hx).trans (if_pos hup)

theorem sweep_singleton_of_down (hx : ¬ b.contains x = true)
    (hup : ¬ movesUp kept.length 1 = true) : sweep movesUp b kept [x] = none := by
  rw [sweep.eq_def]
  exact (if_neg hx).trans (if_neg hup)

theorem sweep_of_down (hx : ¬ b.contains x = true)
    (hup : ¬ movesUp kept.length (rest.length + 2) = true) :
    sweep movesUp b kept (x :: y :: rest) = sweep movesUp b (kept ++ [y]) rest := by
  rw [sweep.eq_def]
  exact (if_neg hx).trans (if_neg hup)

end Sweep

section Rounds

variable {l : SlotList QByteArray} {p : ℕ} {x y : QByteArray} {kept rest : List QByteArray}
  {s : SlotList QByteArray × ℕ} {r : List QByteArray}

/-- The loop ends in the list and leaves `r`. -/
def Ends (movesUp : ℕ → ℕ → Bool) (b : List QByteArray) (s : SlotList QByteArray × ℕ)
    (r : List QByteArray) : Prop :=
  (∀ t, MultiplyReaches movesUp b s t → t.2 ≤ t.1.stop) ∧
    ∃ fuel t, multiplyWhile movesUp b fuel s = some t ∧ t.1.toList = r

/-- The loop comes behind the end of the list and does not end. -/
def Leaves (movesUp : ℕ → ℕ → Bool) (b : List QByteArray) (s : SlotList QByteArray × ℕ) : Prop :=
  (∃ t, MultiplyReaches movesUp b s t ∧ t.1.stop < t.2) ∧
    ∀ fuel, multiplyWhile movesUp b fuel s = none

/-- The loop ends in one way. -/
theorem multiplyWhile_unique {fuel fuel' : ℕ} {t t' : SlotList QByteArray × ℕ}
    (h : multiplyWhile movesUp b fuel s = some t)
    (h' : multiplyWhile movesUp b fuel' s = some t') : t = t' := by
  have hmax := whileLoop_mono (Nat.le_max_left fuel fuel') h
  rw [whileLoop_mono (Nat.le_max_right fuel fuel') h'] at hmax
  exact (Option.some.inj hmax).symm

theorem notAtEnd_of_at (h : l.At p kept (x :: rest)) : notAtEnd (l, p) = true := by
  have hstop := h.stop_eq
  rw [List.length_cons] at hstop
  simp only [notAtEnd, bne_iff_ne]
  omega

theorem Ends.of_round (h : l.At p kept (x :: rest))
    (hbody : multiplyRound movesUp b (l, p) = some s) (hround : Ends movesUp b s r) :
    Ends movesUp b (l, p) r := by
  obtain ⟨hin, fuel, t, hloop, hr⟩ := hround
  refine ⟨fun t ht => ?_, fuel + 1, t, ?_, hr⟩
  · rcases ht.eq_or_of_round hbody with rfl | ht
    · exact h.stop_eq ▸ Nat.le_add_right _ _
    · exact hin t ht
  · exact (whileLoop_of_true (notAtEnd_of_at h) hbody fuel).trans hloop

theorem Leaves.of_round (h : l.At p kept (x :: rest))
    (hbody : multiplyRound movesUp b (l, p) = some s) (hround : Leaves movesUp b s) :
    Leaves movesUp b (l, p) := by
  have hcond := notAtEnd_of_at h
  obtain ⟨⟨t, ht, hout⟩, hloop⟩ := hround
  refine ⟨⟨t, ht.of_round hcond hbody, hout⟩, fun fuel => ?_⟩
  cases fuel with
  | zero => rfl
  | succ fuel => exact (whileLoop_of_true hcond hbody fuel).trans (hloop fuel)

/-- Nothing is left to visit. -/
theorem ends_of_at_nil (h : l.At p kept []) : Ends movesUp b (l, p) kept := by
  have hstop : l.stop = p := h.stop_eq
  have hcond : notAtEnd (l, p) = false := by simp [notAtEnd, hstop]
  refine ⟨fun t ht => ?_, 1, (l, p), whileLoop_of_false hcond 0, ?_⟩
  · rw [ht.eq_of_false hcond, hstop]
  · rw [h.toList_eq, List.append_nil]

/-- Behind the end there is no way back: the end moves up by one at most when an element is
erased, and the iterator by one in each round. -/
theorem leaves_of_stop_lt (h : s.1.stop < s.2) : Leaves movesUp b s := by
  refine ⟨⟨s, .start, h⟩, fun fuel => ?_⟩
  refine whileLoop_eq_none (P := fun s => s.1.stop < s.2) (fun s hs => ?_) (fun s s' hs hs' => ?_) h
    fuel
  · simp only [notAtEnd, bne_iff_ne]
    omega
  · obtain rfl := Option.some.inj hs'
    have hle : (erase movesUp s.1 s.2).stop ≤ s.1.stop + 1 := by
      rw [erase]
      split <;> simp only [SlotList.eraseUp, SlotList.eraseDown, SlotList.stop] <;> omega
    dsimp only
    split <;> omega

/-- A round at an element that occurs in `b`. -/
theorem multiplyRound_of_mem (movesUp : ℕ → ℕ → Bool) (h : l.At p kept (x :: rest))
    (hx : b.contains x = true) :
    multiplyRound movesUp b (l, p) = some (l, p + 1) := by
  rw [multiplyRound, h.read, if_pos hx]

/-- A round at an element that does not. -/
theorem multiplyRound_of_notMem (movesUp : ℕ → ℕ → Bool) (h : l.At p kept (x :: rest))
    (hx : ¬ b.contains x = true) :
    multiplyRound movesUp b (l, p) =
      some (if movesUp kept.length (rest.length + 1) then l.eraseUp p else l.eraseDown p,
        p + 1) := by
  have hbefore : p - l.start = kept.length := by have := h.start; omega
  have hbehind : l.stop - p = rest.length + 1 := by
    rw [h.stop_eq, List.length_cons]
    omega
  rw [multiplyRound, h.read, if_neg hx, erase, hbefore, hbehind]

/-- **The loop is the sweep**: it ends with what the sweep leaves, or it comes behind the end. By
induction on the elements that are not visited yet. -/
theorem ends_or_leaves (movesUp : ℕ → ℕ → Bool) (b kept rest : List QByteArray) :
    ∀ l p, SlotList.At l p kept rest →
      (∀ r, sweep movesUp b kept rest = some r → Ends movesUp b (l, p) r) ∧
        (sweep movesUp b kept rest = none → Leaves movesUp b (l, p)) := by
  induction kept, rest using sweep.induct movesUp b with
  | case1 kept =>
    intro l p h
    refine ⟨fun r hr => ?_, fun hr => by cases hr⟩
    obtain rfl := Option.some.inj hr
    exact ends_of_at_nil h
  | case2 kept x rest hx ih =>
    intro l p h
    have hbody := multiplyRound_of_mem movesUp h hx
    obtain ⟨hends, hleaves⟩ := ih l (p + 1) h.next
    rw [sweep_of_mem hx]
    exact ⟨fun r hr => (hends r hr).of_round h hbody, fun hr => (hleaves hr).of_round h hbody⟩
  | case3 kept x rest hx hup ih =>
    intro l p h
    have hbody := multiplyRound_of_notMem movesUp h hx
    rw [if_pos hup] at hbody
    obtain ⟨hends, hleaves⟩ := ih _ (p + 1) h.eraseUp
    rw [sweep_of_up hx hup]
    exact ⟨fun r hr => (hends r hr).of_round h hbody, fun hr => (hleaves hr).of_round h hbody⟩
  | case4 kept x hx hup =>
    intro l p h
    have hbody := multiplyRound_of_notMem movesUp h hx
    rw [if_neg hup] at hbody
    rw [sweep_singleton_of_down hx hup]
    refine ⟨fun r hr => (nomatch hr), fun _ => Leaves.of_round h hbody (leaves_of_stop_lt ?_)⟩
    exact h.eraseDown.stop_eq ▸ Nat.lt_succ_self p
  | case5 kept x hx y rest hup ih =>
    intro l p h
    have hbody := multiplyRound_of_notMem movesUp h hx
    rw [if_neg hup] at hbody
    -- the element behind the erased one is in its slot, and the iterator goes past it
    obtain ⟨hends, hleaves⟩ := ih _ (p + 1) h.eraseDown.next
    rw [sweep_of_down hx hup]
    exact ⟨fun r hr => (hends r hr).of_round h hbody, fun hr => (hleaves hr).of_round h hbody⟩

end Rounds

/-! ## When it intersects -/

/-- The elements that are missing in `b` are erased without harm, `kept` elements being kept
before: the elements before one are moved up, or the element behind it occurs in `b`. -/
def ErasesSafely (movesUp : ℕ → ℕ → Bool) (b : List QByteArray) (kept : ℕ)
    (a : List QByteArray) : Prop :=
  ∀ l x rest, a = l ++ x :: rest → x ∉ b →
    movesUp (kept + l.countP (b.contains ·)) (rest.length + 1) = true ∨
      ∃ y ∈ rest.head?, y ∈ b

section ErasesSafely

variable {k : ℕ} {x y : QByteArray} {kept rest r : List QByteArray}

theorem erasesSafely_nil : ErasesSafely movesUp b k [] := by
  intro l x rest h
  cases l <;> cases h

/-- What is safe behind the first element, and whether its own erasure is. -/
theorem erasesSafely_cons : ErasesSafely movesUp b k (x :: rest) ↔
    (x ∉ b → movesUp k (rest.length + 1) = true ∨ ∃ y ∈ rest.head?, y ∈ b) ∧
      ErasesSafely movesUp b (if b.contains x then k + 1 else k) rest := by
  have hcount : ∀ l : List QByteArray, k + (x :: l).countP (b.contains ·) =
      (if b.contains x then k + 1 else k) + l.countP (b.contains ·) := by
    intro l
    rw [List.countP_cons]
    split <;> omega
  constructor
  · intro h
    refine ⟨fun hx => h [] x rest rfl hx, fun l z rest' heq hz => ?_⟩
    rw [← hcount]
    exact h (x :: l) z rest' (by rw [heq]; rfl) hz
  · rintro ⟨hfirst, hrest⟩ l z rest' heq hz
    cases l with
    | nil =>
      obtain ⟨rfl, rfl⟩ := List.cons.inj heq
      exact hfirst hz
    | cons x' l =>
      obtain ⟨rfl, rfl⟩ := List.cons.inj heq
      rw [hcount]
      exact hrest l z rest' rfl hz

/-- What was kept stays in front. -/
theorem prefix_of_sweep (h : sweep movesUp b kept rest = some r) : kept <+: r := by
  induction kept, rest using sweep.induct movesUp b with
  | case1 kept => exact Option.some.inj h ▸ List.prefix_rfl
  | case2 kept x rest hx ih =>
    rw [sweep_of_mem hx] at h
    exact (List.prefix_append kept [x]).trans (ih h)
  | case3 kept x rest hx hup ih =>
    rw [sweep_of_up hx hup] at h
    exact ih h
  | case4 kept x hx hup =>
    rw [sweep_singleton_of_down hx hup] at h
    cases h
  | case5 kept x hx y rest hup ih =>
    rw [sweep_of_down hx hup] at h
    exact (List.prefix_append kept [y]).trans (ih h)

/-- **The sweep intersects** exactly when it erases safely. By induction on what is not visited
yet. -/
theorem sweep_eq_iff (movesUp : ℕ → ℕ → Bool) (b kept rest : List QByteArray) :
    sweep movesUp b kept rest = some (kept ++ rest.filter (b.contains ·)) ↔
      ErasesSafely movesUp b kept.length rest := by
  induction kept, rest using sweep.induct movesUp b with
  | case1 kept =>
    refine iff_of_true ?_ erasesSafely_nil
    rw [List.filter_nil, List.append_nil]
    rfl
  | case2 kept x rest hx ih =>
    have hmem : x ∈ b := List.contains_iff_mem.mp hx
    rw [sweep_of_mem hx, List.filter_cons_of_pos hx, erasesSafely_cons, if_pos hx,
      and_iff_right (absurd hmem)]
    rw [List.append_assoc, List.length_append, List.length_singleton] at ih
    exact ih
  | case3 kept x rest hx hup ih =>
    rw [sweep_of_up hx hup, List.filter_cons_of_neg hx, erasesSafely_cons, if_neg hx,
      and_iff_right fun _ => .inl hup]
    exact ih
  | case4 kept x hx hup =>
    have hnotMem : x ∉ b := mt List.contains_iff_mem.mpr hx
    rw [sweep_singleton_of_down hx hup, erasesSafely_cons]
    refine iff_of_false (fun h => by cases h) fun h => ?_
    rcases h.1 hnotMem with h | ⟨y, hy, -⟩
    · exact hup h
    · cases hy
  | case5 kept x hx y rest hup ih =>
    have hnotMem : x ∉ b := mt List.contains_iff_mem.mpr hx
    rw [sweep_of_down hx hup, List.filter_cons_of_neg hx, erasesSafely_cons, if_neg hx]
    by_cases hy : b.contains y = true
    · rw [List.filter_cons_of_pos hy, erasesSafely_cons, if_pos hy]
      have hymem : y ∈ b := List.contains_iff_mem.mp hy
      rw [List.append_assoc, List.length_append, List.length_singleton] at ih
      rw [and_iff_right fun _ => .inr ⟨y, rfl, hymem⟩, and_iff_right (absurd hymem)]
      exact ih
    · -- the element that was passed by is kept, though it is missing in `b`
      have hynotMem : y ∉ b := mt List.contains_iff_mem.mpr hy
      rw [List.filter_cons_of_neg hy]
      refine iff_of_false (fun h => ?_) fun h => ?_
      · have hprefix := prefix_of_sweep h
        rw [List.prefix_append_right_inj] at hprefix
        have hmem := hprefix.subset (List.mem_singleton_self y)
        exact hy (List.mem_filter.mp hmem).2
      · rcases h.1 hnotMem with h | ⟨z, hz, hzmem⟩
        · exact hup h
        · obtain rfl := Option.some.inj hz
          exact hynotMem hzmem

/-- An element that is missing in `b` is passed by, behind another one. -/
example : sweep shorterPart (["x", "w"].map bytes) [] (["x", "w", "y", "z"].map bytes) =
    some (["x", "w", "z"].map bytes) := by decide +kernel

end ErasesSafely

/-- **The list that the loop leaves**, wherever it is in memory, and whether it leaves one. -/
theorem sweep_eq_some_iff {a : SlotList QByteArray} {r : List QByteArray} :
    sweep movesUp b [] a.toList = some r ↔
      ∃ fuel s, multiplyWhile movesUp b fuel (a, a.start) = some s ∧ s.1.toList = r := by
  obtain ⟨hends, hleaves⟩ := ends_or_leaves movesUp b [] a.toList a a.start a.at_start
  constructor
  · exact fun hsweep => (hends r hsweep).2
  · rintro ⟨fuel, s, hloop, hr⟩
    cases hsweep : sweep movesUp b [] a.toList with
    | none =>
      rw [(hleaves hsweep).2 fuel] at hloop
      cases hloop
    | some r' =>
      obtain ⟨-, fuel', s', hloop', hr'⟩ := hends r' hsweep
      rw [← hr', ← hr, multiplyWhile_unique hloop hloop']

/-- **multiply** stays in its list and intersects it with `b` exactly when it erases safely. -/
theorem intersects_iff (movesUp : ℕ → ℕ → Bool) (b : List QByteArray)
    (a : SlotList QByteArray) :
    Intersects movesUp b a ↔ ErasesSafely movesUp b 0 a.toList := by
  have hreturns := @sweep_eq_some_iff movesUp b a (a.toList.filter (b.contains ·))
  rw [← List.length_nil (α := QByteArray), ← sweep_eq_iff movesUp b [] a.toList, List.nil_append]
  constructor
  · exact fun h => hreturns.mpr h.returns
  · intro hsweep
    have hends := (ends_or_leaves movesUp b [] a.toList a a.start a.at_start).1 _ hsweep
    exact ⟨hends.1, hends.2⟩

/-- The link keys `x` and `y`. -/
def linkKeysXY : SlotList QByteArray where
  slots q := if q = 0 then bytes "x" else bytes "y"
  start := 0
  length := 2

/-- The last element is missing: the iterator comes behind the end. -/
theorem not_intersects :
    ¬ ∀ (b : List QByteArray) (a : SlotList QByteArray), Intersects shorterPart b a := by
  intro h
  have hfirst : multiplyRound shorterPart [bytes "x"] (linkKeysXY, 0) = some (linkKeysXY, 1) := rfl
  have hsecond : multiplyRound shorterPart [bytes "x"] (linkKeysXY, 1) =
      some (linkKeysXY.eraseDown 1, 2) := rfl
  have hreach : MultiplyReaches shorterPart [bytes "x"] (linkKeysXY, 0)
      (linkKeysXY.eraseDown 1, 2) :=
    (WhileReaches.start.round (by decide) hfirst).round (by decide) hsecond
  have hin := (h [bytes "x"] linkKeysXY).inBounds _ hreach
  revert hin
  decide

end QDocUtils
end Qdocdb
