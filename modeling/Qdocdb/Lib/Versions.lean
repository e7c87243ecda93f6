import Mathlib.Order.Lattice
import Mathlib.Tactic.Common

/-!
# Multi-version histories

A `History α` says what is stored under each version number of one item: nothing,
a tombstone, or a value. A reader at version `s` sees the newest entry not above
`s`; a tombstone hides what is below it.

Three operations on histories matter to a store with numbered snapshots: a write
at the top, truncation above a version, and **removal of a version number**,
which renumbers everything above it. `RemovedAt` describes the renumbering of an
implementation that turns a tombstone into the absence of a version, and
`RemovedAt.view_iff` says exactly when it is right.
-/

universe u

/-- What is stored under each version number: nothing, a tombstone (`some none`)
or a value. -/
abbrev History (α : Type u) : Type u := ℕ → Option (Option α)

namespace History

variable {α : Type u}

/-- The newest entry whose number is at most `s`. -/
def newest (h : History α) : ℕ → Option (Option α)
  | 0 => h 0
  | s + 1 => (h (s + 1)).or (newest h s)

/-- What a reader at version `s` sees. -/
def view (h : History α) (s : ℕ) : Option α := (h.newest s).join

/-! ## The newest entry -/

theorem newest_of_some {h : History α} {s : ℕ} {e : Option α} (he : h s = some e) :
    h.newest s = some e := by
  cases s with
  | zero => exact he
  | succ s => rw [newest, he, Option.some_or]

theorem newest_succ_of_none {h : History α} {s : ℕ} (he : h (s + 1) = none) :
    h.newest (s + 1) = h.newest s := by
  rw [newest, he, Option.none_or]

/-- The newest entry only depends on the numbers up to the reader's. -/
theorem newest_congr {h h' : History α} {s : ℕ} (he : ∀ t ≤ s, h t = h' t) :
    h.newest s = h'.newest s := by
  induction s with
  | zero => exact he 0 le_rfl
  | succ s ih => rw [newest, newest, he (s + 1) le_rfl, ih fun t ht => he t (by omega)]

theorem newest_eq_none_iff {h : History α} {s : ℕ} :
    h.newest s = none ↔ ∀ t ≤ s, h t = none := by
  induction s with
  | zero => exact ⟨fun he t ht => by rwa [Nat.le_zero.mp ht], fun he => he 0 le_rfl⟩
  | succ s ih =>
    rw [newest, Option.or_eq_none_iff, ih]
    constructor
    · rintro ⟨hs, hlt⟩ t ht
      rcases Nat.le_succ_iff.mp ht with ht | rfl
      · exact hlt t ht
      · exact hs
    · exact fun he => ⟨he (s + 1) le_rfl, fun t ht => he t (by omega)⟩

theorem newest_eq_some_iff {h : History α} {s : ℕ} {e : Option α} :
    h.newest s = some e ↔ ∃ t ≤ s, h t = some e ∧ ∀ t', t < t' → t' ≤ s → h t' = none := by
  induction s with
  | zero =>
    constructor
    · exact fun he => ⟨0, le_rfl, he, fun t' h0 h1 => by omega⟩
    · rintro ⟨t, ht, he, -⟩
      obtain rfl : t = 0 := Nat.le_zero.mp ht
      exact he
  | succ s ih =>
    rcases hs : h (s + 1) with - | e'
    · rw [newest_succ_of_none hs, ih]
      constructor
      · rintro ⟨t, ht, he, hab⟩
        refine ⟨t, by omega, he, fun t' h0 h1 => ?_⟩
        rcases Nat.le_succ_iff.mp h1 with h1 | rfl
        · exact hab t' h0 h1
        · exact hs
      · rintro ⟨t, ht, he, hab⟩
        have hts : t ≠ s + 1 := by
          rintro rfl
          rw [hs] at he
          cases he
        exact ⟨t, by omega, he, fun t' h0 h1 => hab t' h0 (by omega)⟩
    · rw [newest_of_some hs]
      constructor
      · rintro ⟨⟩
        exact ⟨s + 1, le_rfl, hs, fun t' h0 h1 => by omega⟩
      · rintro ⟨t, ht, he, hab⟩
        rcases Nat.lt_or_ge t (s + 1) with hlt | hge
        · rw [hab (s + 1) hlt le_rfl] at hs
          cases hs
        · obtain rfl : t = s + 1 := by omega
          rw [← hs, he]

/-! ## What a reader sees -/

theorem view_of_some {h : History α} {s : ℕ} {e : Option α} (he : h s = some e) :
    h.view s = e := by
  rw [view, newest_of_some he, Option.join_some]

theorem view_succ_of_none {h : History α} {s : ℕ} (he : h (s + 1) = none) :
    h.view (s + 1) = h.view s := by
  rw [view, view, newest_succ_of_none he]

theorem view_congr {h h' : History α} {s : ℕ} (he : ∀ t ≤ s, h t = h' t) :
    h.view s = h'.view s := by
  rw [view, view, newest_congr he]

/-- Two readers see the same when there is no entry between them. -/
theorem view_eq_of_forall_none {h : History α} {s s' : ℕ} (hs : s ≤ s')
    (he : ∀ t, s < t → t ≤ s' → h t = none) : h.view s' = h.view s := by
  induction s', hs using Nat.le_induction with
  | base => rfl
  | succ s' hs ih =>
    rw [view_succ_of_none (he (s' + 1) (by omega) le_rfl),
      ih fun t ht hts => he t ht (by omega)]

theorem view_eq_none_of_forall {h : History α} {s : ℕ} (he : ∀ t ≤ s, h t = none) :
    h.view s = none := by
  rw [view, newest_eq_none_iff.mpr he, Option.join_none]

/-- A value that is seen after entries were added or replaced was seen before, or is one of
the new ones. -/
theorem view_eq_some_cases {h h' : History α} {P : α → Prop} (hkept : ∀ t, h' t = none → h t = none)
    (hnew : ∀ t v, h' t = some (some v) → h t = some (some v) ∨ P v) {s : ℕ} {v : α}
    (hv : h'.view s = some v) : h.view s = some v ∨ P v := by
  rw [view, Option.join_eq_some_iff, newest_eq_some_iff] at hv
  obtain ⟨t, hts, ht, habove⟩ := hv
  refine (hnew t v ht).imp_left fun hold => ?_
  have hnewest : h.newest s = some (some v) :=
    newest_eq_some_iff.mpr ⟨t, hts, hold, fun t' h0 h1 => hkept t' (habove t' h0 h1)⟩
  rw [view, hnewest, Option.join_some]

/-! ## Removing a version number -/

/-- `g` arises from `h` by removing the version number `i`: entries below `i`
stay, a value numbered `t + 1` above `i` is renumbered to `t`, a tombstone
numbered `t + 1` clears `t`, and where `t + 1` holds nothing the entry at `t`
stays, except that the top one may be cleared. -/
structure RemovedAt (i : ℕ) (h g : History α) : Prop where
  below : ∀ t < i, g t = h t
  moved : ∀ t v, i ≤ t → h (t + 1) = some (some v) → g t = some (some v)
  cleared : ∀ t, i ≤ t → h (t + 1) = some none → g t = none
  kept : ∀ t, i ≤ t → h (t + 1) = none → g t = h t ∨ i < t ∧ g t = none

/-- The tombstone numbered `t` hides nothing that survives the removal of `i < t`:
whoever reads just below it (below `i` when `t = i + 1`) sees no value. -/
def HidesNothing (h : History α) (i t : ℕ) : Prop :=
  if t = i + 1 then ∀ j, i = j + 1 → h.view j = none else ∀ j, t = j + 1 → h.view j = none

theorem RemovedAt.view_lt {i : ℕ} {h g : History α} (hr : RemovedAt i h g) {j : ℕ} (hj : j < i) :
    g.view j = h.view j :=
  view_congr fun t ht => hr.below t (by omega)

/-- Where the tombstones above `i` hide nothing, a reader at `j ≥ i` sees what a
reader at `j + 1` saw. By induction on `j`: the entry at `j` is the old one at
`j + 1`, or both readers fall through to the entries below. -/
theorem RemovedAt.view_eq {i : ℕ} {h g : History α} (hr : RemovedAt i h g)
    (hc : ∀ t, i < t → h t = some none → h.HidesNothing i t) :
    ∀ j, i ≤ j → g.view j = h.view (j + 1) := by
  intro j hij
  induction j, hij using Nat.le_induction with
  | base =>
    rcases ht : h (i + 1) with - | - | v
    · -- nothing at `i + 1`: the entry at `i` stays
      rw [view_succ_of_none ht]
      refine view_congr fun t hti => ?_
      rcases Nat.lt_or_ge t i with hlt | hge
      · exact hr.below t hlt
      · obtain rfl : t = i := by omega
        rcases hr.kept t le_rfl ht with hk | ⟨hk, -⟩
        · exact hk
        · omega
    · -- a tombstone at `i + 1`: the reader falls through to what is below `i`
      have hclear := hr.cleared i le_rfl ht
      have hnone := hc (i + 1) (by omega) ht
      rw [HidesNothing, if_pos rfl] at hnone
      rw [view_of_some ht]
      cases i with
      | zero => exact view_eq_none_of_forall fun t ht0 => by rwa [Nat.le_zero.mp ht0]
      | succ i => rw [view_succ_of_none hclear, hr.view_lt (by omega), hnone i rfl]
    · rw [view_of_some ht, view_of_some (hr.moved i v le_rfl ht)]
  | succ j hij ih =>
    rcases ht : h (j + 2) with - | - | v
    · rw [view_succ_of_none ht]
      rcases hg : g (j + 1) with - | e
      · rw [view_succ_of_none hg, ih]
      · rcases hr.kept (j + 1) (by omega) ht with hk | ⟨-, hk⟩
        · rw [view_of_some hg, view_of_some (hk ▸ hg)]
        · rw [hk] at hg
          cases hg
    · have hnone := hc (j + 2) (by omega) ht
      rw [HidesNothing, if_neg (by omega)] at hnone
      rw [view_succ_of_none (hr.cleared (j + 1) (by omega) ht), ih, hnone (j + 1) rfl,
        view_of_some ht]
    · rw [view_of_some ht, view_of_some (hr.moved (j + 1) v (by omega) ht)]

/-- **Exactness of the renumbering**: after removing `i`, every reader sees what it
saw under its old number if and only if no tombstone above `i` hides a value that
survives. -/
theorem RemovedAt.view_iff {i : ℕ} {h g : History α} (hr : RemovedAt i h g) :
    (∀ j, i ≤ j → g.view j = h.view (j + 1)) ↔
      ∀ t, i < t → h t = some none → h.HidesNothing i t := by
  refine ⟨fun hv t hit ht => ?_, hr.view_eq⟩
  obtain ⟨j, rfl⟩ : ∃ j, t = j + 1 := ⟨t - 1, by omega⟩
  have hclear := hr.cleared j (by omega) ht
  have hj := hv j (by omega)
  rw [view_of_some ht] at hj
  rw [HidesNothing]
  split
  · -- the tombstone directly above `i`: the reader at `i` falls through below `i`
    rename_i hji
    obtain rfl : j = i := by omega
    rintro k rfl
    rw [← hr.view_lt (Nat.lt_succ_self k), ← view_succ_of_none hclear, hj]
  · rename_i hji
    intro k hk
    obtain rfl : k = j := by omega
    obtain ⟨k', rfl⟩ : ∃ k', k = k' + 1 := ⟨k - 1, by omega⟩
    rw [← hv k' (by omega), ← view_succ_of_none hclear, hj]

end History
