import Qdocdb.Lib.SortedMap

/-!
# Loops over an ordered map that changes

An iterator of an ordered map stays valid when bindings are added, and comes to the least key
behind its own. `iterate` is a loop over the map of a state whose body may change that map:
a binding that is added behind the iterator is not visited, and one in front of it is. What
the body keeps holds at the end (`iterate_invariant`), and the loop ends when the keys can
increase only finitely often (`exists_iterate`).
-/

universe u v w

namespace SortedMap

variable {K : Type u} {V : Type v} {σ : Type w} [LinearOrder K]

/-- The key is in front of an iterator that has passed the key `passed`, or none yet. -/
def Ahead : Option K → K → Prop
  | none, _ => True
  | some passed, k => passed < k

instance (passed : Option K) (k : K) : Decidable (Ahead passed k) :=
  match passed with
  | none => isTrue trivial
  | some passed => inferInstanceAs (Decidable (passed < k))

theorem Ahead.trans {passed : Option K} {k k' : K} (h : Ahead passed k) (hlt : k < k') :
    Ahead passed k' := by
  cases passed with
  | none => trivial
  | some passed => exact lt_trans h hlt

/-- The binding that the iterator comes to next. -/
def next (m : SortedMap K V) (passed : Option K) : Option (K × V) :=
  m.entries.find? fun e => Ahead passed e.1

/-- `for (it = begin(); it != end(); it++)`. The fuel bounds the rounds: `none` says that it
did not suffice. -/
def iterate (table : σ → SortedMap K V) (body : σ → K → V → σ) : ℕ → Option K → σ → Option σ
  | 0, _, _ => none
  | fuel + 1, passed, s =>
    match (table s).next passed with
    | some (k, v) => iterate table body fuel (some k) (body s k v)
    | none => some s

variable {m : SortedMap K V} {passed : Option K}

theorem next_eq_some_iff {k : K} {v : V} :
    m.next passed = some (k, v) ↔ m.find? k = some v ∧ Ahead passed k ∧
      ∀ k', m.find? k' ≠ none → Ahead passed k' → k ≤ k' := by
  rw [next, find?_entries_eq_some_iff, find?_eq_some_iff, decide_eq_true_eq]
  refine and_congr_right fun _ => and_congr_right fun _ =>
    ⟨fun h k' hk' hlt => ?_, fun h e he hlt => ?_⟩
  · obtain ⟨v', hv'⟩ := Option.ne_none_iff_exists'.mp hk'
    exact h (k', v') (find?_eq_some_iff.mp hv') (decide_eq_true hlt)
  · exact h e.1 (by simp [find?_eq_some_iff.mpr he]) (of_decide_eq_true hlt)

theorem next_eq_none_iff :
    m.next passed = none ↔ ∀ k, Ahead passed k → m.find? k = none := by
  rw [next, List.find?_eq_none]
  constructor
  · intro h k hlt
    exact find?_eq_none_iff.mpr fun v hv => h (k, v) hv (decide_eq_true hlt)
  · intro h e he hlt
    exact find?_eq_none_iff.mp (h e.1 (of_decide_eq_true hlt)) e.2 he

variable {table : σ → SortedMap K V} {body : σ → K → V → σ}

/-- The iterator comes to a binding: the loop goes on behind it. -/
theorem iterate_of_next {s : σ} {k : K} {v : V} (h : (table s).next passed = some (k, v))
    (fuel : ℕ) :
    iterate table body (fuel + 1) passed s = iterate table body fuel (some k) (body s k v) := by
  rw [iterate, h]

/-- There is no binding in front of the iterator: the loop ends. -/
theorem iterate_of_next_eq_none {s : σ} (h : (table s).next passed = none) (fuel : ℕ) :
    iterate table body (fuel + 1) passed s = some s := by
  rw [iterate, h]

/-- **The rule for the loop**: what the body keeps holds at the end, where no binding is in
front of the iterator. By induction on the fuel. -/
theorem iterate_invariant {P : Option K → σ → Prop}
    (hbody : ∀ passed s k v, P passed s → (table s).next passed = some (k, v) →
      P (some k) (body s k v))
    {fuel : ℕ} {s s' : σ} (hP : P passed s) (h : iterate table body fuel passed s = some s') :
    ∃ passed', P passed' s' ∧ (table s').next passed' = none := by
  induction fuel generalizing passed s with
  | zero => cases h
  | succ fuel ih =>
    cases hnext : (table s).next passed with
    | none =>
      rw [iterate_of_next_eq_none hnext] at h
      cases h
      exact ⟨passed, hP, hnext⟩
    | some e =>
      rw [iterate_of_next hnext] at h
      exact ih (hbody passed s e.1 e.2 hP hnext) h

/-- **Termination**: the keys that the map can have get a rank that decreases from one to the
next. By induction on a bound of the ranks in front of the iterator. -/
theorem exists_iterate {P : σ → Prop} {Key : K → Prop} (rank : K → ℕ)
    (hrank : ∀ k k', Key k → Key k' → k < k' → rank k' < rank k)
    (hkey : ∀ s, P s → ∀ k, (table s).find? k ≠ none → Key k)
    (hbody : ∀ s k v, P s → (table s).find? k = some v → P (body s k v))
    {n : ℕ} {s : σ} (hP : P s) (hn : ∀ k, Key k → Ahead passed k → rank k < n) :
    ∃ s', iterate table body (n + 1) passed s = some s' := by
  induction n generalizing passed s with
  | zero =>
    refine ⟨s, iterate_of_next_eq_none (next_eq_none_iff.mpr fun k hlt => ?_) 0⟩
    by_contra hk
    exact Nat.not_lt_zero _ (hn k (hkey s hP k hk) hlt)
  | succ n ih =>
    cases hnext : (table s).next passed with
    | none => exact ⟨s, iterate_of_next_eq_none hnext _⟩
    | some e =>
      obtain ⟨k, v⟩ := e
      obtain ⟨hfind, hlt, -⟩ := next_eq_some_iff.mp hnext
      have hk : Key k := hkey s hP k (by simp [hfind])
      rw [iterate_of_next hnext]
      refine ih (hbody s k v hP hfind) fun k' hk' hlt' => ?_
      have hdecr : rank k' < rank k := hrank k k' hk hk' hlt'
      have hbound : rank k < n + 1 := hn k hk hlt
      omega

end SortedMap
