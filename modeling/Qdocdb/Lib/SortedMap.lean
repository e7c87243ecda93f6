import Mathlib.Data.List.Pairwise
import Mathlib.Data.List.TakeWhile
import Qdocdb.Lib.Prefix

/-!
# Ordered maps as sorted association lists

A `SortedMap K V` is a list of bindings that carries the proof that its keys
increase strictly, so a key is bound at most once and a scan of `entries` is a
scan in key order. A map is determined by its point reads (`ext_find?`), and a
cursor positioned at a key is a suffix of `entries`: `seekGE` is the suffix from
the first key not below the target, `seekEq` the suffix from the target itself
and empty when the target is not bound.
-/

universe u v

/-- A finite map over a linear order: bindings with strictly increasing keys. -/
structure SortedMap (K : Type u) (V : Type v) [LinearOrder K] where
  /-- the bindings, in key order -/
  entries : List (K × V)
  /-- keys increase strictly -/
  sorted : entries.Pairwise fun a b => a.1 < b.1

namespace SortedMap

variable {K : Type u} {V : Type v} [LinearOrder K]

instance [DecidableEq V] : DecidableEq (SortedMap K V) := fun m m' =>
  decidable_of_iff (m.entries = m'.entries)
    ⟨fun h => by cases m; cases m'; cases h; rfl, fun h => h ▸ rfl⟩

/-- The map without bindings. -/
def empty : SortedMap K V := ⟨[], List.Pairwise.nil⟩

/-- Point read. -/
def find? (m : SortedMap K V) (k : K) : Option V :=
  (m.entries.find? fun e => e.1 = k).map Prod.snd

/-- Bind `k` to `v`, replacing an earlier binding of `k`. -/
def insert (m : SortedMap K V) (k : K) (v : V) : SortedMap K V where
  entries := m.entries.filter (fun e => e.1 < k) ++ (k, v) :: m.entries.filter fun e => k < e.1
  sorted := by
    rw [List.pairwise_append, List.pairwise_cons]
    refine ⟨m.sorted.filter _, ⟨?_, m.sorted.filter _⟩, ?_⟩
    · intro e he
      simpa using (List.mem_filter.mp he).2
    · intro e he e' he'
      have hek : e.1 < k := by simpa using (List.mem_filter.mp he).2
      rcases List.mem_cons.mp he' with rfl | he'
      · exact hek
      · have hke : k < e'.1 := by simpa using (List.mem_filter.mp he').2
        exact hek.trans hke

/-- Remove the binding of `k`, if any. -/
def erase (m : SortedMap K V) (k : K) : SortedMap K V where
  entries := m.entries.filter fun e => e.1 ≠ k
  sorted := m.sorted.filter _

/-- The bindings from the first key that is not below `k`. -/
def seekGE (m : SortedMap K V) (k : K) : List (K × V) :=
  m.entries.dropWhile fun e => e.1 < k

/-- The bindings from `k` itself; none when `k` is not bound. -/
def seekEq (m : SortedMap K V) (k : K) : List (K × V) :=
  m.entries.dropWhile fun e => e.1 ≠ k

/-! ## Insertion in descending order -/

theorem eq_of_entries {m m' : SortedMap K V} (h : m.entries = m'.entries) : m = m' := by
  cases m; cases m'; cases h; rfl

/-- Inserting in front of larger keys. -/
theorem entries_insert_of_lt {m : SortedMap K V} {k : K} {v : V} (h : ∀ e ∈ m.entries, k < e.1) :
    (m.insert k v).entries = (k, v) :: m.entries := by
  have hnone : m.entries.filter (fun e => e.1 < k) = [] :=
    List.filter_eq_nil_iff.mpr fun e he hlt => absurd (h e he) (of_decide_eq_true hlt).asymm
  have hall : m.entries.filter (fun e => k < e.1) = m.entries :=
    List.filter_eq_self.mpr fun e he => decide_eq_true (h e he)
  change m.entries.filter _ ++ (k, v) :: m.entries.filter _ = _
  rw [hnone, hall, List.nil_append]

theorem entries_foldl_insert {l : List (K × V)} (h : l.Pairwise fun a b => a.1 < b.1) :
    (l.reverse.foldl (fun m e => m.insert e.1 e.2) (empty : SortedMap K V)).entries = l := by
  induction l with
  | nil => rfl
  | cons e l ih =>
    obtain ⟨he, hl⟩ := List.pairwise_cons.mp h
    rw [List.reverse_cons, List.foldl_append, List.foldl_cons, List.foldl_nil,
      entries_insert_of_lt (by rwa [ih hl]), ih hl]

/-- Bindings that are inserted from the last one to the first one. -/
theorem foldl_insert_reverse (m : SortedMap K V) :
    m.entries.reverse.foldl (fun m e => m.insert e.1 e.2) empty = m :=
  eq_of_entries (entries_foldl_insert m.sorted)

/-! ## Point reads -/

/-- A key has one binding. -/
theorem eq_of_mem_entries {m : SortedMap K V} {k : K} {v v' : V}
    (h : (k, v) ∈ m.entries) (h' : (k, v') ∈ m.entries) : v = v' := by
  have hsymm : Std.Symm fun a b : K × V => a.1 = b.1 → a = b :=
    ⟨fun _ _ hab he => (hab he.symm).symm⟩
  have hunique : m.entries.Pairwise fun a b => a.1 = b.1 → a = b :=
    m.sorted.imp fun hab he => absurd he hab.ne
  exact (Prod.mk.inj (hunique.forall_of_forall (fun _ _ _ => rfl) h h' rfl)).2

theorem find?_eq_some_iff {m : SortedMap K V} {k : K} {v : V} :
    m.find? k = some v ↔ (k, v) ∈ m.entries := by
  constructor
  · intro h
    obtain ⟨e, he, rfl⟩ := Option.map_eq_some_iff.mp h
    obtain rfl : e.1 = k := by simpa using List.find?_some he
    exact List.mem_of_find?_eq_some he
  · intro h
    have hsome : (m.entries.find? fun e => e.1 = k).isSome :=
      List.find?_isSome.mpr ⟨(k, v), h, by simp⟩
    obtain ⟨e, he⟩ := Option.isSome_iff_exists.mp hsome
    obtain rfl : e.1 = k := by simpa using List.find?_some he
    have hv : e.2 = v := eq_of_mem_entries (List.mem_of_find?_eq_some he) h
    rw [find?, he, Option.map_some, hv]

theorem find?_eq_none_iff {m : SortedMap K V} {k : K} :
    m.find? k = none ↔ ∀ v, (k, v) ∉ m.entries := by
  rw [Option.eq_none_iff_forall_not_mem]
  exact forall_congr' fun v => not_congr find?_eq_some_iff

@[simp] theorem find?_empty (k : K) : (empty : SortedMap K V).find? k = none := rfl

/-- Two maps with the same point reads are equal. -/
theorem ext_find? {m m' : SortedMap K V} (h : ∀ k, m.find? k = m'.find? k) : m = m' := by
  have hmem : ∀ e, e ∈ m.entries ↔ e ∈ m'.entries := by
    rintro ⟨k, v⟩
    rw [← find?_eq_some_iff, ← find?_eq_some_iff, h k]
  have hirr : Std.Irrefl fun a b : K × V => a.1 < b.1 := ⟨fun a => lt_irrefl a.1⟩
  have he := m.sorted.eq_of_mem_iff m'.sorted hmem
  cases m; cases m'; cases he; rfl

theorem find?_insert (m : SortedMap K V) (k : K) (v : V) (k' : K) :
    (m.insert k v).find? k' = if k' = k then some v else m.find? k' := by
  ext w
  rw [find?_eq_some_iff, insert, List.mem_append, List.mem_cons, List.mem_filter, List.mem_filter]
  rcases lt_trichotomy k' k with h | rfl | h
  · simp [h, h.ne, h.not_gt, find?_eq_some_iff]
  · simp [eq_comm]
  · simp [h, h.ne', h.not_gt, find?_eq_some_iff]

@[simp] theorem find?_insert_self (m : SortedMap K V) (k : K) (v : V) :
    (m.insert k v).find? k = some v := by
  rw [find?_insert, if_pos rfl]

theorem find?_insert_of_ne (m : SortedMap K V) {k k' : K} (v : V) (h : k' ≠ k) :
    (m.insert k v).find? k' = m.find? k' := by
  rw [find?_insert, if_neg h]

/-- Binding a key to what it is bound to changes nothing. -/
theorem insert_of_find? {m : SortedMap K V} {k : K} {v : V} (h : m.find? k = some v) :
    m.insert k v = m := by
  refine ext_find? fun k' => ?_
  rw [find?_insert]
  split
  · rename_i hk
    rw [hk, h]
  · rfl

theorem find?_erase (m : SortedMap K V) (k k' : K) :
    (m.erase k).find? k' = if k' = k then none else m.find? k' := by
  ext w
  rw [find?_eq_some_iff, erase, List.mem_filter]
  by_cases h : k' = k <;> simp [h, find?_eq_some_iff]

@[simp] theorem find?_erase_self (m : SortedMap K V) (k : K) : (m.erase k).find? k = none := by
  rw [find?_erase, if_pos rfl]

theorem find?_erase_of_ne (m : SortedMap K V) {k k' : K} (h : k' ≠ k) :
    (m.erase k).find? k' = m.find? k' := by
  rw [find?_erase, if_neg h]

/-- Only the binding of `k` is missing when it is erased. -/
theorem countP_erase (m : SortedMap K V) (k : K) (q : K × V → Bool) :
    m.entries.countP q =
      (m.erase k).entries.countP q + (m.find? k).elim 0 fun v => if q (k, v) then 1 else 0 := by
  have herase : (m.erase k).entries = m.entries.filter fun e => e.1 ≠ k := rfl
  cases hk : m.find? k with
  | none =>
    have hall : ∀ e ∈ m.entries, decide (e.1 ≠ k) = true := by
      rintro ⟨k', v⟩ he
      rw [decide_eq_true_eq]
      rintro rfl
      exact find?_eq_none_iff.mp hk v he
    rw [herase, List.filter_eq_self.mpr hall, Option.elim_none, Nat.add_zero]
  | some v =>
    obtain ⟨l, r, hlr⟩ := List.append_of_mem (find?_eq_some_iff.mp hk)
    have hs := m.sorted
    rw [hlr, List.pairwise_append, List.pairwise_cons] at hs
    have hl : l.filter (fun e => decide (e.1 ≠ k)) = l := List.filter_eq_self.mpr fun e he =>
      decide_eq_true (hs.2.2 e he (k, v) List.mem_cons_self).ne
    have hr : r.filter (fun e => decide (e.1 ≠ k)) = r := List.filter_eq_self.mpr fun e he =>
      decide_eq_true (hs.2.1.1 e he).ne'
    rw [herase, hlr, List.filter_append, List.filter_cons_of_neg (by simp), hl, hr,
      List.countP_append, List.countP_append, List.countP_cons, Option.elim_some, Nat.add_assoc]

/-- What is counted of the other keys stays when `k` is bound. -/
theorem countP_insert (m : SortedMap K V) (k : K) (v : V) (q : K × V → Bool) :
    (m.insert k v).entries.countP q =
      (m.erase k).entries.countP q + if q (k, v) then 1 else 0 := by
  have herase : (m.insert k v).erase k = m.erase k := by
    refine ext_find? fun k' => ?_
    rw [find?_erase, find?_erase, find?_insert]
    split <;> rfl
  rw [countP_erase _ k, herase, find?_insert_self, Option.elim_some]

/-- Searching the bindings finds the one with the least key. -/
theorem find?_entries_eq_some_iff {m : SortedMap K V} {q : K × V → Bool} {e : K × V} :
    m.entries.find? q = some e ↔
      e ∈ m.entries ∧ q e = true ∧ ∀ e' ∈ m.entries, q e' = true → e.1 ≤ e'.1 := by
  constructor
  · intro h
    obtain ⟨hq, l, r, hlr, hl⟩ := List.find?_eq_some_iff_append.mp h
    refine ⟨List.mem_of_find?_eq_some h, hq, fun e' he' hq' => ?_⟩
    have hs := m.sorted
    rw [hlr] at hs he'
    rcases List.mem_append.mp he' with he' | he'
    · have hnot := hl e' he'
      simp [hq'] at hnot
    · rcases List.mem_cons.mp he' with rfl | he'
      · exact le_rfl
      · exact ((List.pairwise_cons.mp (List.pairwise_append.mp hs).2.1).1 e' he').le
  · rintro ⟨he, hq, hmin⟩
    have hsome : (m.entries.find? q).isSome := List.find?_isSome.mpr ⟨e, he, hq⟩
    obtain ⟨e', he'⟩ := Option.isSome_iff_exists.mp hsome
    obtain ⟨hq', l, r, hlr, hl⟩ := List.find?_eq_some_iff_append.mp he'
    have hs := m.sorted
    rw [hlr] at hs he
    rcases List.mem_append.mp he with he | he
    · have hnot := hl e he
      simp [hq] at hnot
    · rcases List.mem_cons.mp he with rfl | he
      · exact he'
      · have hlt := (List.pairwise_cons.mp (List.pairwise_append.mp hs).2.1).1 e he
        have hle := hmin e' (List.mem_of_find?_eq_some he') hq'
        exact absurd hlt hle.not_gt

/-! ## Cursors -/

theorem seekGE_eq_filter (m : SortedMap K V) (k : K) :
    m.seekGE k = m.entries.filter fun e => k ≤ e.1 := by
  have hdown : m.entries.Pairwise fun a b => decide (b.1 < k) = true → decide (a.1 < k) = true := by
    refine m.sorted.imp fun hab hb => ?_
    rw [decide_eq_true_eq] at hb ⊢
    exact hab.trans hb
  rw [seekGE, List.dropWhile_eq_filter_of_pairwise hdown]
  simp only [← decide_not, not_lt]

theorem mem_seekGE {m : SortedMap K V} {k : K} {e : K × V} :
    e ∈ m.seekGE k ↔ e ∈ m.entries ∧ k ≤ e.1 := by
  rw [seekGE_eq_filter, List.mem_filter, decide_eq_true_eq]

/-- Seeking a bound key puts the cursor on it. -/
theorem seekGE_eq_cons_of_append {m : SortedMap K V} {k : K} {v : V} {l r : List (K × V)}
    (h : m.entries = l ++ (k, v) :: r) : m.seekGE k = (k, v) :: r := by
  have hs := m.sorted
  rw [h, List.pairwise_append] at hs
  have hl : ∀ e ∈ l, decide (e.1 < k) = true := fun e he =>
    decide_eq_true (hs.2.2 e he (k, v) List.mem_cons_self)
  rw [seekGE, h, List.dropWhile_append_of_pos hl, List.dropWhile_cons_of_neg (by simp)]

theorem seekEq_eq_cons_of_append {m : SortedMap K V} {k : K} {v : V} {l r : List (K × V)}
    (h : m.entries = l ++ (k, v) :: r) : m.seekEq k = (k, v) :: r := by
  have hs := m.sorted
  rw [h, List.pairwise_append] at hs
  have hl : ∀ e ∈ l, decide (e.1 ≠ k) = true := fun e he =>
    decide_eq_true (hs.2.2 e he (k, v) List.mem_cons_self).ne
  rw [seekEq, h, List.dropWhile_append_of_pos hl, List.dropWhile_cons_of_neg (by simp)]

theorem seekEq_eq_nil {m : SortedMap K V} {k : K} (h : m.find? k = none) : m.seekEq k = [] := by
  rw [seekEq, List.dropWhile_eq_nil_iff]
  rintro ⟨k', v⟩ he
  rw [decide_eq_true_eq]
  rintro rfl
  exact find?_eq_none_iff.mp h v he

/-- Behind a bound key the cursor meets the next one. -/
theorem exists_seekGE_eq_cons_cons {m : SortedMap K V} {k k' : K} {v v' : V}
    (hk : m.find? k = some v) (hk' : m.find? k' = some v') (hlt : k < k')
    (hnext : ∀ e ∈ m.entries, k < e.1 → k' ≤ e.1) :
    ∃ l, m.seekGE k = (k, v) :: (k', v') :: l := by
  obtain ⟨l, r, hlr⟩ := List.append_of_mem (find?_eq_some_iff.mp hk)
  have hmem := find?_eq_some_iff.mp hk'
  have hs := m.sorted
  rw [hlr, List.pairwise_append, List.pairwise_cons] at hs
  rw [hlr, List.mem_append, List.mem_cons] at hmem
  rw [seekGE_eq_cons_of_append hlr]
  rcases hmem with hmem | heq | hmem
  · exact absurd hlt (hs.2.2 _ hmem (k, v) List.mem_cons_self).not_gt
  · exact absurd (Prod.mk.inj heq).1 hlt.ne'
  · cases r with
    | nil => cases hmem
    | cons e r =>
      have he : e ∈ m.entries := by rw [hlr]; simp
      have hle : k' ≤ e.1 := hnext e he (hs.2.1.1 e List.mem_cons_self)
      rcases List.mem_cons.mp hmem with rfl | hmem
      · exact ⟨r, rfl⟩
      · exact absurd ((List.pairwise_cons.mp hs.2.1.2).1 _ hmem) hle.not_gt

/-- The two cursors agree on bound keys. -/
theorem seekEq_eq_seekGE {m : SortedMap K V} {k : K} {v : V} (h : m.find? k = some v) :
    m.seekEq k = m.seekGE k := by
  obtain ⟨l, r, hlr⟩ := List.append_of_mem (find?_eq_some_iff.mp h)
  rw [seekEq_eq_cons_of_append hlr, seekGE_eq_cons_of_append hlr]

end SortedMap
