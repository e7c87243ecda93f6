import Qdocdb.Lib.SortedMap

/-!
# Write logs

A `WriteOp` is a put or a delete; a log is a list of them, applied to a map from
left to right. Point reads after a log only depend on the last write of the key
(`find?_applyLog`), which is what an overlay that remembers the newest write of
each key computes.
-/

universe u v

/-- A single write of an ordered store. -/
inductive WriteOp (K : Type u) (V : Type v) where
  /-- bind the key -/
  | put : K → V → WriteOp K V
  /-- remove the key -/
  | delete : K → WriteOp K V
  deriving DecidableEq

namespace WriteOp

variable {K : Type u} {V : Type v}

/-- The key a write is about. -/
def key : WriteOp K V → K
  | put k _ => k
  | delete k => k

/-- What a write leaves under its key: a value, or nothing. -/
def outcome : WriteOp K V → Option V
  | put _ v => some v
  | delete _ => none

@[simp] theorem key_put (k : K) (v : V) : (put k v).key = k := rfl
@[simp] theorem key_delete (k : K) : (delete k : WriteOp K V).key = k := rfl
@[simp] theorem outcome_put (k : K) (v : V) : (put k v).outcome = some v := rfl
@[simp] theorem outcome_delete (k : K) : (delete k : WriteOp K V).outcome = none := rfl

/-- A write is determined by its key and outcome. -/
theorem ext_key_outcome {w w' : WriteOp K V} (hk : w.key = w'.key)
    (ho : w.outcome = w'.outcome) : w = w' := by
  cases w <;> cases w' <;> simp_all

variable [LinearOrder K]

/-- Apply one write. -/
def apply (m : SortedMap K V) : WriteOp K V → SortedMap K V
  | put k v => m.insert k v
  | delete k => m.erase k

theorem find?_apply (m : SortedMap K V) (w : WriteOp K V) (k : K) :
    (w.apply m).find? k = if k = w.key then w.outcome else m.find? k := by
  cases w with
  | put k' v => exact m.find?_insert k' v k
  | delete k' => exact m.find?_erase k' k

end WriteOp

namespace SortedMap

variable {K : Type u} {V : Type v} [LinearOrder K]

/-- Apply a log in order. -/
def applyLog (m : SortedMap K V) (ws : List (WriteOp K V)) : SortedMap K V :=
  ws.foldl (fun m w => w.apply m) m

@[simp] theorem applyLog_nil (m : SortedMap K V) : m.applyLog [] = m := rfl

@[simp] theorem applyLog_cons (m : SortedMap K V) (w : WriteOp K V) (ws : List (WriteOp K V)) :
    m.applyLog (w :: ws) = (w.apply m).applyLog ws := rfl

theorem applyLog_append (m : SortedMap K V) (ws ws' : List (WriteOp K V)) :
    m.applyLog (ws ++ ws') = (m.applyLog ws).applyLog ws' :=
  List.foldl_append

end SortedMap

/-! ## The last write of a key -/

section LastWrite

variable {K : Type u} {V : Type v} [LinearOrder K]

/-- What the last write of `k` in the log leaves there; `none` when the log does
not write `k`. -/
def lastWrite (ws : List (WriteOp K V)) (k : K) : Option (Option V) :=
  (ws.reverse.find? fun w => w.key = k).map WriteOp.outcome

@[simp] theorem lastWrite_nil (k : K) : lastWrite ([] : List (WriteOp K V)) k = none := rfl

theorem lastWrite_concat (ws : List (WriteOp K V)) (w : WriteOp K V) (k : K) :
    lastWrite (ws ++ [w]) k = if w.key = k then some w.outcome else lastWrite ws k := by
  rw [lastWrite, List.reverse_concat]
  by_cases h : w.key = k
  · rw [List.find?_cons_of_pos (by simpa using h), if_pos h, Option.map_some]
  · rw [List.find?_cons_of_neg (by simpa using h), if_neg h, lastWrite]

theorem lastWrite_append (ws ws' : List (WriteOp K V)) (k : K) :
    lastWrite (ws ++ ws') k = (lastWrite ws' k).or (lastWrite ws k) := by
  rw [lastWrite, lastWrite, lastWrite, List.reverse_append, List.find?_append]
  cases List.find? (fun w => decide (w.key = k)) ws'.reverse <;> rfl

theorem lastWrite_cons (w : WriteOp K V) (ws : List (WriteOp K V)) (k : K) :
    lastWrite (w :: ws) k =
      (lastWrite ws k).or (if w.key = k then some w.outcome else none) := by
  rw [← List.singleton_append, lastWrite_append, ← List.nil_append [w], lastWrite_concat,
    lastWrite_nil]

theorem lastWrite_eq_none_iff {ws : List (WriteOp K V)} {k : K} :
    lastWrite ws k = none ↔ ∀ w ∈ ws, w.key ≠ k := by
  rw [lastWrite, Option.map_eq_none_iff, List.find?_eq_none]
  simp

/-- The last write of a key is in the log. -/
theorem exists_mem_of_lastWrite_eq_some {ws : List (WriteOp K V)} {k : K} {o : Option V}
    (h : lastWrite ws k = some o) : ∃ w ∈ ws, w.key = k ∧ w.outcome = o := by
  obtain ⟨w, hw, rfl⟩ := Option.map_eq_some_iff.mp h
  exact ⟨w, List.mem_reverse.mp (List.mem_of_find?_eq_some hw),
    by simpa using List.find?_some hw, rfl⟩

/-- When all writes of a key agree, any of them is the last. -/
theorem lastWrite_eq_of_forall {ws : List (WriteOp K V)} {w : WriteOp K V} (hw : w ∈ ws)
    (h : ∀ w' ∈ ws, w'.key = w.key → w'.outcome = w.outcome) :
    lastWrite ws w.key = some w.outcome := by
  cases hl : lastWrite ws w.key with
  | none => exact absurd rfl (lastWrite_eq_none_iff.mp hl w hw)
  | some o =>
    obtain ⟨w', hw', hk, rfl⟩ := exists_mem_of_lastWrite_eq_some hl
    rw [h w' hw' hk]

/-- The value of the last put of `k`, whether or not it was deleted again. -/
def lastPut (ws : List (WriteOp K V)) (k : K) : Option V :=
  ws.reverse.findSome? fun w => if w.key = k then w.outcome else none

@[simp] theorem lastPut_nil (k : K) : lastPut ([] : List (WriteOp K V)) k = none := rfl

theorem lastPut_concat (ws : List (WriteOp K V)) (w : WriteOp K V) (k : K) :
    lastPut (ws ++ [w]) k = (if w.key = k then w.outcome else none).or (lastPut ws k) := by
  rw [lastPut, List.reverse_concat, List.findSome?_cons]
  cases (if w.key = k then w.outcome else none) <;> rfl

theorem lastPut_eq_none_iff {ws : List (WriteOp K V)} {k : K} :
    lastPut ws k = none ↔ ∀ v, WriteOp.put k v ∉ ws := by
  rw [lastPut, List.findSome?_eq_none_iff]
  constructor
  · intro h v hv
    have := h _ (List.mem_reverse.mpr hv)
    simp at this
  · intro h w hw
    cases w with
    | put k' v =>
      rcases eq_or_ne k' k with rfl | hne
      · exact absurd (List.mem_reverse.mp hw) (h v)
      · simp [hne]
    | delete k' => exact ite_self _

/-- A log of deletions deletes, and a log of puts leaves the last put. -/
theorem lastWrite_filter_put (ws : List (WriteOp K V)) (k : K) :
    lastWrite (ws.filter fun w => w.outcome.isSome) k = (lastPut ws k).map some := by
  induction ws using List.reverseRecOn with
  | nil => rfl
  | append_singleton ws w ih =>
    rw [List.filter_append, lastPut_concat]
    cases w with
    | put k' v =>
      rw [List.filter_cons_of_pos (by simp), List.filter_nil, lastWrite_concat, ih]
      by_cases hk : k' = k
      · simp [hk]
      · simp [hk]
    | delete k' =>
      rw [List.filter_cons_of_neg (by simp), List.filter_nil, List.append_nil, ih,
        WriteOp.outcome_delete, ite_self, Option.none_or]

theorem lastWrite_filter_delete {ws : List (WriteOp K V)} {k : K} (h : WriteOp.delete k ∈ ws) :
    lastWrite (ws.filter fun w => w.outcome.isNone) k = some none := by
  have hmem : WriteOp.delete k ∈ ws.filter fun w => w.outcome.isNone :=
    List.mem_filter.mpr ⟨h, rfl⟩
  exact lastWrite_eq_of_forall hmem fun w hw _ =>
    Option.isNone_iff_eq_none.mp (List.mem_filter.mp hw).2

theorem lastWrite_filter_delete_eq_none {ws : List (WriteOp K V)} {k : K}
    (h : lastWrite ws k = none) : lastWrite (ws.filter fun w => w.outcome.isNone) k = none :=
  lastWrite_eq_none_iff.mpr fun w hw => lastWrite_eq_none_iff.mp h w (List.mem_filter.mp hw).1

/-- A key that was put last holds its last put. -/
theorem lastPut_of_lastWrite_eq_some {ws : List (WriteOp K V)} {k : K} {v : V}
    (h : lastWrite ws k = some (some v)) : lastPut ws k = some v := by
  induction ws using List.reverseRecOn with
  | nil => cases h
  | append_singleton ws w ih =>
    rw [lastWrite_concat] at h
    rw [lastPut_concat]
    by_cases hk : w.key = k
    · rw [if_pos hk] at h ⊢
      rw [Option.some.inj h, Option.some_or]
    · rw [if_neg hk] at h ⊢
      rw [Option.none_or, ih h]

theorem mem_of_lastPut_eq_some {ws : List (WriteOp K V)} {k : K} {v : V}
    (h : lastPut ws k = some v) : WriteOp.put k v ∈ ws := by
  obtain ⟨w, hw, hv⟩ := List.exists_of_findSome?_eq_some h
  split at hv
  · rename_i hk
    have hput : w = WriteOp.put k v := WriteOp.ext_key_outcome hk hv
    exact hput ▸ List.mem_reverse.mp hw
  · cases hv

end LastWrite

/-- Point reads after a log see the last write of the key, or the map below. -/
theorem SortedMap.find?_applyLog {K : Type u} {V : Type v} [LinearOrder K]
    (m : SortedMap K V) (ws : List (WriteOp K V)) (k : K) :
    (m.applyLog ws).find? k = (lastWrite ws k).getD (m.find? k) := by
  induction ws using List.reverseRecOn with
  | nil => rfl
  | append_singleton ws w ih =>
    rw [SortedMap.applyLog_append, SortedMap.applyLog_cons, SortedMap.applyLog_nil,
      WriteOp.find?_apply, lastWrite_concat]
    by_cases h : w.key = k
    · rw [if_pos h.symm, if_pos h, Option.getD_some]
    · rw [if_neg (Ne.symm h), if_neg h, ih]

/-- Keys that the log does not write keep their value. -/
theorem SortedMap.find?_applyLog_of_forall_ne {K : Type u} {V : Type v} [LinearOrder K]
    (m : SortedMap K V) {ws : List (WriteOp K V)} {k : K} (h : ∀ w ∈ ws, w.key ≠ k) :
    (m.applyLog ws).find? k = m.find? k := by
  rw [SortedMap.find?_applyLog, lastWrite_eq_none_iff.mpr h, Option.getD_none]

/-- A key that is only deleted is gone. -/
theorem SortedMap.find?_applyLog_of_delete {K : Type u} {V : Type v} [LinearOrder K]
    (m : SortedMap K V) {ws : List (WriteOp K V)} {k : K} (h : WriteOp.delete k ∈ ws)
    (hput : ∀ v, WriteOp.put k v ∉ ws) : (m.applyLog ws).find? k = none := by
  have hlast := lastWrite_eq_of_forall h fun w hw hk => by
    cases w with
    | put k' v =>
      obtain rfl : k' = k := hk
      exact absurd hw (hput v)
    | delete k' => rfl
  rw [SortedMap.find?_applyLog, show k = (WriteOp.delete k : WriteOp K V).key from rfl, hlast]
  rfl

/-- A key whose writes all put the same value holds it. -/
theorem SortedMap.find?_applyLog_of_put {K : Type u} {V : Type v} [LinearOrder K]
    (m : SortedMap K V) {ws : List (WriteOp K V)} {k : K} {v : V} (h : WriteOp.put k v ∈ ws)
    (huniq : ∀ w ∈ ws, w.key = k → w = .put k v) : (m.applyLog ws).find? k = some v := by
  have hlast := lastWrite_eq_of_forall h fun w hw hk => by rw [huniq w hw hk]
  rw [SortedMap.find?_applyLog, show k = (WriteOp.put k v : WriteOp K V).key from rfl, hlast]
  rfl

/-- A binding of the result was there or was put. -/
theorem SortedMap.find?_applyLog_eq_some {K : Type u} {V : Type v} [LinearOrder K]
    {m : SortedMap K V} {ws : List (WriteOp K V)} {k : K} {v : V}
    (h : (m.applyLog ws).find? k = some v) : m.find? k = some v ∨ WriteOp.put k v ∈ ws := by
  rw [SortedMap.find?_applyLog] at h
  rcases hlast : lastWrite ws k with - | o
  · rw [hlast] at h
    exact .inl h
  · rw [hlast, Option.getD_some] at h
    obtain ⟨w, hw, hk, ho⟩ := exists_mem_of_lastWrite_eq_some hlast
    have hput : w = .put k v := WriteOp.ext_key_outcome hk (ho.trans h)
    exact .inr (hput ▸ hw)

/-- A log without deletions keeps every key and adds those that it writes. -/
theorem SortedMap.find?_applyLog_ne_none {K : Type u} {V : Type v} [LinearOrder K]
    {m : SortedMap K V} {ws : List (WriteOp K V)} (hputs : ∀ k, WriteOp.delete k ∉ ws) {k : K}
    (h : m.find? k ≠ none ∨ ∃ w ∈ ws, w.key = k) : (m.applyLog ws).find? k ≠ none := by
  rw [find?_applyLog]
  cases hlast : lastWrite ws k with
  | none =>
    refine h.resolve_right fun ⟨w, hw, hk⟩ => ?_
    exact lastWrite_eq_none_iff.mp hlast w hw hk
  | some o =>
    obtain ⟨w, hw, hk, rfl⟩ := exists_mem_of_lastWrite_eq_some hlast
    cases w with
    | put k' v => simp
    | delete k' => exact absurd hw (hputs k')
