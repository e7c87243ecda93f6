import Mathlib.Data.List.Forall2
import Qdocdb.Lib.WriteLog

/-!
# Logs that write related values

Two logs that delete the same keys and put related values under the same keys leave
related maps. This compares two runs that differ in the values they write, but not in
where they write.
-/

universe u v

section Rel

variable {α β : Type*} {r : α → β → Prop}

theorem rel_or {a a' : Option α} {b b' : Option β} (h : Option.Rel r a b)
    (h' : Option.Rel r a' b') : Option.Rel r (a.or a') (b.or b') := by
  cases h with
  | some h => exact .some h
  | none => exact h'

theorem rel_getD {a : Option α} {b : Option β} {x : α} {y : β} (h : Option.Rel r a b)
    (h' : r x y) : r (a.getD x) (b.getD y) := by
  cases h with
  | some h => exact h
  | none => exact h'

theorem rel_refl {r : α → α → Prop} (hr : ∀ x, r x x) (a : Option α) : Option.Rel r a a := by
  cases a with
  | none => exact .none
  | some x => exact .some (hr x)

theorem eq_none_iff_of_rel {a : Option α} {b : Option β} (h : Option.Rel r a b) :
    a = none ↔ b = none := by
  cases h <;> simp

end Rel

variable {K : Type u} {V : Type v}

namespace WriteOp

/-- Writes of the same key: both delete it, or both put related values. -/
inductive Rel (R : V → V → Prop) : WriteOp K V → WriteOp K V → Prop
  | put {v v' : V} (k : K) (h : R v v') : Rel R (.put k v) (.put k v')
  | delete (k : K) : Rel R (.delete k) (.delete k)

theorem Rel.refl {R : V → V → Prop} (hR : ∀ v, R v v) (w : WriteOp K V) : Rel R w w := by
  cases w with
  | put k v => exact .put k (hR v)
  | delete k => exact .delete k

end WriteOp

/-- Logs with related writes in the same order. -/
abbrev LogRel (R : V → V → Prop) (ws ws' : List (WriteOp K V)) : Prop :=
  List.Forall₂ (WriteOp.Rel R) ws ws'

theorem LogRel.refl {R : V → V → Prop} (hR : ∀ v, R v v) (ws : List (WriteOp K V)) :
    LogRel R ws ws := by
  induction ws with
  | nil => exact .nil
  | cons w ws ih => exact .cons (.refl hR w) ih

theorem LogRel.append {R : V → V → Prop} {ws₁ ws₁' ws₂ ws₂' : List (WriteOp K V)}
    (h₁ : LogRel R ws₁ ws₁') (h₂ : LogRel R ws₂ ws₂') : LogRel R (ws₁ ++ ws₂) (ws₁' ++ ws₂') := by
  induction h₁ with
  | nil => exact h₂
  | cons hw _ ih => exact .cons hw ih

section LastWrite

variable [LinearOrder K] {R : V → V → Prop} {ws ws' : List (WriteOp K V)}

theorem lastPut_cons (w : WriteOp K V) (ws : List (WriteOp K V)) (k : K) :
    lastPut (w :: ws) k = (lastPut ws k).or (if w.key = k then w.outcome else none) := by
  simp [lastPut, List.findSome?_append]

theorem LogRel.lastWrite (h : LogRel R ws ws') (k : K) :
    Option.Rel (Option.Rel R) (lastWrite ws k) (lastWrite ws' k) := by
  induction h with
  | nil => exact .none
  | cons hw _ ih =>
    rw [lastWrite_cons, lastWrite_cons]
    refine rel_or ih ?_
    cases hw with
    | put k' hv =>
      by_cases hk : k' = k
      · simpa [hk] using hv
      · simp [hk]
    | delete k' =>
      by_cases hk : k' = k <;> simp [hk]

theorem LogRel.lastPut (h : LogRel R ws ws') (k : K) :
    Option.Rel R (lastPut ws k) (lastPut ws' k) := by
  induction h with
  | nil => exact .none
  | cons hw _ ih =>
    rw [lastPut_cons, lastPut_cons]
    refine rel_or ih ?_
    cases hw with
    | put k' hv =>
      by_cases hk : k' = k
      · simpa [hk] using hv
      · simp [hk]
    | delete k' => by_cases hk : k' = k <;> simp [hk]

/-- **Related logs on related maps**: each key has related values in the end. -/
theorem LogRel.find?_applyLog (h : LogRel R ws ws') {m m' : SortedMap K V} {k : K}
    (hm : Option.Rel R (m.find? k) (m'.find? k)) :
    Option.Rel R ((m.applyLog ws).find? k) ((m'.applyLog ws').find? k) := by
  rw [SortedMap.find?_applyLog, SortedMap.find?_applyLog]
  exact rel_getD (h.lastWrite k) hm

end LastWrite
