import Mathlib.Data.List.Induction
import Mathlib.Data.Option.Basic

/-!
# Logs of announcements

A publisher keeps a value for each of its keys, and announces a new value by appending it with
its key to a log. A reader of the log knows the value of a key when the last announcement of the
key carries it (`latest`). `Tells` is what a publisher has to do for this: it forgets no key, and
a value that it did not announce is the old one. What was told in two steps was told, and a
reader who knew the old values knows the new ones (`Tells.trans`, `Tells.latest_eq`).
-/

universe u v

variable {K : Type u} {V : Type v} [DecidableEq K]

/-- The value that the last announcement of a key carries. -/
def latest (log : List (K × V)) (k : K) : Option V :=
  (log.reverse.find? fun e => e.1 = k).map Prod.snd

@[simp] theorem latest_nil (k : K) : latest ([] : List (K × V)) k = none := rfl

theorem latest_append (log news : List (K × V)) (k : K) :
    latest (log ++ news) k = (latest news k).or (latest log k) := by
  rw [latest, latest, latest, List.reverse_append, List.find?_append]
  cases List.find? (fun e => decide (e.1 = k)) news.reverse <;> rfl

theorem latest_singleton (e : K × V) (k : K) :
    latest [e] k = if e.1 = k then some e.2 else none := by
  rw [latest, List.reverse_singleton, List.find?_singleton]
  by_cases h : e.1 = k <;> simp [h]

theorem latest_eq_none {log : List (K × V)} {k : K} (h : ∀ e ∈ log, e.1 ≠ k) :
    latest log k = none := by
  rw [latest, Option.map_eq_none_iff, List.find?_eq_none]
  simpa using h

/-- The last announcement of a key is in the log. -/
theorem mem_of_latest {log : List (K × V)} {k : K} {v : V} (h : latest log k = some v) :
    (k, v) ∈ log := by
  obtain ⟨e, he, rfl⟩ := Option.map_eq_some_iff.mp h
  have hkey : e.1 = k := by simpa using List.find?_some he
  rw [← hkey]
  exact List.mem_reverse.mp (List.mem_of_find?_eq_some he)

/-- A key with one value in the log. -/
theorem latest_eq_of_mem {log : List (K × V)} {k : K} {v : V} (hmem : (k, v) ∈ log)
    (h : ∀ v', (k, v') ∈ log → v' = v) : latest log k = some v := by
  cases hlatest : latest log k with
  | some v' => rw [h v' (mem_of_latest hlatest)]
  | none =>
    rw [latest, Option.map_eq_none_iff, List.find?_eq_none] at hlatest
    exact absurd (decide_eq_true rfl) (hlatest (k, v) (List.mem_reverse.mpr hmem))

/-- A log that carries other values under the same keys. -/
theorem latest_map {α : Type*} {W : Type*} {l : List α} {f : α → K × V} {g : α → K × W} {k : K}
    {φ : V → W} (hkey : ∀ a ∈ l, (g a).1 = (f a).1)
    (hvalue : ∀ a ∈ l, (f a).1 = k → (g a).2 = φ (f a).2) :
    latest (l.map g) k = (latest (l.map f) k).map φ := by
  induction l using List.reverseRecOn with
  | nil => rfl
  | append_singleton l a ih =>
    have hlast : a ∈ l ++ [a] := List.mem_append_right _ (List.mem_singleton_self a)
    have ih := ih (fun b hb => hkey b (List.mem_append_left _ hb))
      fun b hb => hvalue b (List.mem_append_left _ hb)
    rw [List.map_append, List.map_append, latest_append, latest_append, ih, List.map_singleton,
      List.map_singleton, latest_singleton, latest_singleton, hkey a hlast]
    split
    · rename_i hk
      rw [hvalue a hlast hk]
      rfl
    · rfl

/-- A publisher whose values went from `old` to `new` has told `news`. -/
structure Tells (news : List (K × V)) (old new : K → Option V) : Prop where
  /-- no announcement is about a key without a value -/
  known : ∀ e ∈ news, (new e.1).isSome
  /-- a key stays, with the value announced last, or else with the old one -/
  current : ∀ k v, old k = some v → new k = some ((latest news k).getD v)

namespace Tells

variable {old new newer : K → Option V} {news log : List (K × V)}

/-- Nothing changed. -/
theorem refl (old : K → Option V) : Tells [] old old :=
  ⟨fun _ he => absurd he List.not_mem_nil, fun _ _ h => h⟩

/-- **Two steps** tell what both have told. -/
theorem trans {news' : List (K × V)} (h : Tells news old new) (h' : Tells news' new newer) :
    Tells (news ++ news') old newer where
  known e he := by
    rcases List.mem_append.mp he with he | he
    · obtain ⟨v, hv⟩ := Option.isSome_iff_exists.mp (h.known e he)
      rw [h'.current _ _ hv]
      rfl
    · exact h'.known e he
  current k v hk := by
    rw [h'.current k _ (h.current k v hk), latest_append]
    cases latest news' k <;> rfl

/-- **A reader** of the whole log who knew the old value knows the new one. -/
theorem latest_eq (h : Tells news old new) {k : K} {v : V} (hold : old k = some v)
    (hlog : latest log k = some v) : latest (log ++ news) k = new k := by
  rw [latest_append, hlog, h.current k v hold]
  cases latest news k <;> rfl

end Tells
