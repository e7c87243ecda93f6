import Mathlib.Logic.Function.Basic
import Mathlib.Data.List.Basic

/-!
# Tables of links

An inverted index keeps a list of links under each key. Adding a link appends it to the
list of its key, unless it is there; removing one reads the list, fails when there is none,
and drops the key when the list becomes empty. Which links a table holds is all that
matters to a search (`linked_add`, `linked_remove`), while a removal can also fail because
an earlier one has emptied its list (`removeAll_isSome_iff`). Where one link is added under
some keys and removed under others, `removeAll_addAll_iff` says when the table is the same
again.
-/

universe u v

/-- A list of links under each key. -/
abbrev LinkTable (K : Type u) (L : Type v) : Type (max u v) := K → Option (List L)

namespace LinkTable

variable {K : Type u} {L : Type v} [DecidableEq K] [DecidableEq L]
variable {t t' : LinkTable K L} {k k' : K} {l l' : L}

/-- The link is in the list of the key. -/
def Linked (t : LinkTable K L) (k : K) (l : L) : Prop := ∃ ls, t k = some ls ∧ l ∈ ls

/-- Append a link that is not there yet. -/
def add (t : LinkTable K L) (k : K) (l : L) : LinkTable K L :=
  if l ∈ (t k).getD [] then t else Function.update t k (some ((t k).getD [] ++ [l]))

/-- Drop a link, and the key with the last one; nothing when the key has no list. -/
def remove (t : LinkTable K L) (k : K) (l : L) : Option (LinkTable K L) :=
  (t k).map fun ls =>
    if l ∈ ls then
      Function.update t k (if ls.filter (· ≠ l) = [] then none else some (ls.filter (· ≠ l)))
    else t

/-- Add links one after the other. -/
def addAll (t : LinkTable K L) (pairs : List (K × L)) : LinkTable K L :=
  pairs.foldl (fun t p => t.add p.1 p.2) t

/-- Remove links one after the other, up to the first failure. -/
def removeAll : List (K × L) → LinkTable K L → Option (LinkTable K L)
  | [], t => some t
  | (k, l) :: pairs, t => (t.remove k l).bind (removeAll pairs)

@[simp] theorem addAll_nil : t.addAll [] = t := rfl

@[simp] theorem addAll_cons (p : K × L) (pairs : List (K × L)) :
    t.addAll (p :: pairs) = (t.add p.1 p.2).addAll pairs := rfl

theorem addAll_append (pairs pairs' : List (K × L)) :
    t.addAll (pairs ++ pairs') = (t.addAll pairs).addAll pairs' :=
  List.foldl_append ..

theorem removeAll_append (pairs pairs' : List (K × L)) :
    removeAll (pairs ++ pairs') t = (removeAll pairs t).bind (removeAll pairs') := by
  induction pairs generalizing t with
  | nil => rfl
  | cons p pairs ih =>
    rw [List.cons_append, removeAll, removeAll, Option.bind_assoc]
    exact congrArg _ (funext fun t => ih)

/-! ## Other keys -/

theorem add_of_ne (h : k' ≠ k) : t.add k l k' = t k' := by
  rw [add]
  split
  · rfl
  · exact Function.update_of_ne h _ _

theorem remove_of_ne (hr : t.remove k l = some t') (h : k' ≠ k) : t' k' = t k' := by
  obtain ⟨ls, -, rfl⟩ := Option.map_eq_some_iff.mp hr
  split
  · exact Function.update_of_ne h _ _
  · rfl

/-! ## The links of a table -/

omit [DecidableEq K] [DecidableEq L] in
theorem mem_getD_iff : l ∈ (t k).getD [] ↔ t.Linked k l := by
  rw [Linked]
  cases t k <;> simp

theorem linked_add : (t.add k l).Linked k' l' ↔ t.Linked k' l' ∨ k' = k ∧ l' = l := by
  by_cases hk : k' = k
  · subst hk
    rw [add]
    split
    · rename_i hmem
      refine ⟨.inl, fun h => h.elim id ?_⟩
      rintro ⟨-, rfl⟩
      exact mem_getD_iff.mp hmem
    · rw [← mem_getD_iff, Function.update_self, Option.getD_some, List.mem_append,
        List.mem_singleton, mem_getD_iff]
      simp
  · rw [Linked, add_of_ne hk]
    simp [hk, Linked]

theorem linked_remove (hr : t.remove k l = some t') :
    t'.Linked k' l' ↔ t.Linked k' l' ∧ ¬ (k' = k ∧ l' = l) := by
  by_cases hk : k' = k
  · subst hk
    obtain ⟨ls, hls, rfl⟩ := Option.map_eq_some_iff.mp hr
    have hlinked : t.Linked k' l' ↔ l' ∈ ls := by simp [Linked, hls]
    rw [hlinked]
    split
    · rw [Linked, Function.update_self]
      split
      · rename_i hnil
        have hall : ∀ l' ∈ ls, ¬ l' ≠ l := by simpa using hnil
        refine ⟨fun ⟨_, h, _⟩ => (nomatch h), fun ⟨hmem', hne⟩ => ?_⟩
        exact absurd (fun heq => hne ⟨rfl, heq⟩) (hall l' hmem')
      · simp
    · rename_i hmem
      refine hlinked.trans ⟨fun h => ⟨h, ?_⟩, fun h => h.1⟩
      rintro ⟨-, rfl⟩
      exact hmem h
  · rw [Linked, remove_of_ne hr hk]
    simp [hk, Linked]

theorem linked_addAll (pairs : List (K × L)) :
    (t.addAll pairs).Linked k l ↔ t.Linked k l ∨ (k, l) ∈ pairs := by
  induction pairs generalizing t with
  | nil => simp
  | cons p pairs ih =>
    rw [addAll_cons, ih, linked_add, List.mem_cons, Prod.ext_iff, or_assoc]

theorem linked_removeAll {pairs : List (K × L)} (h : removeAll pairs t = some t') :
    t'.Linked k l ↔ t.Linked k l ∧ (k, l) ∉ pairs := by
  induction pairs generalizing t with
  | nil =>
    obtain rfl := Option.some.inj h
    simp
  | cons p pairs ih =>
    obtain ⟨t₁, h₁, h₂⟩ := Option.bind_eq_some_iff.mp h
    rw [ih h₂, linked_remove h₁, List.mem_cons, Prod.ext_iff, not_or, and_assoc]

/-! ## When removals go through -/

/-- The key has a list, and if that holds links, not all of them are in `removed`. -/
def Holds (t : LinkTable K L) (k : K) (removed : List (K × L)) : Prop :=
  ∃ ls, t k = some ls ∧ (ls = [] ∨ ∃ l ∈ ls, (k, l) ∉ removed)

/-- Each key has a list when its turn comes: the removals before have not emptied it. -/
def Removable (t : LinkTable K L) (pairs : List (K × L)) : Prop :=
  ∀ pre k l post, pairs = pre ++ (k, l) :: post → t.Holds k pre

theorem remove_isSome_iff : (t.remove k l).isSome ↔ t.Holds k [] := by
  rw [remove, Option.isSome_map, Option.isSome_iff_exists]
  refine ⟨fun ⟨ls, hls⟩ => ⟨ls, hls, ?_⟩, fun ⟨ls, hls, _⟩ => ⟨ls, hls⟩⟩
  cases ls with
  | nil => exact .inl rfl
  | cons l ls => exact .inr ⟨l, List.mem_cons_self, List.not_mem_nil⟩

/-- What a table holds after a removal, it holds with that removal counted. -/
theorem holds_cons (hr : t.remove k l = some t') {removed : List (K × L)} :
    t.Holds k' ((k, l) :: removed) ↔ t'.Holds k' removed := by
  by_cases hk : k' = k
  · subst hk
    obtain ⟨ls, hls, rfl⟩ := Option.map_eq_some_iff.mp hr
    have hleft : t.Holds k' ((k', l) :: removed) ↔
        ls = [] ∨ ∃ l' ∈ ls, l' ≠ l ∧ (k', l') ∉ removed := by
      simp [Holds, hls]
    rw [hleft]
    split
    · rename_i hmem
      have hne : ls ≠ [] := List.ne_nil_of_mem hmem
      by_cases hnil : ls.filter (· ≠ l) = []
      · -- the removal has emptied the list
        have hall : ∀ l' ∈ ls, ¬ l' ≠ l := by simpa using hnil
        rw [Holds, if_pos hnil, Function.update_self]
        refine ⟨fun h => ?_, fun ⟨_, h, _⟩ => (nomatch h)⟩
        obtain ⟨l', hl', hne', -⟩ := h.resolve_left hne
        exact absurd hne' (hall l' hl')
      · rw [Holds, if_neg hnil, Function.update_self]
        refine ⟨fun h => ?_, fun ⟨ls', h, hls'⟩ => ?_⟩
        · obtain ⟨l', hl', hne', hout⟩ := h.resolve_left hne
          exact ⟨_, rfl, .inr ⟨l', List.mem_filter.mpr ⟨hl', by simpa using hne'⟩, hout⟩⟩
        · obtain rfl := Option.some.inj h
          obtain ⟨l', hl', hout⟩ := hls'.resolve_left hnil
          obtain ⟨hl', hne'⟩ := List.mem_filter.mp hl'
          exact .inr ⟨l', hl', by simpa using hne', hout⟩
    · rename_i hmem
      have hne : ∀ l' ∈ ls, l' ≠ l := fun l' hl' heq => hmem (heq ▸ hl')
      rw [Holds]
      constructor
      · rintro (hnil | ⟨l', hl', -, hout⟩)
        · exact ⟨ls, hls, .inl hnil⟩
        · exact ⟨ls, hls, .inr ⟨l', hl', hout⟩⟩
      · rintro ⟨ls', hls', h⟩
        obtain rfl := Option.some.inj (hls.symm.trans hls')
        exact h.imp id fun ⟨l', hl', hout⟩ => ⟨l', hl', hne l' hl', hout⟩
  · simp [Holds, remove_of_ne hr hk, hk]

/-- **Removals go through** exactly when each key has a list when its turn comes. -/
theorem removeAll_isSome_iff (pairs : List (K × L)) :
    (removeAll pairs t).isSome ↔ t.Removable pairs := by
  induction pairs generalizing t with
  | nil => simp [removeAll, Removable]
  | cons p pairs ih =>
    obtain ⟨k, l⟩ := p
    cases hr : t.remove k l with
    | none =>
      have hnot : ¬ t.Holds k [] := by
        rw [← remove_isSome_iff, hr]
        simp
      simp only [removeAll, hr, Option.bind_none, Option.isSome_none, Bool.false_eq_true, false_iff]
      exact fun h => hnot (h [] k l pairs rfl)
    | some t' =>
      have hfirst : t.Holds k [] := by
        rw [← remove_isSome_iff, hr]
        rfl
      rw [removeAll, hr, Option.bind_some, ih]
      refine ⟨fun h pre k' l' post heq => ?_, fun h pre k' l' post heq => ?_⟩
      · cases pre with
        | nil =>
          cases heq
          exact hfirst
        | cons p pre =>
          obtain ⟨rfl, hpairs⟩ := List.cons.inj heq
          exact (holds_cons hr).mpr (h pre k' l' post hpairs)
      · exact (holds_cons hr).mp (h ((k, l) :: pre) k' l' post (by rw [heq]; rfl))

/-! ## One link under several keys -/

/-- A list of links with `l` appended, unless it is there. -/
def withLink (l : L) (x : Option (List L)) : Option (List L) :=
  if l ∈ x.getD [] then x else some (x.getD [] ++ [l])

/-- A list of links without `l`; nothing when no other link is left. -/
def withoutLink (l : L) (x : Option (List L)) : Option (List L) :=
  x.bind fun ls =>
    if l ∈ ls then (if ls.filter (· ≠ l) = [] then none else some (ls.filter (· ≠ l))) else some ls

theorem add_eq_update : t.add k l = Function.update t k (withLink l (t k)) := by
  rw [add, withLink]
  split
  · exact (Function.update_eq_self k t).symm
  · rfl

theorem remove_eq_some_iff :
    t.remove k l = some t' ↔ t k ≠ none ∧ t' = Function.update t k (withoutLink l (t k)) := by
  rw [remove]
  cases h : t k with
  | none => simp
  | some ls =>
    rw [Option.map_some, Option.some_inj, withoutLink, Option.bind_some]
    split
    · exact ⟨fun ht => ⟨Option.some_ne_none ls, ht.symm⟩, fun ht => ht.2.symm⟩
    · rw [← h, Function.update_eq_self]
      exact ⟨fun ht => ⟨h ▸ Option.some_ne_none ls, ht.symm⟩, fun ht => ht.2.symm⟩

theorem mem_withLink (x : Option (List L)) : l ∈ (withLink l x).getD [] := by
  rw [withLink]
  split
  · assumption
  · simp

theorem withLink_of_mem {x : Option (List L)} (h : l ∈ x.getD []) : withLink l x = x := if_pos h

theorem withoutLink_of_notMem {x : Option (List L)} (h : l ∉ x.getD []) : withoutLink l x = x := by
  cases x with
  | none => rfl
  | some ls => exact if_neg h

theorem notMem_withoutLink (x : Option (List L)) : l ∉ (withoutLink l x).getD [] := by
  cases x with
  | none => exact List.not_mem_nil
  | some ls =>
    rw [withoutLink, Option.bind_some]
    by_cases h : l ∈ ls
    · rw [if_pos h]
      split <;> simp
    · rw [if_neg h]
      exact h

/-- Taking back a link that was appended leaves the list as it was, and no list where it was
empty. -/
theorem withoutLink_withLink {x : Option (List L)} (h : l ∉ x.getD []) :
    withoutLink l (withLink l x) = if x.getD [] = [] then none else x := by
  have hfilter : (x.getD [] ++ [l]).filter (· ≠ l) = x.getD [] := by
    rw [List.filter_append, List.filter_eq_self.mpr fun l' hl' => ?_]
    · simp
    · exact decide_eq_true (ne_of_mem_of_not_mem hl' h)
  rw [withLink, if_neg h, withoutLink, Option.bind_some, if_pos (by simp), hfilter]
  cases x with
  | none => rfl
  | some ls => rfl

/-- Adding one link under several keys. -/
theorem addAll_apply (ks : List K) :
    t.addAll (ks.map fun k => (k, l)) k = if k ∈ ks then withLink l (t k) else t k := by
  induction ks generalizing t with
  | nil => simp
  | cons k₀ ks ih =>
    rw [List.map_cons, addAll_cons, ih, add_eq_update]
    by_cases hk : k = k₀
    · subst hk
      simp [withLink_of_mem (mem_withLink (t k))]
    · simp [hk]

/-- **Removing one link under several keys** goes through when each key has a list, which a
key that comes again has not lost by then. -/
theorem removeAll_eq_some_iff (ks : List K) :
    removeAll (ks.map fun k => (k, l)) t = some t' ↔
      (∀ k ∈ ks, t k ≠ none ∧ (withoutLink l (t k) = none → ks.count k = 1)) ∧
        t' = fun k => if k ∈ ks then withoutLink l (t k) else t k := by
  induction ks generalizing t with
  | nil => simp [removeAll, eq_comm]
  | cons k₀ ks ih =>
    have hstep : removeAll ((k₀ :: ks).map fun k => (k, l)) t = some t' ↔ t k₀ ≠ none ∧
        removeAll (ks.map fun k => (k, l)) (Function.update t k₀ (withoutLink l (t k₀))) =
          some t' := by
      rw [List.map_cons, removeAll, Option.bind_eq_some_iff]
      refine ⟨fun ⟨t₁, h₁, h⟩ => ?_, fun ⟨hk₀, h⟩ => ⟨_, remove_eq_some_iff.mpr ⟨hk₀, rfl⟩, h⟩⟩
      obtain ⟨hk₀, rfl⟩ := remove_eq_some_iff.mp h₁
      exact ⟨hk₀, h⟩
    have hidem := withoutLink_of_notMem (notMem_withoutLink (l := l) (t k₀))
    have htable : (fun k => if k ∈ ks then
          withoutLink l (Function.update t k₀ (withoutLink l (t k₀)) k)
        else Function.update t k₀ (withoutLink l (t k₀)) k) =
        fun k => if k ∈ k₀ :: ks then withoutLink l (t k) else t k := by
      funext k
      by_cases hk : k = k₀
      · subst hk
        simp [hidem]
      · simp [hk]
    rw [hstep, ih, htable, ← and_assoc]
    refine and_congr_left fun _ => ⟨fun ⟨hk₀, h⟩ k hk => ?_, fun h => ⟨?_, fun k hk => ?_⟩⟩
    · rcases List.mem_cons.mp hk with rfl | hmem
      · refine ⟨hk₀, fun hnone => ?_⟩
        rw [List.count_cons_self, List.count_eq_zero.mpr]
        intro hmem
        have hne := (h k hmem).1
        rw [Function.update_self] at hne
        exact hne hnone
      · by_cases heq : k = k₀
        · subst heq
          have hne := (h k hmem).1
          rw [Function.update_self] at hne
          exact ⟨hk₀, fun hnone => absurd hnone hne⟩
        · have hk' := h k hmem
          rw [Function.update_of_ne heq] at hk'
          rwa [List.count_cons_of_ne (Ne.symm heq)]
    · exact (h k₀ List.mem_cons_self).1
    · obtain ⟨hne, hcount⟩ := h k (List.mem_cons_of_mem _ hk)
      by_cases heq : k = k₀
      · subst heq
        rw [Function.update_self, hidem]
        have hnot : withoutLink l (t k) ≠ none := by
          intro hnone
          have hpos : 0 < ks.count k := List.count_pos_iff.mpr hk
          have hone := hcount hnone
          rw [List.count_cons_self] at hone
          omega
        exact ⟨hnot, fun hnone => absurd hnone hnot⟩
      · rw [Function.update_of_ne heq]
        rw [List.count_cons_of_ne (Ne.symm heq)] at hcount
        exact ⟨hne, hcount⟩

/-- Removing a link under the keys `removed` takes back what adding it under the keys `added`
did: a key that did not have it comes up again, once where it had no list; one that had it
does not; and the others have lists without it. -/
structure TakesBack (t : LinkTable K L) (l : L) (added removed : List K) : Prop where
  linked : ∀ k ∈ added, t.Linked k l → k ∉ removed
  unlinked : ∀ k ∈ added, ¬ t.Linked k l →
    k ∈ removed ∧ t k ≠ some [] ∧ (t k = none → removed.count k = 1)
  other : ∀ k ∈ removed, k ∉ added → t k ≠ none ∧ ¬ t.Linked k l

omit [DecidableEq L] in
/-- A link that is new to each of the keys is taken back under the same keys. -/
theorem takesBack_self {ks : List K} (hnodup : ks.Nodup) (hnil : ∀ k ∈ ks, t k ≠ some [])
    (hnew : ∀ k ∈ ks, ¬ t.Linked k l) : t.TakesBack l ks ks where
  linked := fun k hk hlinked => absurd hlinked (hnew k hk)
  unlinked := fun k hk _ => ⟨hk, hnil k hk, fun _ => by rw [hnodup.count, if_pos hk]⟩
  other := fun _ hk hnot => absurd hk hnot

/-- **Taking back**: the removals go through and leave the table as it was before. -/
theorem removeAll_addAll_iff (added removed : List K) :
    removeAll (removed.map fun k => (k, l)) (t.addAll (added.map fun k => (k, l))) = some t ↔
      t.TakesBack l added removed := by
  rw [removeAll_eq_some_iff]
  simp only [addAll_apply, funext_iff]
  refine ⟨fun ⟨hrem, htable⟩ => ⟨fun k hk hlinked hmem => ?_, fun k hk hlinked => ?_,
    fun k hk hnot => ?_⟩, fun h => ⟨fun k hk => ?_, fun k => ?_⟩⟩
  · have htk := htable k
    rw [if_pos hmem, if_pos hk] at htk
    have hnot := notMem_withoutLink (l := l) (withLink l (t k))
    rw [← htk, mem_getD_iff] at hnot
    exact hnot hlinked
  · have hnotMem : l ∉ (t k).getD [] := fun h => hlinked (mem_getD_iff.mp h)
    have hmem : k ∈ removed := by
      by_contra hmem
      have htk := htable k
      rw [if_neg hmem, if_pos hk] at htk
      exact hnotMem (htk ▸ mem_withLink (t k))
    have htk := htable k
    have hcount := (hrem k hmem).2
    rw [if_pos hmem, if_pos hk, withoutLink_withLink hnotMem] at htk
    rw [if_pos hk, withoutLink_withLink hnotMem] at hcount
    refine ⟨hmem, fun hnil => ?_, fun hnone => hcount (by simp [hnone])⟩
    simp [hnil] at htk
  · have htk := htable k
    rw [if_pos hk, if_neg hnot] at htk
    refine ⟨by simpa [hnot] using (hrem k hk).1, fun hlinked => ?_⟩
    have hnotMem := notMem_withoutLink (l := l) (t k)
    rw [← htk, mem_getD_iff] at hnotMem
    exact hnotMem hlinked
  · by_cases hadd : k ∈ added
    · rw [if_pos hadd]
      have hlinked : ¬ t.Linked k l := fun hlinked => h.linked k hadd hlinked hk
      have hnotMem : l ∉ (t k).getD [] := fun hm => hlinked (mem_getD_iff.mp hm)
      obtain ⟨-, hnil, hcount⟩ := h.unlinked k hadd hlinked
      refine ⟨by simp [withLink, hnotMem], fun hnone => hcount ?_⟩
      rw [withoutLink_withLink hnotMem] at hnone
      cases htk : t k with
      | none => rfl
      | some ls =>
        rw [htk] at hnone hnil
        have hls : ls ≠ [] := fun heq => hnil (congrArg some heq)
        simp [hls] at hnone
    · rw [if_neg hadd]
      obtain ⟨hne, hlinked⟩ := h.other k hk hadd
      have hnotMem : l ∉ (t k).getD [] := fun hm => hlinked (mem_getD_iff.mp hm)
      rw [withoutLink_of_notMem hnotMem]
      exact ⟨hne, fun hnone => absurd hnone hne⟩
  · by_cases hadd : k ∈ added
    · by_cases hlinked : t.Linked k l
      · simp [h.linked k hadd hlinked, hadd, withLink_of_mem (mem_getD_iff.mpr hlinked)]
      · have hnotMem : l ∉ (t k).getD [] := fun hm => hlinked (mem_getD_iff.mp hm)
        obtain ⟨hmem, hnil, -⟩ := h.unlinked k hadd hlinked
        rw [if_pos hmem, if_pos hadd, withoutLink_withLink hnotMem]
        cases htk : t k with
        | none => rfl
        | some ls =>
          rw [htk] at hnil
          have hls : ls ≠ [] := fun heq => hnil (congrArg some heq)
          simp [hls]
    · by_cases hmem : k ∈ removed
      · have hnotMem : l ∉ (t k).getD [] := fun hm =>
          (h.other k hmem hadd).2 (mem_getD_iff.mp hm)
        simp [hmem, hadd, withoutLink_of_notMem hnotMem]
      · simp [hmem, hadd]

end LinkTable
