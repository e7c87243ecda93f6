import Mathlib.Data.List.Sort
import Qdocdb.Lib.Selections

/-!
# What neighbour swaps can do

A bubble sort only swaps neighbours of which the first is late. So it never changes the order
of two elements that are not late to each other: where all elements are comparable it is the
stable sort, of which there is one only (`StableSorted.unique`), and an element can be added
to a sorted and cut list as to the whole one (`cut_bubbleSort_cut`). Where elements of
different kinds cannot be compared, an element never gets past one of another kind, and the
result is sorted exactly when no such element stands in the way
(`pairwise_bubbleSort_iff`).
-/

universe u

variable {α : Type u} {late : α → α → Bool}

/-- Swaps of neighbours of which the first is late. -/
inductive Swaps (late : α → α → Bool) (l : List α) : List α → Prop
  | refl : Swaps late l l
  | swap {a b : List α} {x y : α} : Swaps late l (a ++ x :: y :: b) → late x y = true →
    Swaps late l (a ++ y :: x :: b)

namespace Swaps

variable {l l' l'' : List α}

theorem trans (h : Swaps late l l') (h' : Swaps late l' l'') : Swaps late l l'' := by
  induction h' with
  | refl => exact h
  | swap _ hlate ih => exact .swap ih hlate

theorem cons (h : Swaps late l l') (x : α) : Swaps late (x :: l) (x :: l') := by
  induction h with
  | refl => exact .refl
  | swap _ hlate ih =>
    rename_i a b v w _
    exact @Swaps.swap _ late (x :: l) (x :: a) b v w ih hlate

end Swaps

theorem swaps_bubblePass (x : α) (l : List α) :
    Swaps late (x :: l) (bubblePass late x l).1 := by
  induction l generalizing x with
  | nil => exact .refl
  | cons y l ih =>
    rw [bubblePass]
    split
    · rename_i hlate
      have hswap : Swaps late (x :: y :: l) (y :: x :: l) := @Swaps.swap _ late _ [] l x y .refl hlate
      exact hswap.trans ((ih x).cons y)
    · exact (ih y).cons x

theorem swaps_bubbleSort (fuel : ℕ) (l : List α) : Swaps late l (bubbleSort late fuel l) := by
  induction fuel generalizing l with
  | zero => exact .refl
  | succ fuel ih =>
    cases l with
    | nil => exact .refl
    | cons x l =>
      rw [bubbleSort]
      split
      · exact (swaps_bubblePass x l).trans (ih _)
      · exact swaps_bubblePass x l

/-- Elements picked from a list are still there in this order when two neighbours swap, unless
both neighbours were picked. -/
theorem sublist_of_swap {s a b : List α} {x y : α} (h : s.Sublist (a ++ x :: y :: b)) :
    s.Sublist (a ++ y :: x :: b) ∨ ∃ s₁ s₂, s = s₁ ++ x :: y :: s₂ := by
  obtain ⟨s₁, s₂, rfl, h₁, h₂⟩ := List.sublist_append_iff.mp h
  rcases List.sublist_cons_iff.mp h₂ with h₂ | ⟨s₃, rfl, h₃⟩
  · -- the first of the two was not picked
    left
    apply h₁.append
    rcases List.sublist_cons_iff.mp h₂ with h₂ | ⟨s₃, rfl, h₃⟩
    · exact (h₂.cons x).cons y
    · exact (h₃.cons x).cons_cons y
  · rcases List.sublist_cons_iff.mp h₃ with h₃ | ⟨s₄, rfl, h₄⟩
    · left
      exact h₁.append ((h₃.cons_cons x).cons y)
    · right
      exact ⟨s₁, s₄, rfl⟩

/-! ## Stability -/

/-- The list `s` has the elements of `l` in order, and where this leaves a choice they stand as
in `l`. -/
structure StableSorted (late : α → α → Bool) (l s : List α) : Prop where
  perm : s.Perm l
  sorted : s.Pairwise fun x y => late x y = false
  stable : ∀ x y, [x, y].Sublist l → late x y = false → [x, y].Sublist s

/-- Two elements that are in order stay in this order. -/
theorem Swaps.stable {l l' : List α} (h : Swaps late l l') {x y : α} (hxy : [x, y].Sublist l)
    (hlate : late x y = false) : [x, y].Sublist l' := by
  induction h with
  | refl => exact hxy
  | swap _ hswap ih =>
    rename_i a b v w _
    refine (sublist_of_swap ih).resolve_right ?_
    rintro ⟨s₁, s₂, heq⟩
    have hlength := congrArg List.length heq
    have hnil : s₁ = [] := by
      apply List.length_eq_zero_iff.mp
      simp at hlength
      omega
    simp only [hnil, List.nil_append, List.cons.injEq] at heq
    rw [heq.1, heq.2.1, hswap] at hlate
    cases hlate

/-- In a list without duplicates two elements stand in one order only. -/
theorem not_sublist_swap {l : List α} (hl : l.Nodup) {x y : α} (h : [x, y].Sublist l)
    (h' : [y, x].Sublist l) : False := by
  induction l with
  | nil => cases h
  | cons z l ih =>
    obtain ⟨hz, hl⟩ := List.nodup_cons.mp hl
    rcases List.sublist_cons_iff.mp h with hxy | ⟨r, heq, hr⟩
    · rcases List.sublist_cons_iff.mp h' with hyx | ⟨r, heq, hr⟩
      · exact ih hl hxy hyx
      · rw [List.cons.injEq] at heq
        exact hz (hxy.subset (by simp [heq.1]))
    · rw [List.cons.injEq] at heq
      obtain ⟨rfl, rfl⟩ := heq
      rcases List.sublist_cons_iff.mp h' with hyx | ⟨r, heq, -⟩
      · exact hz (hyx.subset (by simp))
      · rw [List.cons.injEq] at heq
        exact hz (hr.subset (by simp [heq.1]))

/-- Two different elements of a list stand in some order. -/
theorem sublist_or_of_mem {l : List α} {x y : α} (hx : x ∈ l) (hy : y ∈ l) (hne : x ≠ y) :
    [x, y].Sublist l ∨ [y, x].Sublist l := by
  induction l with
  | nil => cases hx
  | cons z l ih =>
    rcases List.mem_cons.mp hx with rfl | hx'
    · left
      apply List.Sublist.cons_cons
      exact List.singleton_sublist.mpr ((List.mem_cons.mp hy).resolve_left (Ne.symm hne))
    · rcases List.mem_cons.mp hy with rfl | hy'
      · right
        apply List.Sublist.cons_cons
        exact List.singleton_sublist.mpr hx'
      · exact (ih hx' hy').imp (·.cons z) (·.cons z)

/-- **There is one** stable sorted list. -/
theorem StableSorted.unique {l s s' : List α} (hl : l.Nodup) (h : StableSorted late l s)
    (h' : StableSorted late l s') : s = s' := by
  -- elements that may stand in either order stand as in `l`
  have htie : ∀ {t : List α}, StableSorted late l t →
      t.Pairwise fun x y => late x y = false ∧ (late y x = false → [x, y].Sublist l) := by
    intro t ht
    have hnodup : t.Nodup := ht.perm.nodup_iff.mpr hl
    apply List.pairwise_of_forall_sublist
    intro x y hxy
    refine ⟨ht.sorted.forall_sublist hxy, fun hlate => ?_⟩
    have hne : x ≠ y := by simpa using hnodup.sublist hxy
    have hx := ht.perm.mem_iff.mp (hxy.subset (by simp) : x ∈ t)
    have hy := ht.perm.mem_iff.mp (hxy.subset (by simp) : y ∈ t)
    refine (sublist_or_of_mem hx hy hne).resolve_right fun hyx => ?_
    exact not_sublist_swap hnodup hxy (ht.stable y x hyx hlate)
  refine List.Perm.eq_of_pairwise ?_ (htie h) (htie h') (h.perm.trans h'.perm.symm)
  rintro x y hx hy ⟨hxy, htxy⟩ ⟨hyx, htyx⟩
  exact (not_sublist_swap hl (htxy hyx) (htyx hxy)).elim

/-- An element is put in front of the first one that is late to it. -/
abbrev insertBehind (late : α → α → Bool) (d : α) (l : List α) : List α :=
  l.orderedInsert (fun x y => late y x = true) d

/-- What is not late to the new element stands before it. -/
theorem sublist_insertBehind {l : List α} {d : α} (hl : l.Pairwise fun x y => late x y = false)
    (hcmp : Comparable late {x | x ∈ l ++ [d]}) {p : α} (hp : p ∈ l) (hpd : late p d = false) :
    [p, d].Sublist (insertBehind late d l) := by
  induction l with
  | nil => cases hp
  | cons x l ih =>
    obtain ⟨hx, hl⟩ := List.pairwise_cons.mp hl
    have hcmp' : Comparable late {x | x ∈ l ++ [d]} := fun u hu v hv w hw =>
      hcmp u (List.mem_cons_of_mem x hu) v (List.mem_cons_of_mem x hv) w
        (List.mem_cons_of_mem x hw)
    -- `x` is not late to `d`, or `p` would be
    have hxd : late x d = false := by
      rcases List.mem_cons.mp hp with rfl | hp
      · exact hpd
      · exact hcmp x (by simp) p (by simp [hp]) d (by simp) (hx p hp) hpd
    rw [insertBehind, List.orderedInsert_cons, if_neg (by simp [hxd])]
    rcases List.mem_cons.mp hp with rfl | hp
    · apply List.Sublist.cons_cons
      exact List.singleton_sublist.mpr ((List.mem_orderedInsert _).mpr (.inl rfl))
    · exact (ih hl hcmp' hp).cons x

/-- A list is cut before or after the new element gets its place. -/
theorem take_insertBehind_take (d : α) (l : List α) (n : ℕ) :
    (insertBehind late d (l.take n)).take n = (insertBehind late d l).take n := by
  induction l generalizing n with
  | nil => rw [List.take_nil]
  | cons x l ih =>
    cases n with
    | zero => rfl
    | succ n =>
      have htake : (x :: l.take n).take n = (x :: l).take n := by
        rw [← List.take_succ_cons, List.take_take, Nat.min_eq_left (Nat.le_succ n)]
      rw [List.take_succ_cons, insertBehind, insertBehind, List.orderedInsert_cons,
        List.orderedInsert_cons]
      split
      · rw [List.take_succ_cons, List.take_succ_cons, htake]
      · rw [List.take_succ_cons, List.take_succ_cons]
        exact congrArg (x :: ·) (ih n)

theorem cut_insertBehind_cut (limit : Option ℕ) (d : α) (l : List α) :
    cut limit (insertBehind late d (cut limit l)) = cut limit (insertBehind late d l) := by
  cases limit with
  | none => rfl
  | some n => exact take_insertBehind_take d l n

section Comparable

variable (hlate : ∀ x y, late x y = true → late y x = false)

include hlate

/-- **Sorting** comparable elements is stable. -/
theorem stableSorted_bubbleSort {l : List α} (hl : Comparable late {x | x ∈ l}) {fuel : ℕ}
    (hfuel : inversions late l < fuel) : StableSorted late l (bubbleSort late fuel l) where
  perm := perm_bubbleSort fuel l
  sorted := (ordered_bubbleSort hlate hfuel).pairwise hl fun _ hx =>
    (perm_bubbleSort fuel l).mem_iff.mp hx
  stable := fun _ _ hxy => (swaps_bubbleSort fuel l).stable hxy

/-! ## One more element -/

/-- **An element behind a sorted list** ends up behind those that are not late to it. -/
theorem stableSorted_insertBehind {l : List α} {d : α} (hl : l.Pairwise fun x y => late x y = false)
    (hcmp : Comparable late {x | x ∈ l ++ [d]}) :
    StableSorted late (l ++ [d]) (insertBehind late d l) := by
  refine ⟨(List.perm_orderedInsert _ d l).trans (List.perm_append_singleton d l).symm, ?_, ?_⟩
  · induction l with
    | nil => exact List.pairwise_singleton _ d
    | cons x l ih =>
      obtain ⟨hx, hl⟩ := List.pairwise_cons.mp hl
      rw [insertBehind, List.orderedInsert_cons]
      split
      · -- what is behind `x` is behind `d`
        rename_i hxd
        have hdx : late d x = false := hlate x d hxd
        refine List.pairwise_cons.mpr ⟨fun z hz => ?_, List.pairwise_cons.mpr ⟨hx, hl⟩⟩
        rcases List.mem_cons.mp hz with rfl | hz
        · exact hdx
        · exact hcmp d (by simp) x (by simp) z (by simp [hz]) hdx (hx z hz)
      · rename_i hxd
        have hcmp' : Comparable late {x | x ∈ l ++ [d]} := fun u hu v hv w hw =>
          hcmp u (List.mem_cons_of_mem x hu) v (List.mem_cons_of_mem x hv) w
            (List.mem_cons_of_mem x hw)
        refine List.pairwise_cons.mpr ⟨fun z hz => ?_, ih hl hcmp'⟩
        rcases (List.mem_orderedInsert _).mp hz with rfl | hz
        · simpa using hxd
        · exact hx z hz
  · intro p q hpq hlate_pq
    obtain ⟨s₁, s₂, heq, h₁, h₂⟩ := List.sublist_append_iff.mp hpq
    rcases List.sublist_singleton.mp h₂ with rfl | rfl
    · rw [List.append_nil] at heq
      rw [heq]
      exact h₁.trans (List.sublist_orderedInsert d l)
    · obtain ⟨rfl, rfl⟩ : s₁ = [p] ∧ q = d := by
        have hlast := congrArg List.getLast? heq
        have hinit := congrArg List.dropLast heq
        simp at hlast hinit
        exact ⟨hinit.symm, hlast⟩
      exact sublist_insertBehind hl hcmp (List.singleton_sublist.mp h₁) hlate_pq

/-- **Adding** an element to a list that was sorted and cut gives what adding it to the whole
list does. -/
theorem cut_bubbleSort_cut {l : List α} {d : α} (hnodup : (l ++ [d]).Nodup)
    (hcmp : Comparable late {x | x ∈ l ++ [d]}) (limit : Option ℕ) {fuel fuel' fuel'' : ℕ}
    (hfuel : inversions late l < fuel)
    (hfuel' : inversions late (cut limit (bubbleSort late fuel l) ++ [d]) < fuel')
    (hfuel'' : inversions late (l ++ [d]) < fuel'') :
    cut limit (bubbleSort late fuel' (cut limit (bubbleSort late fuel l) ++ [d])) =
      cut limit (bubbleSort late fuel'' (l ++ [d])) := by
  have hsub : ∀ x ∈ l, x ∈ l ++ [d] := fun x hx => List.mem_append_left _ hx
  have hs := stableSorted_bubbleSort hlate
    (fun u hu v hv w hw => hcmp u (hsub u hu) v (hsub v hv) w (hsub w hw)) hfuel
  generalize bubbleSort late fuel l = s at hs hfuel'
  have hmem : ∀ x, x ∈ cut limit s ++ [d] → x ∈ l ++ [d] := fun x hx => by
    rcases List.mem_append.mp hx with hx | hx
    · exact List.mem_append_left _ (hs.perm.mem_iff.mp ((prefix_cut limit s).subset hx))
    · exact List.mem_append_right _ hx
  -- the kept elements with the new one are in order with it at its place
  have hkept : bubbleSort late fuel' (cut limit s ++ [d]) = insertBehind late d (cut limit s) := by
    have hcmp' : Comparable late {x | x ∈ cut limit s ++ [d]} := fun u hu v hv w hw =>
      hcmp u (hmem u hu) v (hmem v hv) w (hmem w hw)
    have hsublist : (cut limit s ++ [d]).Sublist (s ++ [d]) :=
      (prefix_cut limit s).sublist.append (List.Sublist.refl _)
    have hnodup' : (s ++ [d]).Nodup := (hs.perm.append_right [d]).nodup_iff.mpr hnodup
    exact (stableSorted_bubbleSort hlate hcmp' hfuel').unique (hnodup'.sublist hsublist)
      (stableSorted_insertBehind hlate (hs.sorted.sublist (prefix_cut limit s).sublist) hcmp')
  -- and so are all elements
  have hall : bubbleSort late fuel'' (l ++ [d]) = insertBehind late d s := by
    have hcmp' : Comparable late {x | x ∈ s ++ [d]} := fun u hu v hv w hw =>
      hcmp u ((hs.perm.append_right [d]).mem_iff.mp hu) v ((hs.perm.append_right [d]).mem_iff.mp hv)
        w ((hs.perm.append_right [d]).mem_iff.mp hw)
    have hinsert := stableSorted_insertBehind hlate hs.sorted hcmp'
    refine (stableSorted_bubbleSort hlate hcmp hfuel'').unique hnodup
      ⟨hinsert.perm.trans (hs.perm.append_right [d]), hinsert.sorted, fun x y hxy hle => ?_⟩
    apply hinsert.stable x y ?_ hle
    obtain ⟨s₁, s₂, heq, h₁, h₂⟩ := List.sublist_append_iff.mp hxy
    rcases List.sublist_singleton.mp h₂ with rfl | rfl
    · rw [List.append_nil] at heq
      rw [heq] at hxy ⊢
      subst heq
      exact (hs.stable x y h₁ hle).trans (List.sublist_append_left s [d])
    · have hlength := congrArg List.length heq
      obtain ⟨z, rfl⟩ : ∃ z, s₁ = [z] := List.length_eq_one_iff.mp (by simpa using hlength.symm)
      rw [heq]
      exact (List.singleton_sublist.mpr
        (hs.perm.mem_iff.mpr (List.singleton_sublist.mp h₁))).append (List.Sublist.refl [d])
  rw [hkept, hall, cut_insertBehind_cut]

end Comparable

/-! ## Elements of several kinds -/

section Kinds

variable {κ : Type*} {kind : α → κ}

/-- An element is late to another one, and one of another kind stands between them. -/
def Obstructed (late : α → α → Bool) (kind : α → κ) (l : List α) : Prop :=
  ∃ x z y, [x, z, y].Sublist l ∧ late x y = true ∧ kind z ≠ kind x

variable (hkind : ∀ x y, late x y = true → kind x = kind y)

include hkind

theorem Obstructed.of_swap {a b : List α} {x y : α} (hxy : kind x = kind y)
    (h : Obstructed late kind (a ++ x :: y :: b)) : Obstructed late kind (a ++ y :: x :: b) := by
  obtain ⟨p, z, q, hsub, hlate, hz⟩ := h
  refine ⟨p, z, q, (sublist_of_swap hsub).resolve_right ?_, hlate, hz⟩
  -- of the three no two neighbours have one kind
  rintro ⟨s₁, s₂, heq⟩
  have hpq := hkind p q hlate
  rcases s₁ with - | ⟨w, - | ⟨w', s₁⟩⟩
  · simp only [List.nil_append, List.cons.injEq] at heq
    apply hz
    rw [heq.1, heq.2.1, hxy]
  · simp only [List.cons_append, List.nil_append, List.cons.injEq] at heq
    apply hz
    rw [hpq, heq.2.1, heq.2.2.1, hxy]
  · have hlength := congrArg List.length heq
    simp at hlength
    omega

/-- Swaps neither bring an element in the way nor out of it. -/
theorem Swaps.obstructed_iff {l l' : List α} (h : Swaps late l l') :
    Obstructed late kind l' ↔ Obstructed late kind l := by
  induction h with
  | refl => exact Iff.rfl
  | swap _ hlate ih =>
    have hxy := hkind _ _ hlate
    rw [← ih]
    exact ⟨.of_swap hkind hxy.symm, .of_swap hkind hxy⟩

variable (htrans : ∀ x y z, kind x = kind y → kind y = kind z → late x y = false →
  late y z = false → late x z = false)

include htrans

/-- A list in order is sorted when nothing stands in the way. -/
theorem Ordered.pairwise_iff {s : List α} (h : Ordered late s) :
    (s.Pairwise fun x y => late x y = false) ↔ ¬ Obstructed late kind s := by
  constructor
  · rintro hsorted ⟨x, z, y, hsub, hlate, -⟩
    have hxy : [x, y].Sublist [x, z, y] := List.Sublist.cons_cons x (List.Sublist.cons z (.refl _))
    rw [hsorted.forall_sublist (hxy.trans hsub)] at hlate
    cases hlate
  · intro hfree
    apply List.pairwise_of_forall_sublist
    intro x y hxy
    by_contra hlate
    obtain ⟨r₁, r₂, rfl, hx, hy⟩ := List.cons_sublist_iff.mp hxy
    obtain ⟨a, m₁, rfl⟩ := List.append_of_mem hx
    obtain ⟨m₂, b, rfl⟩ := List.append_of_mem (List.singleton_sublist.mp hy)
    have hlate : late x y = true := by simpa using hlate
    have hxy := hkind x y hlate
    -- everything between the two has their kind
    have hmid : ∀ w ∈ x :: (m₁ ++ m₂) ++ [y], w ∈ {w | kind w = kind x} := by
      intro w hw
      by_contra hne
      have hw' : w ∈ m₁ ++ m₂ := by
        rcases List.mem_append.mp hw with hw | hw
        · exact (List.mem_cons.mp hw).resolve_left fun heq => hne (heq ▸ rfl)
        · exact absurd (List.mem_singleton.mp hw ▸ hxy.symm) hne
      refine hfree ⟨x, w, y, ?_, hlate, hne⟩
      have hsub : [x, w, y].Sublist (x :: (m₁ ++ m₂) ++ [y]) :=
        ((List.singleton_sublist.mpr hw').append (List.Sublist.refl [y])).cons_cons x
      refine hsub.trans ?_
      have hsplit : (a ++ x :: m₁) ++ (m₂ ++ y :: b) = a ++ (x :: (m₁ ++ m₂) ++ [y]) ++ b := by simp
      rw [hsplit]
      exact (List.sublist_append_right a _).trans (List.sublist_append_left _ b)
    have hchain : Ordered late (x :: (m₁ ++ m₂) ++ [y]) := by
      refine List.IsChain.infix h ⟨a, b, ?_⟩
      simp
    have hcmp : Comparable late {w | kind w = kind x} := fun u hu v hv w hw =>
      htrans u v w (hu.trans hv.symm) (hv.trans hw.symm)
    have hsorted := hchain.pairwise hcmp hmid
    have hpair : [x, y].Sublist (x :: (m₁ ++ m₂) ++ [y]) :=
      (List.sublist_append_right (m₁ ++ m₂) [y]).cons_cons x
    rw [hsorted.forall_sublist hpair] at hlate
    cases hlate

/-- **Sorting** elements of several kinds works out exactly when nothing stands in the way. -/
theorem pairwise_bubbleSort_iff (hlate : ∀ x y, late x y = true → late y x = false) {l : List α}
    {fuel : ℕ} (hfuel : inversions late l < fuel) :
    ((bubbleSort late fuel l).Pairwise fun x y => late x y = false) ↔
      ¬ Obstructed late kind l := by
  rw [(ordered_bubbleSort hlate hfuel).pairwise_iff hkind htrans,
    (swaps_bubbleSort fuel l).obstructed_iff hkind]

end Kinds
