import Mathlib.Data.List.Dedup
import Mathlib.Data.List.Nodup
import Mathlib.Data.List.Perm.Basic
import Mathlib.Data.Set.Basic
import Qdocdb.Lib.BubbleSort

/-!
# Selections that are kept up to date

A selection lists the elements of a set in order, at most as many as a limit allows, and
the ones that come first. When the set changes by one element the selection can be patched:
the list is changed in the same way, sorted again and cut (`Selection.insert`,
`Selection.replace`, `Selection.erase`). An element that was cut off is forgotten, so a
patch that makes one come forward needs to know that nothing was cut off. Without regard to
ties, selections are the results of sorting and cutting (`Arranged`).
-/

universe u

variable {α : Type u}

/-- As many elements as the limit allows. -/
def cut (limit : Option ℕ) (l : List α) : List α :=
  match limit with
  | none => l
  | some n => l.take n

/-- The limit leaves room behind the list. -/
def HasRoom (limit : Option ℕ) (l : List α) : Prop := ∀ n ∈ limit, l.length < n

/-- The list shows the elements of `M` in order, up to a limit; what is left out is not
late to what is shown. -/
structure Selection (late : α → α → Bool) (limit : Option ℕ) (M : Set α) (l : List α) :
    Prop where
  nodup : l.Nodup
  subset : ∀ x ∈ l, x ∈ M
  ordered : Ordered late l
  length_le : ∀ n ∈ limit, l.length ≤ n
  full : HasRoom limit l → ∀ x ∈ M, x ∈ l
  best : ∀ x ∈ l, ∀ y ∈ M, y ∉ l → late x y = false

/-- On `M` being late is a strict weak order: what is not late is ordered transitively. -/
def Comparable (late : α → α → Bool) (M : Set α) : Prop :=
  ∀ x ∈ M, ∀ y ∈ M, ∀ z ∈ M, late x y = false → late y z = false → late x z = false

variable {late : α → α → Bool} {limit : Option ℕ} {M : Set α} {l l' : List α}

/-! ## Cutting -/

theorem cut_of_length_le (h : ∀ n ∈ limit, l.length ≤ n) : cut limit l = l := by
  cases limit with
  | none => rfl
  | some n => exact List.take_of_length_le (h n rfl)

theorem prefix_cut (limit : Option ℕ) (l : List α) : cut limit l <+: l := by
  cases limit with
  | none => exact List.prefix_rfl
  | some n => exact List.take_prefix n l

theorem Ordered.cut (h : Ordered late l) (limit : Option ℕ) : Ordered late (cut limit l) :=
  List.IsChain.prefix h (prefix_cut limit l)

theorem length_cut_le (l : List α) : ∀ n ∈ limit, (cut limit l).length ≤ n := by
  rintro n rfl
  exact List.length_take_le n l

/-- A list in order of comparable elements is sorted. -/
theorem Ordered.pairwise (h : Ordered late l) (hM : Comparable late M) (hl : ∀ x ∈ l, x ∈ M) :
    l.Pairwise fun x y => late x y = false := by
  induction l with
  | nil => exact List.Pairwise.nil
  | cons x l ih =>
    have hrest := ih h.tail fun y hy => hl y (List.mem_cons_of_mem x hy)
    refine List.pairwise_cons.mpr ⟨fun z hz => ?_, hrest⟩
    cases l with
    | nil => cases hz
    | cons y l =>
      have hxy : late x y = false := (List.isChain_cons_cons.mp h).1
      rcases List.mem_cons.mp hz with rfl | hz'
      · exact hxy
      · exact hM x (hl x (by simp)) y (hl y (by simp)) z (hl z (by simp [hz'])) hxy
          (List.rel_of_pairwise_cons hrest hz')

namespace Selection

/-! ## Patches -/

/-- A list that shows everything, up to its order. -/
theorem of_mem_iff (hnodup : l.Nodup) (hmem : ∀ x, x ∈ l ↔ x ∈ M) (hordered : Ordered late l)
    (hlength : ∀ n ∈ limit, l.length ≤ n) : Selection late limit M l where
  nodup := hnodup
  subset := fun x hx => (hmem x).mp hx
  ordered := hordered
  length_le := hlength
  full := fun _ x hx => (hmem x).mpr hx
  best := fun _ _ y hy hn => absurd ((hmem y).mpr hy) hn

section Patch

variable (h : Selection late limit M l)

include h

/-- **A new element** is appended, and the list sorted and cut. The element that may be cut
off is the last one, behind which nothing is late. -/
theorem insert {x : α} (hx : x ∉ M) (hp : l'.Perm (l ++ [x])) (ho : Ordered late l')
    (hroom : HasRoom limit l ∨ Comparable late (Insert.insert x M)) :
    Selection late limit (Insert.insert x M) (cut limit l') := by
  have hxl : x ∉ l := fun hxl => hx (h.subset x hxl)
  have hnodup : l'.Nodup := by
    rw [hp.nodup_iff, ← List.concat_eq_append, List.nodup_concat]
    exact ⟨hxl, h.nodup⟩
  have hmem : ∀ y, y ∈ l' ↔ y ∈ l ∨ y = x := fun y => by rw [hp.mem_iff]; simp
  have hsubset : ∀ y ∈ l', y ∈ Insert.insert x M := fun y hy =>
    ((hmem y).mp hy).elim (fun hy => .inr (h.subset y hy)) .inl
  have hlength : l'.length = l.length + 1 := by simp [hp.length_eq]
  by_cases hr : HasRoom limit l
  · -- nothing was cut off, and nothing is
    have hle : ∀ n ∈ limit, l'.length ≤ n := fun n hn => hlength ▸ hr n hn
    rw [cut_of_length_le hle]
    refine .of_mem_iff hnodup (fun y => ⟨hsubset y, ?_⟩) ho hle
    rintro (rfl | hy)
    · exact (hmem y).mpr (.inr rfl)
    · exact (hmem y).mpr (.inl (h.full hr y hy))
  · -- the list was full, so one element is cut off
    have hcmp := hroom.resolve_left hr
    obtain ⟨n, hn, hnl⟩ : ∃ n ∈ limit, n ≤ l.length := by simpa [HasRoom] using hr
    obtain rfl : limit = some n := hn
    obtain rfl : l.length = n := le_antisymm (h.length_le n rfl) hnl
    have hsorted := ho.pairwise hcmp hsubset
    rw [← List.take_append_drop l.length l', List.pairwise_append] at hsorted
    refine ⟨hnodup.sublist (prefix_cut _ _).sublist,
      fun y hy => hsubset y ((prefix_cut _ _).subset hy), ho.cut _, length_cut_le l', ?_, ?_⟩
    · intro hlt
      have := hlt l.length rfl
      simp [cut, hlength] at this
    · intro y hy z hz hzn
      have hyl' : y ∈ l' := (prefix_cut _ _).subset hy
      by_cases hzl' : z ∈ l'
      · -- what was cut off just now is not in front
        refine hsorted.2.2 y hy z ?_
        rw [← List.take_append_drop l.length l'] at hzl'
        exact (List.mem_append.mp hzl').resolve_left hzn
      · have hzM : z ∈ M := hz.resolve_left fun hzx => hzl' ((hmem z).mpr (.inr hzx))
        have hzl : z ∉ l := fun hzl => hzl' ((hmem z).mpr (.inl hzl))
        rcases (hmem y).mp hyl' with hyl | rfl
        · exact h.best y hyl z hzM hzl
        · -- the element that had to go is between the new one and `z`
          obtain ⟨w, hw⟩ : ∃ w, w ∈ l'.drop l.length := by
            refine List.exists_mem_of_ne_nil _ fun hnil => ?_
            have := congrArg List.length hnil
            simp [hlength] at this
          have hyw : late y w = false := hsorted.2.2 y hy w hw
          have hwl : w ∈ l := by
            refine ((hmem w).mp (List.mem_of_mem_drop hw)).resolve_right fun hwy => ?_
            rw [← List.take_append_drop l.length l', List.nodup_append] at hnodup
            exact hnodup.2.2 y hy w hw hwy.symm
          exact hcmp y (hsubset y hyl') w (.inr (h.subset w hwl)) z hz hyw
            (h.best w hwl z hzM hzl)

/-- **An element that is shown changes**: nothing that was left out may come before it. -/
theorem replace [DecidableEq α] {x y : α} (hx : x ∈ l) (hy : y ∉ M \ {x})
    (hp : l'.Perm (y :: l.erase x)) (ho : Ordered late l')
    (hbest : ∀ z ∈ M, z ∉ l → late y z = false) :
    Selection late limit (Insert.insert y (M \ {x})) (cut limit l') := by
  have hye : y ∉ l.erase x := fun hm =>
    hy ⟨h.subset y (List.mem_of_mem_erase hm), fun hyx => h.nodup.not_mem_erase (hyx ▸ hm)⟩
  have hmem : ∀ z, z ∈ l' ↔ z = y ∨ z ∈ l ∧ z ≠ x := fun z => by
    rw [hp.mem_iff, List.mem_cons, h.nodup.mem_erase_iff, and_comm]
  have hlength : l'.length = l.length := by
    rw [hp.length_eq, List.length_cons, List.length_erase_of_mem hx]
    exact Nat.sub_add_cancel (List.length_pos_of_mem hx)
  have hle : ∀ n ∈ limit, l'.length ≤ n := hlength ▸ h.length_le
  rw [cut_of_length_le hle]
  refine ⟨hp.nodup_iff.mpr (List.nodup_cons.mpr ⟨hye, h.nodup.erase x⟩), ?_, ho, hle, ?_, ?_⟩
  · intro z hz
    rcases (hmem z).mp hz with rfl | ⟨hzl, hzx⟩
    · exact .inl rfl
    · exact .inr ⟨h.subset z hzl, hzx⟩
  · intro hroom z hz
    rw [HasRoom, hlength] at hroom
    rcases hz with rfl | ⟨hzM, hzx⟩
    · exact (hmem z).mpr (.inl rfl)
    · exact (hmem z).mpr (.inr ⟨h.full hroom z hzM, hzx⟩)
  · intro z hz w hw hwn
    obtain ⟨hwM, hwx⟩ := hw.resolve_left fun hwy => hwn ((hmem w).mpr (.inl hwy))
    have hwl : w ∉ l := fun hwl => hwn ((hmem w).mpr (.inr ⟨hwl, hwx⟩))
    rcases (hmem z).mp hz with rfl | ⟨hzl, -⟩
    · exact hbest w hwM hwl
    · exact h.best z hzl w hwM hwl

/-- **A new element is left out** of a full list, whose elements it does not come before. -/
theorem leave {x : α} (hroom : ¬ HasRoom limit l) (hbest : ∀ z ∈ l, late z x = false) :
    Selection late limit (Insert.insert x M) l where
  nodup := h.nodup
  subset := fun z hz => .inr (h.subset z hz)
  ordered := h.ordered
  length_le := h.length_le
  full := fun hr => absurd hr hroom
  best := by
    rintro z hz w (rfl | hw) hwl
    · exact hbest z hz
    · exact h.best z hz w hw hwl

/-- **An element that is shown goes**: something that was left out would have to come
forward. -/
theorem erase [DecidableEq α] {x : α} (hall : ∀ z ∈ M, z ∈ l)
    (hp : l'.Perm (l.erase x)) (ho : Ordered late l') :
    Selection late limit (M \ {x}) (cut limit l') := by
  have hmem : ∀ z, z ∈ l' ↔ z ∈ M \ {x} := fun z => by
    rw [hp.mem_iff, h.nodup.mem_erase_iff]
    exact ⟨fun hz => ⟨h.subset z hz.2, hz.1⟩, fun hz => ⟨hz.2, hall z hz.1⟩⟩
  have hle : ∀ n ∈ limit, l'.length ≤ n := fun n hn =>
    (hp.length_eq.trans_le (List.length_erase_le)).trans (h.length_le n hn)
  rw [cut_of_length_le hle]
  exact .of_mem_iff (hp.nodup_iff.mpr (h.nodup.erase x)) hmem ho hle

/-- An element that was left out goes. -/
theorem erase_of_notMem {x : α} (hxl : x ∉ l) : Selection late limit (M \ {x}) l where
  nodup := h.nodup
  subset := fun z hz => ⟨h.subset z hz, fun hzx => hxl (hzx ▸ hz)⟩
  ordered := h.ordered
  length_le := h.length_le
  full := fun hroom z hz => h.full hroom z hz.1
  best := fun z hz w hw => h.best z hz w hw.1

/-- **A selection** is what sorting and cutting makes of the elements in some order. -/
theorem exists_arrangement [DecidableEq α] {L : List α}
    (hlate : ∀ x y, late x y = true → late y x = false) (hL : L.Nodup)
    (hmem : ∀ x, x ∈ L ↔ x ∈ M) :
    ∃ L' : List α, L'.Perm L ∧ Ordered late L' ∧ cut limit L' = l := by
  -- behind the list come the elements that were left out, in order
  let rest := L.filter fun x => x ∉ l
  let sorted := bubbleSort late (inversions late rest + 1) rest
  have hsorted : sorted.Perm rest := perm_bubbleSort _ rest
  have hrest : ∀ x, x ∈ sorted ↔ x ∈ M ∧ x ∉ l := fun x => by
    rw [hsorted.mem_iff]
    simp [rest, hmem]
  refine ⟨l ++ sorted, ?_, ?_, ?_⟩
  · rw [List.perm_ext_iff_of_nodup _ hL]
    · intro x
      rw [List.mem_append, hrest, hmem]
      constructor
      · rintro (hx | hx)
        · exact h.subset x hx
        · exact hx.1
      · intro hx
        by_cases hxl : x ∈ l
        · exact .inl hxl
        · exact .inr ⟨hx, hxl⟩
    · refine List.nodup_append.mpr ⟨h.nodup, hsorted.nodup_iff.mpr (hL.filter _), ?_⟩
      rintro x hx y hy rfl
      exact ((hrest x).mp hy).2 hx
  · refine List.isChain_append.mpr ⟨h.ordered, ordered_bubbleSort hlate (Nat.lt_succ_self _), ?_⟩
    intro x hx y hy
    obtain ⟨hyM, hyl⟩ := (hrest y).mp (List.mem_of_mem_head? hy)
    exact h.best x (List.mem_of_mem_getLast? hx) y hyM hyl
  · by_cases hroom : HasRoom limit l
    · have hnil : sorted = [] :=
        List.eq_nil_iff_forall_not_mem.mpr fun x hx =>
          ((hrest x).mp hx).2 (h.full hroom x ((hrest x).mp hx).1)
      rw [hnil, List.append_nil]
      exact cut_of_length_le h.length_le
    · obtain ⟨n, hn, hnl⟩ : ∃ n ∈ limit, n ≤ l.length := by simpa [HasRoom] using hroom
      obtain rfl : limit = some n := hn
      obtain rfl : l.length = n := le_antisymm (h.length_le n rfl) hnl
      exact List.take_left

end Patch

end Selection

/-! ## Results up to ties -/

/-- The list is what sorting and cutting leaves of the elements of `M`, taken in some order. -/
def Arranged (late : α → α → Bool) (limit : Option ℕ) (M : Set α) (l : List α) : Prop :=
  ∃ L : List α, L.Nodup ∧ (∀ x, x ∈ L ↔ x ∈ M) ∧ Ordered late L ∧ cut limit L = l

/-- A selection from finitely many elements is such a result. -/
theorem Selection.arranged [DecidableEq α] (h : Selection late limit M l)
    (hlate : ∀ x y, late x y = true → late y x = false) {L : List α}
    (hmem : ∀ x, x ∈ L ↔ x ∈ M) : Arranged late limit M l := by
  obtain ⟨L', hperm, hordered, hcut⟩ := h.exists_arrangement hlate L.nodup_dedup fun x => by
    rw [List.mem_dedup, hmem]
  exact ⟨L', hperm.nodup_iff.mpr L.nodup_dedup, fun x => by rw [hperm.mem_iff, List.mem_dedup, hmem],
    hordered, hcut⟩

namespace Arranged

variable (h : Arranged late limit M l)

include h

/-- A result that does not leave out an element in front of what it shows. -/
theorem selection (hbest : ∀ x ∈ l, ∀ y ∈ M, y ∉ l → late x y = false) :
    Selection late limit M l := by
  obtain ⟨L, hnodup, hmem, hordered, rfl⟩ := h
  refine ⟨hnodup.sublist (prefix_cut limit L).sublist,
    fun x hx => (hmem x).mp ((prefix_cut limit L).subset hx), hordered.cut limit,
    length_cut_le L, fun hroom x hx => ?_, hbest⟩
  -- where there is room nothing was cut off
  have hwhole : cut limit L = L := by
    refine cut_of_length_le fun n hn => ?_
    obtain rfl : limit = some n := hn
    have hlt := hroom n rfl
    rw [cut, List.length_take] at hlt
    omega
  rw [hwhole]
  exact (hmem x).mpr hx

end Arranged
