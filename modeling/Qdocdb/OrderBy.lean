import Qdocdb.Lib.StableSort
import Qdocdb.Options

/-!
# What `$orderBy` makes of a reply

The options compare numbers with numbers and strings with strings, and nothing else. Inside a
kind this is a weak order, so a reply of one kind is sorted stably, and a document can be
added to a reply that was sorted and cut (`applyOptionsReply_append`). A document of another
kind is in the way of those around it: the reply is sorted exactly when this separates no two
documents that have to change places (`sorts_iff`). A second time the options change nothing
(`applyOptions_idem`).
-/

namespace Qdocdb

/-! ## The kinds -/

/-- What an order value is compared with. -/
inductive OrderKind where
  /-- numbers, with numbers -/
  | number
  /-- strings, with strings -/
  | text
  /-- anything else, with nothing -/
  | other
  deriving DecidableEq

/-- The kind of an order value. `NaN` is not a number. -/
def orderKind : QJsonValue → OrderKind
  | .double d => if d.isNaN then .other else .number
  | .string _ => .text
  | _ => .other

/-- The kind of a document under the options. -/
def orderKindOf (options : QJsonObject) (v : QJsonValue) : OrderKind :=
  orderKind (getJsonValueByPath v (orderBy options).1)

/-- Only values of one kind are in the wrong order. -/
theorem orderKind_eq_of_compare {up : Bool} {a b : QJsonValue}
    (h : compare a b (if up then qs "$gt" else qs "$lt") = true) : orderKind a = orderKind b := by
  have hne : qs "$lt" ≠ qs "$gt" := by decide
  have hne' : qs "$lt" ≠ qs "$gte" := by decide
  cases a <;> cases b <;> try cases h
  case double.double x y =>
    have hnan : x.isNaN = false ∧ y.isNaN = false := by
      cases up
      · simp only [compare, hne, hne', Double.lt, Bool.false_eq_true, if_false, if_true,
          Bool.and_eq_true, Bool.not_eq_true'] at h
        exact h.1
      · simp only [compare, Double.lt, if_true, Bool.and_eq_true, Bool.not_eq_true'] at h
        exact h.1.symm
    simp [orderKind, hnan.1, hnan.2]
  case string.string x y => rfl

/-- Inside a kind, what is not in the wrong order is in the right one. -/
theorem compare_trans {up : Bool} {a b c : QJsonValue} (hab : orderKind a = orderKind b)
    (hbc : orderKind b = orderKind c)
    (h : compare a b (if up then qs "$gt" else qs "$lt") = false)
    (h' : compare b c (if up then qs "$gt" else qs "$lt") = false) :
    compare a c (if up then qs "$gt" else qs "$lt") = false := by
  have hne : qs "$lt" ≠ qs "$gt" := by decide
  have hne' : qs "$lt" ≠ qs "$gte" := by decide
  -- values of different kinds are not compared at all
  cases a <;> cases c <;> try rfl
  case double.double x z =>
    by_cases hx : x.isNaN
    · cases up <;> simp [compare, hne, hne', Double.lt, hx]
    · cases b with
      | double y =>
        have hy : y.isNaN = false := by
          by_contra hy
          simp [orderKind, hx, hy] at hab
        have hz : z.isNaN = false := by
          by_contra hz
          simp [orderKind, hy, hz] at hbc
        have hx : x.isNaN = false := by simpa using hx
        cases up
        · simp [compare, hne, hne', Double.lt, hx, hy, hz] at h h' ⊢
          exact h'.trans h
        · simp [compare, Double.lt, hx, hy, hz] at h h' ⊢
          exact h.trans h'
      | _ => simp [orderKind, hx] at hab
  case string.string x z =>
    cases b with
    | string y =>
      cases up
      · simp [compare, hne, hne'] at h h' ⊢
        exact h'.trans h
      · simp [compare] at h h' ⊢
        exact h.trans h'
    | double y =>
      simp only [orderKind] at hab
      split at hab <;> cases hab
    | _ => cases hab

theorem orderKindOf_eq {options : QJsonObject} (v w : QJsonValue)
    (h : outOfOrder options v w = true) : orderKindOf options v = orderKindOf options w := by
  rw [outOfOrder, Bool.and_eq_true] at h
  exact orderKind_eq_of_compare h.2

theorem outOfOrder_trans {options : QJsonObject} (u v w : QJsonValue)
    (huv : orderKindOf options u = orderKindOf options v)
    (hvw : orderKindOf options v = orderKindOf options w) (h : outOfOrder options u v = false)
    (h' : outOfOrder options v w = false) : outOfOrder options u w = false := by
  rw [outOfOrder, Bool.and_eq_false_iff] at h h' ⊢
  rcases h with h | h
  · exact .inl h
  · exact h'.imp id (compare_trans huv hvw h)

/-! ## Sorting -/

theorem namesApart_of_nodup {l : List QJsonValue} (h : (l.map nameOf).Nodup) : NamesApart l :=
  fun _ hv _ hw heq => List.inj_on_of_nodup_map h hv hw heq

/-- **The options sort** a reply exactly when no document of another kind stands between two
that have to change places; a reply that is cut is sorted when nothing stood in the way. -/
theorem sorts_iff {reply : List QJsonValue} (h : (reply.map nameOf).Nodup)
    (options : QJsonObject) :
    (limitOf options = none →
      ((applyOptionsReply reply options).Pairwise (fun v w => outOfOrder options v w = false) ↔
        ¬ Obstructed (outOfOrder options) (orderKindOf options) reply)) ∧
    (¬ Obstructed (outOfOrder options) (orderKindOf options) reply →
      (applyOptionsReply reply options).Pairwise fun v w => outOfOrder options v w = false) := by
  have hsort := pairwise_bubbleSort_iff orderKindOf_eq outOfOrder_trans
    (@outOfOrder_asymm options) (Nat.lt_succ_of_le (inversions_le reply))
  rw [applyOptionsReply_of_namesApart (namesApart_of_nodup h)]
  constructor
  · intro hlimit
    rw [hlimit]
    exact hsort
  · intro hfree
    exact (hsort.mpr hfree).sublist (prefix_cut _ _).sublist

/-- A string between two numbers keeps them in the wrong order. -/
theorem not_sorts_string_between :
    ¬ ∀ reply : List QJsonValue, (reply.map nameOf).Nodup →
      (applyOptionsReply reply (orderByN none)).Pairwise
        fun v w => outOfOrder (orderByN none) v w = false := by
  intro h
  have hsorted := h [withN "a" (.double two), withN "b" (.string []), withN "c" (.double one)]
    (by decide)
  revert hsorted
  decide +kernel

/-- Two numbers are sorted. -/
theorem sorts_iff_two :
    (applyOptionsReply [withN "a" (.double two), withN "b" (.double one)]
      (orderByN none)).Pairwise fun v w => outOfOrder (orderByN none) v w = false := by
  refine ((sorts_iff (by decide) (orderByN none)).1 (by decide)).mpr ?_
  rintro ⟨x, z, y, hsub, -⟩
  have hlength := hsub.length_le
  simp at hlength

/-! ## Sorting again -/

theorem NamesApart.subset {l l' : List QJsonValue} (h : NamesApart l) (hl : ∀ v ∈ l', v ∈ l) :
    NamesApart l' :=
  fun v hv w hw => h v (hl v hv) w (hl w hw)

/-- What the options leave is in order, and no longer than they allow. -/
theorem applyOptions_applyOptions {ι : Type} {reply : List (QJsonValue × ι)}
    (hnames : NamesApart (reply.map Prod.fst)) (options : QJsonObject) :
    applyOptions (applyOptions reply options) options = applyOptions reply options := by
  have hmem : ∀ v ∈ (applyOptions reply options).map Prod.fst, v ∈ reply.map Prod.fst := by
    intro v hv
    obtain ⟨e, he, rfl⟩ := List.mem_map.mp hv
    exact List.mem_map_of_mem (mem_of_mem_applyOptions he)
  have hordered : Ordered (fun e e' : QJsonValue × ι => outOfOrder options e.1 e'.1)
      (applyOptions reply options) := by
    rw [applyOptions_of_namesApart hnames]
    apply Ordered.cut
    exact ordered_bubbleSort (fun _ _ => outOfOrder_asymm _ _)
      (Nat.lt_succ_of_le (inversions_le reply))
  have hlength : ∀ n ∈ limitOf options, (applyOptions reply options).length ≤ n := by
    rw [applyOptions_of_namesApart hnames]
    exact length_cut_le _
  rw [applyOptions_of_namesApart (hnames.subset hmem), bubbleSort_of_ordered _ hordered,
    cut_of_length_le hlength]

/-- **A second time** the options change nothing, neither in a reply with its ids nor in a
reply alone. -/
theorem applyOptions_idem {reply : List QJsonValue} (h : (reply.map nameOf).Nodup)
    (options : QJsonObject) :
    applyOptionsReply (applyOptionsReply reply options) options =
        applyOptionsReply reply options ∧
      ∀ ids : List QByteArray, ids.length = reply.length →
        applyOptions (applyOptions (reply.zip ids) options) options =
          applyOptions (reply.zip ids) options := by
  have hnames := namesApart_of_nodup h
  constructor
  · have hmap : (reply.map fun v => (v, ())).map Prod.fst = reply := by
      simp [Function.comp_def]
    have hagain : ((applyOptions (reply.map fun v => (v, ())) options).map Prod.fst).map
        (fun v => (v, ())) = applyOptions (reply.map fun v => (v, ())) options := by
      simp [Function.comp_def]
    rw [applyOptionsReply, applyOptionsReply, hagain,
      applyOptions_applyOptions (hmap.symm ▸ hnames)]
  · intro ids hids
    have hfst : (reply.zip ids).map Prod.fst = reply := List.map_fst_zip hids.ge
    exact applyOptions_applyOptions (hfst.symm ▸ hnames) options

/-- Two numbers that were sorted. -/
theorem applyOptions_idem_two :
    applyOptionsReply (applyOptionsReply [withN "a" (.double two), withN "b" (.double one)]
        (orderByN none)) (orderByN none) =
      applyOptionsReply [withN "a" (.double two), withN "b" (.double one)] (orderByN none) :=
  (applyOptions_idem (by decide) (orderByN none)).1

/-! ## One more document -/

/-- Documents whose order values are all numbers or all strings. -/
def Alike (options : QJsonObject) (l : List QJsonValue) : Prop :=
  (∀ v ∈ l, orderKindOf options v = .number) ∨ ∀ v ∈ l, orderKindOf options v = .text

theorem Alike.comparable {options : QJsonObject} {l : List QJsonValue} (h : Alike options l) :
    Comparable (outOfOrder options) {v | v ∈ l} := by
  intro u hu v hv w hw
  apply outOfOrder_trans
  · rcases h with h | h <;> rw [h u hu, h v hv]
  · rcases h with h | h <;> rw [h v hv, h w hw]

/-- **A document behind a reply** that was sorted and cut ends up where it does behind the
whole one. -/
theorem applyOptionsReply_append {reply : List QJsonValue} {doc : QJsonValue}
    (h : ((reply ++ [doc]).map nameOf).Nodup) {options : QJsonObject}
    (halike : Alike options (reply ++ [doc])) :
    applyOptionsReply (applyOptionsReply reply options ++ [doc]) options =
      applyOptionsReply (reply ++ [doc]) options := by
  have hnames := namesApart_of_nodup h
  have hkept : ∀ v ∈ applyOptionsReply reply options ++ [doc], v ∈ reply ++ [doc] := by
    intro v hv
    rcases List.mem_append.mp hv with hv | hv
    · obtain ⟨e, he, rfl⟩ := List.mem_map.mp hv
      obtain ⟨w, hw, rfl⟩ := List.mem_map.mp (mem_of_mem_applyOptions he)
      exact List.mem_append_left _ hw
    · exact List.mem_append_right _ hv
  rw [applyOptionsReply_of_namesApart (hnames.subset hkept),
    applyOptionsReply_of_namesApart hnames,
    applyOptionsReply_of_namesApart (hnames.subset fun v hv => List.mem_append_left _ hv)]
  apply cut_bubbleSort_cut outOfOrder_asymm
  · exact List.Nodup.of_map nameOf h
  · exact halike.comparable
  · exact Nat.lt_succ_of_le (inversions_le _)
  · exact Nat.lt_succ_of_le (inversions_le _)
  · exact Nat.lt_succ_of_le (inversions_le _)

/-- Documents whose order values are all of the type of numbers, which `NaN` is too, or all
strings. -/
def SameType (options : QJsonObject) (l : List QJsonValue) : Prop :=
  (∀ v ∈ l, (getJsonValueByPath v (orderBy options).1).isDouble = true) ∨
    ∀ v ∈ l, (getJsonValueByPath v (orderBy options).1).isString = true

/-- `NaN` is neither swapped with 2 nor with 1 and keeps them in the wrong order: of 2, `NaN`
and 1 the first is kept, and 0 behind it is not the least of the four. -/
theorem not_applyOptionsReply_append_nan :
    ¬ ∀ (reply : List QJsonValue) (doc : QJsonValue) (options : QJsonObject),
      ((reply ++ [doc]).map nameOf).Nodup → SameType options (reply ++ [doc]) →
      applyOptionsReply (applyOptionsReply reply options ++ [doc]) options =
        applyOptionsReply (reply ++ [doc]) options := by
  intro h
  have happend := h [withN "a" (.double two), withN "b" (.double ⟨0x7FF8000000000000#64⟩),
    withN "c" (.double one)] (withN "d" (.double ⟨0#64⟩)) (orderByN (some one)) (by decide)
    (.inl (by decide))
  revert happend
  decide +kernel

/-- A smaller number behind two, of which one is kept. -/
theorem applyOptionsReply_append_three :
    applyOptionsReply (applyOptionsReply [withN "a" (.double two), withN "b" (.double two)]
        (orderByN (some one)) ++ [withN "c" (.double one)]) (orderByN (some one)) =
      applyOptionsReply [withN "a" (.double two), withN "b" (.double two),
        withN "c" (.double one)] (orderByN (some one)) :=
  applyOptionsReply_append (by decide) (.inl (by decide))

end Qdocdb
