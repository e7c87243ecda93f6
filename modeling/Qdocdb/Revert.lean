import Qdocdb.Steps

/-!
# Reverting

`revertToSnapshot` passes once over the document keys and deletes the versions of the
snapshots it drops, and the start keys behind which it deleted everything. This
module says which keys that leaves (`delete_linkKey_mem_iff`,
`delete_startKey_mem`), and when the result is the old snapshot again
(`revertRestores_iff`).

The numbers of the dropped snapshots are bytes. They are the numbers behind the
snapshot as long as the list has at most 256 names; a longer list makes them wrap
around, and then every version is deleted.
-/

namespace Qdocdb

/-- The pairs of id and document that a loop over the documents of a reader reads. -/
def Reader.documents (E : Env) (R : Reader) : Set (QByteArray × QJsonObject) :=
  {p | p ∈ Qdocdb.documents E.backend R.db R.snapshotId}

theorem Reader.mem_documents_iff {E : Env} {R : Reader} {F : Set QByteArray}
    (hF : Separated F) (hS : Shape F R.db) {I : QByteArray} {o : QJsonObject} :
    (I, o) ∈ R.documents E ↔
      I ∈ F ∧ R.db.find? (constructDocumentStartKey I) ≠ none ∧
        visible R.db R.snapshotId I = some o :=
  Qdocdb.mem_documents_iff hF hS

namespace Collection

variable {E : Env} {σ : Collection}

/-! ## The document keys -/

/-- The document keys of a store are in front of the others. -/
theorem mem_documentEntries_iff {F : Set QByteArray} {db : Store} (hS : Shape F db)
    {e : QByteArray × Blob} :
    e ∈ documentEntries db ↔ e ∈ db.entries ∧ ∃ I ∈ F, IsKeyOf I e.1 := by
  have hdown : db.entries.Pairwise fun a b =>
      decide (b.1.take 2 = bytes "d:") = true → decide (a.1.take 2 = bytes "d:") = true := by
    refine db.sorted.imp_of_mem fun {a b} ha hb hab hd => ?_
    rw [decide_eq_true_eq] at hd ⊢
    rcases hS.of_mem hb with ⟨I, -, hk⟩ | hk
    · rcases hS.of_mem ha with ⟨J, -, hk'⟩ | hk'
      · exact hk'.take_two
      · exact absurd hab (not_lt_of_gt (hk.lt_of_isMetaKey hk'))
    · exact absurd hd hk.take_two_ne
  rw [documentEntries, List.takeWhile_eq_filter_of_pairwise hdown, List.mem_filter,
    decide_eq_true_eq]
  refine and_congr_right fun he => ?_
  constructor
  · intro hd
    exact (hS.of_mem he).resolve_right fun hk => hk.take_two_ne hd
  · rintro ⟨I, -, hk⟩
    exact hk.take_two

theorem sorted_documentEntries (db : Store) :
    (documentEntries db).Pairwise fun a b => a.1 < b.1 :=
  db.sorted.sublist (List.takeWhile_sublist _)

/-- A start key is not between another one and its versions. -/
theorem startKey_notBetween {F : Set QByteArray} (hF : ColonFree F) {I J : QByteArray}
    (hI : I ∈ F) (hJ : J ∈ F) {k : QByteArray} {t : Byte} (hk : IsKeyOf I k)
    (hlt : k < constructDocumentStartKey J)
    (hlt' : constructDocumentStartKey J < constructDocumentLinkKey I t) : False := by
  have hprefix : constructDocumentStartKey I <+: constructDocumentStartKey J :=
    List.prefix_rfl.of_le_of_le (List.prefix_append _ [t]) (hk.startKey_le.trans hlt.le) hlt'.le
  obtain rfl : J = I := hF.eq_of_startKey_prefix hI hJ (isKeyOf_startKey J) hprefix
  exact absurd hlt (not_lt_of_ge hk.startKey_le)

/-! ## The loop over the versions -/

section RevertVersions

variable {F : Set QByteArray} {sIds : List Byte} {l : List (QByteArray × Blob)}
  {startKey : QByteArray} {isSingle : Bool} {I : QByteArray}

theorem revertVersions_linkKey (J : QByteArray) (t : Byte) (v : Blob) :
    revertVersions sIds ((constructDocumentLinkKey J t, v) :: l) startKey isSingle =
      if t ∈ sIds then .delete (constructDocumentLinkKey J t) ::
        revertVersions sIds l startKey isSingle
      else revertVersions sIds l startKey false := by
  rw [revertVersions, isVersionKey_linkKey, if_pos rfl, lastByte_linkKey]

theorem revertVersions_startKey (hF : ColonFree F) {J : QByteArray} (hJ : J ∈ F) (v : Blob) :
    revertVersions sIds ((constructDocumentStartKey J, v) :: l) startKey isSingle =
      (if isSingle && startKey ≠ [] then [.delete startKey] else []) ++
        revertVersions sIds l (constructDocumentStartKey J) true := by
  rw [revertVersions, isVersionKey_startKey (hF.ne_nil J hJ) (hF.colon_notMem J hJ),
    if_neg Bool.false_ne_true]

/-- A start key that the loop remembers. -/
def IsStart (F : Set QByteArray) (k : QByteArray) : Prop :=
  k = [] ∨ ∃ J ∈ F, k = constructDocumentStartKey J

theorem IsStart.ne_linkKey (hF : ColonFree F) (h : IsStart F startKey) (t : Byte) :
    startKey ≠ constructDocumentLinkKey I t := by
  rcases h with rfl | ⟨J, hJ, rfl⟩
  · exact fun h => absurd (congrArg List.length h) (by simp)
  · exact hF.startKey_ne_linkKey hJ t

theorem mem_ite_delete {k : QByteArray} {w : WriteOp QByteArray Blob} :
    w ∈ (if isSingle && k ≠ [] then [.delete k] else [] : List (WriteOp QByteArray Blob)) ↔
      w = .delete k ∧ isSingle = true ∧ k ≠ [] := by
  by_cases h : (isSingle && decide (k ≠ [])) = true
  · rw [if_pos h]
    simp_all
  · rw [if_neg h]
    simp_all

/-- **Versions**: the loop deletes a version exactly when its snapshot is dropped. -/
theorem delete_linkKey_mem_revertVersions_iff (hF : ColonFree F) {t : Byte}
    (hl : ∀ e ∈ l, ∃ J ∈ F, IsKeyOf J e.1) (hstart : IsStart F startKey) :
    .delete (constructDocumentLinkKey I t) ∈ revertVersions sIds l startKey isSingle ↔
      (∃ v, (constructDocumentLinkKey I t, v) ∈ l) ∧ t ∈ sIds := by
  induction l generalizing startKey isSingle with
  | nil =>
    rw [revertVersions, mem_ite_delete]
    simp [(hstart.ne_linkKey hF t).symm]
  | cons e l ih =>
    obtain ⟨⟨J, hJ, hk⟩, hl'⟩ := List.forall_mem_cons.mp hl
    obtain ⟨k, v⟩ := e
    rcases hk with rfl | ⟨s, rfl⟩
    · have hne := (@ColonFree.startKey_ne_linkKey F hF J I hJ t).symm
      rw [revertVersions_startKey hF hJ, List.mem_append, mem_ite_delete,
        ih hl' (.inr ⟨J, hJ, rfl⟩)]
      simp [hne, (hstart.ne_linkKey hF t).symm]
    · have hmem : (∃ w, (constructDocumentLinkKey I t, w) ∈ (constructDocumentLinkKey J s, v) :: l) ↔
          (I = J ∧ t = s) ∨ ∃ w, (constructDocumentLinkKey I t, w) ∈ l := by
        simp only [List.mem_cons, Prod.mk.injEq, constructDocumentLinkKey_inj, exists_or,
          exists_and_left, exists_eq, and_true]
      rw [revertVersions_linkKey, hmem, or_and_right]
      by_cases hs : s ∈ sIds
      · rw [if_pos hs, List.mem_cons, ih hl' hstart, WriteOp.delete.injEq,
          constructDocumentLinkKey_inj]
        refine or_congr_left ⟨fun h => ⟨h, ?_⟩, And.left⟩
        rw [h.2]
        exact hs
      · rw [if_neg hs, ih hl' hstart, or_iff_right]
        rintro ⟨⟨-, rfl⟩, ht⟩
        exact hs ht

/-- Once a version stays, the start key in front of it does. -/
theorem delete_mem_revertVersions_false {k : QByteArray}
    (h : .delete k ∈ revertVersions sIds l startKey false) : ∃ v, (k, v) ∈ l := by
  have key : ∀ {l : List (QByteArray × Blob)} {startKey : QByteArray} {isSingle : Bool},
      .delete k ∈ revertVersions sIds l startKey isSingle →
        (isSingle = true ∧ k = startKey) ∨ ∃ v, (k, v) ∈ l := by
    intro l
    induction l with
    | nil =>
      intro startKey isSingle h
      rw [revertVersions, mem_ite_delete] at h
      exact .inl ⟨h.2.1, WriteOp.delete.inj h.1⟩
    | cons e l ih =>
      intro startKey isSingle h
      obtain ⟨k', v⟩ := e
      rw [revertVersions] at h
      split at h
      · split at h
        · rcases List.mem_cons.mp h with h | h
          · exact .inr ⟨v, by rw [WriteOp.delete.inj h]; exact List.mem_cons_self⟩
          · refine (ih h).imp_right ?_
            rintro ⟨w, hw⟩
            exact ⟨w, List.mem_cons_of_mem _ hw⟩
        · rcases ih h with ⟨hf, -⟩ | ⟨w, hw⟩
          · cases hf
          · exact .inr ⟨w, List.mem_cons_of_mem _ hw⟩
      · rcases List.mem_append.mp h with h | h
        · rw [mem_ite_delete] at h
          exact .inl ⟨h.2.1, WriteOp.delete.inj h.1⟩
        · rcases ih h with ⟨-, rfl⟩ | ⟨w, hw⟩
          · exact .inr ⟨v, List.mem_cons_self⟩
          · exact .inr ⟨w, List.mem_cons_of_mem _ hw⟩
  exact (key h).resolve_left fun h => Bool.false_ne_true h.1

/-- **Start keys**: the loop deletes a start key only when it drops every version
behind it. By induction on the entries, sorted and behind the remembered start key. -/
theorem mem_of_delete_startKey_mem_revertVersions (hF : ColonFree F) (hI : I ∈ F)
    (hl : ∀ e ∈ l, ∃ J ∈ F, IsKeyOf J e.1) (hs : l.Pairwise fun a b => a.1 < b.1)
    (hstart : IsStart F startKey) (hlt : ∀ e ∈ l, startKey < e.1)
    (h : .delete (constructDocumentStartKey I) ∈ revertVersions sIds l startKey isSingle)
    {t : Byte} {v : Blob} (hv : (constructDocumentLinkKey I t, v) ∈ l) : t ∈ sIds := by
  induction l generalizing startKey isSingle with
  | nil => cases hv
  | cons e l ih =>
    obtain ⟨⟨J, hJ, hk⟩, hl'⟩ := List.forall_mem_cons.mp hl
    obtain ⟨hes, hs'⟩ := List.pairwise_cons.mp hs
    obtain ⟨hle, hlt'⟩ := List.forall_mem_cons.mp hlt
    obtain ⟨k, w⟩ := e
    rcases hk with rfl | ⟨s, rfl⟩
    · rw [revertVersions_startKey hF hJ, List.mem_append, mem_ite_delete] at h
      have hvl : (constructDocumentLinkKey I t, v) ∈ l := by
        rcases List.mem_cons.mp hv with hv | hv
        · exact absurd (Prod.mk.inj hv).1.symm (hF.startKey_ne_linkKey hJ t)
        · exact hv
      rcases h with ⟨h, -, -⟩ | h
      · -- the next start key cannot stand between `I` and its version
        refine (startKey_notBetween hF hI hJ (isKeyOf_startKey I) ?_ (hes _ hvl)).elim
        rw [WriteOp.delete.inj h]
        exact hle
      · exact ih hl' hs' (.inr ⟨J, hJ, rfl⟩) hes h hvl
    · rw [revertVersions_linkKey] at h
      by_cases hmem : s ∈ sIds
      · rw [if_pos hmem] at h
        rcases List.mem_cons.mp h with h | h
        · exact absurd (WriteOp.delete.inj h) (hF.startKey_ne_linkKey hI s)
        · rcases List.mem_cons.mp hv with hv | hv
          · obtain ⟨-, rfl⟩ := constructDocumentLinkKey_inj.mp (Prod.mk.inj hv).1
            exact hmem
          · exact ih hl' hs' hstart hlt' h hv
      · rw [if_neg hmem] at h
        obtain ⟨w', hw'⟩ := delete_mem_revertVersions_false h
        -- the start key is still to come, so this version is of another id
        rcases List.mem_cons.mp hv with hv | hv
        · obtain ⟨rfl, rfl⟩ := constructDocumentLinkKey_inj.mp (Prod.mk.inj hv).1
          exact absurd (hes _ hw') (not_lt_of_gt (startKey_lt_linkKey I t))
        · exact ih hl' hs' hstart hlt' h hv

end RevertVersions

/-! ## What a revert leaves -/

section Effect

variable {F : Set QByteArray} {l : List QString} {i : Byte}

/-- Apart from the list of snapshots, a revert only deletes. -/
theorem find?_revertWrites {k : QByteArray} (hk : k ≠ snapshotsKey) :
    (.delete k ∈ revertWrites E σ l i →
        (σ.db.applyLog (revertWrites E σ l i)).find? k = none) ∧
      (.delete k ∉ revertWrites E σ l i →
        (σ.db.applyLog (revertWrites E σ l i)).find? k = σ.db.find? k) := by
  have hput : ∀ v, .put k v ∉ revertWrites E σ l i := fun v hv =>
    hk (of_put_mem_revertWrites hv).1
  refine ⟨fun hd => SortedMap.find?_applyLog_of_delete _ hd hput, fun hd => ?_⟩
  refine SortedMap.find?_applyLog_of_forall_ne _ fun w hw hwk => ?_
  cases w with
  | put k' v => exact hput v (hwk ▸ hw)
  | delete k' => exact hd (hwk ▸ hw)

/-- Document keys are deleted by the loop over the versions. -/
theorem delete_mem_revertWrites_iff {I k : QByteArray} (hk : IsKeyOf I k) :
    .delete k ∈ revertWrites E σ l i ↔
      .delete k ∈ revertVersions (droppedIds l i) (documentEntries σ.db) [] false := by
  constructor
  · intro h
    rcases List.mem_append.mp h with h | h
    · rcases List.mem_append.mp h with h | h
      · cases List.mem_singleton.mp h
      · exact h
    · obtain ⟨index, -, s, -, d, b, hw, -⟩ := exists_of_mem_revertIndexes h
      obtain rfl := WriteOp.delete.inj hw
      exact absurd hk (isMetaKey_constructIndexValueKey index.2 s d).not_isKeyOf
  · exact fun h => List.mem_append_left _ (List.mem_append_right _ h)

theorem find?_revert_snapshotsKey :
    (σ.db.applyLog (revertWrites E σ l i)).find? snapshotsKey =
      some (.snapshots ((l.take (i.val + 1)).dropLast ++ [currentName])) := by
  refine SortedMap.find?_applyLog_of_put _ ?_ fun w hw hk => ?_
  · exact List.mem_append_left _ (List.mem_append_left _ (List.mem_singleton.mpr rfl))
  · cases w with
    | put k v =>
      obtain ⟨rfl, rfl⟩ := of_put_mem_revertWrites hw
      rfl
    | delete k =>
      obtain rfl : k = snapshotsKey := hk
      rcases (of_delete_mem_revertWrites hw).2 with hd | ⟨n, s, d, hk'⟩
      · exact absurd hd isMetaKey_snapshotsKey.take_two_ne
      · exact absurd hk'.symm (constructIndexValueKey_ne_snapshotsKey n s d)

theorem find?_revert_indexesKey :
    (σ.db.applyLog (revertWrites E σ l i)).find? indexesKey = σ.db.find? indexesKey := by
  refine (find?_revertWrites (by decide)).2 fun hd => ?_
  rcases (of_delete_mem_revertWrites hd).2 with hd' | ⟨n, s, d, hk⟩
  · exact isMetaKey_indexesKey.take_two_ne hd'
  · exact constructIndexValueKey_ne_indexesKey n s d hk.symm

section Shape

variable (hF : ColonFree F) (hS : Shape F σ.db) {I : QByteArray} (hI : I ∈ F)
include hF hS hI

/-- **Versions**: a revert deletes those of the dropped snapshots and keeps the others. -/
theorem find?_revert_linkKey (t : Byte) :
    (σ.db.applyLog (revertWrites E σ l i)).find? (constructDocumentLinkKey I t) =
      if t ∈ droppedIds l i then none else σ.db.find? (constructDocumentLinkKey I t) := by
  have hk := isKeyOf_linkKey I t
  have hwrites := find?_revertWrites (E := E) (σ := σ) (l := l) (i := i) hk.ne_snapshotsKey
  rw [delete_mem_revertWrites_iff hk, delete_linkKey_mem_revertVersions_iff hF
    (fun e he => ((mem_documentEntries_iff hS).mp he).2) (.inl rfl)] at hwrites
  by_cases ht : t ∈ droppedIds l i
  · rw [if_pos ht]
    rcases hfind : σ.db.find? (constructDocumentLinkKey I t) with - | v
    · rw [← hfind]
      refine hwrites.2 fun ⟨⟨v, hv⟩, _⟩ => ?_
      exact SortedMap.find?_eq_none_iff.mp hfind v ((mem_documentEntries_iff hS).mp hv).1
    · exact hwrites.1 ⟨⟨v, (mem_documentEntries_iff hS).mpr
        ⟨SortedMap.find?_eq_some_iff.mp hfind, I, hI, hk⟩⟩, ht⟩
  · rw [if_neg ht]
    exact hwrites.2 fun h => ht h.2

/-- **Start keys**: a revert keeps those behind which a version stays. -/
theorem find?_revert_startKey {t : Byte} (ht : t ∉ droppedIds l i)
    (hv : σ.db.find? (constructDocumentLinkKey I t) ≠ none) :
    (σ.db.applyLog (revertWrites E σ l i)).find? (constructDocumentStartKey I) =
      σ.db.find? (constructDocumentStartKey I) := by
  have hk := isKeyOf_startKey I
  refine (find?_revertWrites hk.ne_snapshotsKey).2 fun hd => ht ?_
  rw [delete_mem_revertWrites_iff hk] at hd
  obtain ⟨v, hv⟩ := Option.ne_none_iff_exists'.mp hv
  refine mem_of_delete_startKey_mem_revertVersions hF hI
    (fun e he => ((mem_documentEntries_iff hS).mp he).2) (sorted_documentEntries _) (.inl rfl)
    ?_ hd ((mem_documentEntries_iff hS).mpr
      ⟨SortedMap.find?_eq_some_iff.mp hv, I, hI, isKeyOf_linkKey I t⟩)
  intro e he
  obtain ⟨-, J, -, hkJ⟩ := (mem_documentEntries_iff hS).mp he
  obtain ⟨r, -, hr⟩ := hkJ.exists_eq
  rw [hr]
  exact List.nil_lt_cons _ _

omit hF hS hI in
theorem find?_revert_startKey_ne_none
    (h : (σ.db.applyLog (revertWrites E σ l i)).find? (constructDocumentStartKey I) ≠ none) :
    σ.db.find? (constructDocumentStartKey I) ≠ none := by
  obtain ⟨b, hb⟩ := Option.ne_none_iff_exists'.mp h
  rcases SortedMap.find?_applyLog_eq_some hb with hb | hb
  · simp [hb]
  · exact absurd (of_put_mem_revertWrites hb).1 (isKeyOf_startKey I).ne_snapshotsKey

end Shape

/-! ## The dropped numbers -/

theorem mem_droppedIds_iff {t : Byte} :
    t ∈ droppedIds l i ↔ ∃ n, i.val < n ∧ n < l.length ∧ Fin.ofNat 256 n = t := by
  simp only [droppedIds, List.mem_map, List.mem_reverse, List.mem_range'_1]
  refine exists_congr fun n => ?_
  rw [← and_assoc]
  refine and_congr_left fun _ => ?_
  omega

/-- A list that fits into the bytes drops the numbers behind the snapshot. -/
theorem mem_droppedIds_of_length_le (hl : l.length ≤ 256) {t : Byte} :
    t ∈ droppedIds l i ↔ i < t ∧ t.val < l.length := by
  rw [mem_droppedIds_iff]
  constructor
  · rintro ⟨n, hin, hn, rfl⟩
    have hval : (Fin.ofNat 256 n).val = n := Nat.mod_eq_of_lt (by omega)
    rw [Fin.lt_def, hval]
    exact ⟨hin, hn⟩
  · rintro ⟨hit, ht⟩
    exact ⟨t.val, hit, ht, Fin.ext (Nat.mod_eq_of_lt t.isLt)⟩

/-- A longer list wraps around and drops every number up to the current one. -/
theorem mem_droppedIds_of_lt_length (hl : 256 < l.length) {t : Byte}
    (ht : t ≤ Fin.ofNat 256 (l.length - 1)) : t ∈ droppedIds l i := by
  rw [mem_droppedIds_iff]
  have hle : t.val ≤ (l.length - 1) % 256 := ht
  have hi := i.isLt
  have ht := t.isLt
  refine ⟨(l.length - 1) / 256 * 256 + t.val, by omega, by omega, Fin.ext ?_⟩
  rw [Fin.val_ofNat, Nat.mul_add_mod_of_lt ht]

end Effect

end Collection

/-! ## When reverting restores the snapshot -/

open Collection

/-- A collection whose versions are numbered up to its current snapshot, which is the
last one of the list `l`. -/
structure SnapshotState (E : Env) (F : Set QByteArray) (σ : Collection) (l : List QString) :
    Prop where
  shape : Shape F σ.db
  version_le : ∀ I ∈ F, ∀ t, σ.db.find? (constructDocumentLinkKey I t) ≠ none → t ≤ σ.snapshotId
  names : σ.getSnapshotsValue E = .ok l
  current : σ.snapshotId = Fin.ofNat 256 (l.length - 1)

/-- What a revert from `σ` to the snapshot `n` of the list `l` should lead to: the
current documents are those of the snapshot, the snapshots before it are unchanged,
the list ends with it, and no newer version is left. -/
structure RevertRestores (E : Env) (F : Set QByteArray) (l : List QString) (n : QString)
    (σ σ' : Collection) : Prop where
  current : (σ'.reader E).documents E =
    (σ.getSnapshot E (Fin.ofNat 256 (l.idxOf n))).documents E
  before : ∀ j < l.idxOf n, (σ'.getSnapshot E (Fin.ofNat 256 j)).documents E =
    (σ.getSnapshot E (Fin.ofNat 256 j)).documents E
  names : σ'.getSnapshotsValue E = .ok (l.take (l.idxOf n) ++ [currentName])
  snapshotId : σ'.snapshotId.val = l.idxOf n
  version_le : ∀ I ∈ F, ∀ t, σ'.db.find? (constructDocumentLinkKey I t) ≠ none →
    t.val ≤ l.idxOf n

section Restores

variable {E : Env} {F : Set QByteArray} {σ σ' : Collection} {l : List QString} {n : QString}

theorem dropLast_take_succ {i : ℕ} (hi : i < l.length) : (l.take (i + 1)).dropLast = l.take i := by
  rw [List.dropLast_eq_take, List.take_take, List.length_take]
  congr 1
  omega

/-- Documents of a store without versions up to `s`. -/
theorem documents_eq_empty (hF : PlainIds F) {db : Store} (hS : Shape F db) {s : Byte}
    (h : ∀ I ∈ F, ∀ t, db.find? (constructDocumentLinkKey I t) = none)
    (f : QByteArray → Except String Blob) :
    Reader.documents E ⟨f, db, s⟩ = ∅ := by
  rw [Set.eq_empty_iff_forall_notMem]
  rintro ⟨I, o⟩ hmem
  obtain ⟨hI, -, hvis⟩ := (Reader.mem_documents_iff hF.separated hS).mp hmem
  rw [visible_eq_none_of_forall fun t _ => h I hI t] at hvis
  cases hvis

theorem Shape.applyLog_revertWrites {i : Byte} (hS : Shape F σ.db) :
    Shape F (σ.db.applyLog (revertWrites E σ l i)) := by
  intro k hk
  obtain ⟨v, hv⟩ := Option.ne_none_iff_exists'.mp hk
  rcases SortedMap.find?_applyLog_eq_some hv with hv | hv
  · exact hS k (by simp [hv])
  · rw [(of_put_mem_revertWrites hv).1]
    exact .inr isMetaKey_snapshotsKey

/-- The view from a snapshot whose number and those below are kept. -/
theorem documents_revert (hF : PlainIds F) {i : Byte} (hS : Shape F σ.db) {j : Byte}
    (hj : ∀ t ≤ j, t ∉ droppedIds l i) (f f' : QByteArray → Except String Blob) :
    Reader.documents E ⟨f, σ.db.applyLog (revertWrites E σ l i), j⟩ =
      Reader.documents E ⟨f', σ.db, j⟩ := by
  ext ⟨I, o⟩
  rw [Reader.mem_documents_iff hF.separated hS.applyLog_revertWrites,
    Reader.mem_documents_iff hF.separated hS]
  refine and_congr_right fun hI => ?_
  have hvis : visible (σ.db.applyLog (revertWrites E σ l i)) j I = visible σ.db j I := by
    refine visible_congr fun t ht => ?_
    rw [find?_revert_linkKey hF.colonFree hS hI, if_neg (hj t ht)]
  simp only [hvis]
  refine and_congr_left fun hsome => ⟨find?_revert_startKey_ne_none, fun hstart => ?_⟩
  -- the visible version is kept, and with it the start key
  obtain ⟨t, htj, ht⟩ : ∃ t ≤ j, σ.db.find? (constructDocumentLinkKey I t) ≠ none := by
    by_contra hnone
    rw [visible_eq_none_of_forall fun t ht => not_not.mp fun hne => hnone ⟨t, ht, hne⟩] at hsome
    cases hsome
  rwa [find?_revert_startKey hF.colonFree hS hI (hj t htj) ht]

/-- What a successful revert does to a collection. -/
theorem SnapshotState.revert (h : SnapshotState E F σ l)
    (hr : σ.revertToSnapshot E n = (.success, σ')) :
    σ'.db = σ.db.applyLog (revertWrites E σ l (Fin.ofNat 256 (l.idxOf n))) ∧
      σ'.snapshotId = Fin.ofNat 256 (l.idxOf n) := by
  rcases revertToSnapshot_spec (E := E) (σ := σ) n with ⟨-, hne, -⟩ | ⟨l', hl', -, -, hdb, hid⟩
  · rw [hr] at hne
    exact absurd rfl hne
  · obtain rfl : l' = l := Except.ok.inj (hl'.symm.trans h.names)
    rw [hr] at hdb hid
    exact ⟨hdb, hid⟩

/-- Reverting to a listed snapshot succeeds. -/
theorem SnapshotState.revert_success (h : SnapshotState E F σ l) (hn : n ∈ l) :
    σ.revertToSnapshot E n = (.success, (σ.revertToSnapshot E n).2) := by
  rcases revertToSnapshot_spec (E := E) (σ := σ) n with ⟨hnot, -⟩ | ⟨_, -, -, hr, -⟩
  · exact absurd hn (hnot l h.names)
  · exact Prod.ext hr rfl

/-- The list of snapshots behind a revert to one of the first 256. -/
theorem SnapshotState.names_revert (h : SnapshotState E F σ l) (hn : n ∈ l)
    (hr : σ.revertToSnapshot E n = (.success, σ')) (hlt : l.idxOf n < 256) :
    σ'.getSnapshotsValue E = .ok (l.take (l.idxOf n) ++ [currentName]) ∧
      σ'.snapshotId.val = l.idxOf n := by
  obtain ⟨hdb, hid⟩ := h.revert hr
  have hval : (Fin.ofNat 256 (l.idxOf n)).val = l.idxOf n := Nat.mod_eq_of_lt hlt
  refine ⟨getSnapshotsValue_eq_ok_iff.mpr ?_, hid ▸ hval⟩
  rw [hdb, find?_revert_snapshotsKey, hval, dropLast_take_succ (List.idxOf_lt_length_of_mem hn)]
  exact ⟨_, rfl, rfl⟩

/-- Numbers that fit into a byte: a revert drops those behind the snapshot. -/
theorem SnapshotState.revertRestores (hF : PlainIds F) (h : SnapshotState E F σ l) (hn : n ∈ l)
    (hr : σ.revertToSnapshot E n = (.success, σ')) (hlen : l.length ≤ 256) :
    RevertRestores E F l n σ σ' := by
  have hidx : l.idxOf n < l.length := List.idxOf_lt_length_of_mem hn
  have hval : (Fin.ofNat 256 (l.idxOf n)).val = l.idxOf n := Nat.mod_eq_of_lt (by omega)
  obtain ⟨hdb, hid⟩ := h.revert hr
  obtain ⟨hnames, hcur⟩ := h.names_revert hn hr (by omega)
  have hkeep : ∀ j : Byte, j ≤ Fin.ofNat 256 (l.idxOf n) →
      ∀ t ≤ j, t ∉ droppedIds l (Fin.ofNat 256 (l.idxOf n)) := fun j hj t ht hd =>
    absurd ((mem_droppedIds_of_length_le hlen).mp hd).1 (not_lt_of_ge (ht.trans hj))
  refine ⟨?_, fun j hj => ?_, hnames, hcur, fun I hI t ht => ?_⟩
  · rw [reader, hid, hdb]
    exact documents_revert hF h.shape (hkeep _ le_rfl) _ _
  · rw [getSnapshot, reader, hdb]
    refine documents_revert hF h.shape (hkeep _ ?_) _ _
    rw [Fin.le_def, hval, Fin.val_ofNat, Nat.mod_eq_of_lt (by omega)]
    exact hj.le
  · rw [hdb, find?_revert_linkKey hF.colonFree h.shape hI t] at ht
    split at ht
    · exact absurd rfl ht
    · rename_i hd
      rw [mem_droppedIds_of_length_le hlen, not_and', not_lt, Fin.le_def, hval] at hd
      refine hd ?_
      have hle : t.val ≤ σ.snapshotId.val := h.version_le I hI t ht
      rw [h.current, Fin.val_ofNat, Nat.mod_eq_of_lt (by omega)] at hle
      omega

/-- Numbers that do not fit: a revert drops every version. -/
theorem SnapshotState.find?_revert_of_lt_length (hF : PlainIds F) (h : SnapshotState E F σ l)
    (hlen : 256 < l.length) {i : Byte} {I : QByteArray} (hI : I ∈ F) (t : Byte) :
    (σ.db.applyLog (revertWrites E σ l i)).find? (constructDocumentLinkKey I t) = none := by
  rw [find?_revert_linkKey hF.colonFree h.shape hI t]
  split
  · rfl
  · rename_i hd
    by_contra hne
    exact hd (mem_droppedIds_of_lt_length hlen (h.current ▸ h.version_le I hI t hne))

theorem SnapshotState.documents_revert_of_lt_length (hF : PlainIds F) (h : SnapshotState E F σ l)
    (hlen : 256 < l.length) (hr : σ.revertToSnapshot E n = (.success, σ')) :
    (σ'.reader E).documents E = ∅ ∧ ∀ s, (σ'.getSnapshot E s).documents E = ∅ := by
  have hempty : ∀ s, (σ'.getSnapshot E s).documents E = ∅ := by
    intro s
    rw [getSnapshot, reader, (h.revert hr).1]
    exact documents_eq_empty hF h.shape.applyLog_revertWrites
      (fun I hI t => h.find?_revert_of_lt_length hF hlen hI t) _
  exact ⟨hempty σ'.snapshotId, hempty⟩

/-- **revertToSnapshot** restores a snapshot if and only if the list of snapshots has
at most 256 names, or the snapshot is among the first 256 and neither it nor an
earlier one shows a document. -/
theorem revertRestores_iff (hF : SafeIds F) (h : SnapshotState E F σ l) (hn : n ∈ l)
    (hr : σ.revertToSnapshot E n = (.success, σ')) :
    RevertRestores E F l n σ σ' ↔
      l.length ≤ 256 ∨ l.idxOf n < 256 ∧ ∀ j ≤ l.idxOf n,
        (σ.getSnapshot E (Fin.ofNat 256 j)).documents E = ∅ := by
  rcases le_or_gt l.length 256 with hlen | hlen
  · exact iff_of_true (h.revertRestores hF.plain hn hr hlen) (.inl hlen)
  · obtain ⟨hcur, hempty⟩ := h.documents_revert_of_lt_length hF.plain hlen hr
    rw [or_iff_right (by omega)]
    constructor
    · intro hrest
      refine ⟨hrest.snapshotId ▸ σ'.snapshotId.isLt, fun j hj => ?_⟩
      rcases hj.lt_or_eq with hj | rfl
      · rw [← hrest.before j hj, hempty]
      · rw [← hrest.current, hcur]
    · rintro ⟨hlt, hnone⟩
      obtain ⟨hnames, hid⟩ := h.names_revert hn hr hlt
      refine ⟨?_, fun j hj => ?_, hnames, hid, fun I hI t ht => ?_⟩
      · rw [hnone _ le_rfl, hcur]
      · rw [hnone j hj.le, hempty]
      · rw [(h.revert hr).1, h.find?_revert_of_lt_length hF.plain hlen hI t] at ht
        exact absurd rfl ht

end Restores

/-- A collection with the one document `a`, stored at the first snapshot number, and
the list of snapshots `names`. -/
def oneDocument (names : List QString) : Collection where
  db := ((SortedMap.empty.insert (constructDocumentStartKey (bytes "a")) .empty).insert
    (constructDocumentLinkKey (bytes "a") 0)
    (.document [(qs "_id", .string (qs "a"))])).insert snapshotsKey (.snapshots names)
  snapshotId := Fin.ofNat 256 (names.length - 1)
  observers := ∅
  lastError := ""
  emitted := []

theorem snapshotState_oneDocument (E : Env) (names : List QString) :
    SnapshotState E oneByteIds (oneDocument names) names where
  shape := by
    intro k hk
    rw [oneDocument] at hk
    simp only [SortedMap.find?_insert, SortedMap.find?_empty] at hk
    split at hk
    · rename_i h
      exact .inr (h ▸ isMetaKey_snapshotsKey)
    · refine .inl ⟨bytes "a", by decide, ?_⟩
      split at hk
      · rename_i h
        exact h ▸ isKeyOf_linkKey _ 0
      · split at hk
        · rename_i h
          exact h ▸ isKeyOf_startKey _
        · exact absurd rfl hk
  version_le := by
    intro I hI t ht
    rw [oneDocument] at ht
    simp only [SortedMap.find?_insert, SortedMap.find?_empty] at ht
    rw [if_neg (isKeyOf_linkKey I t).ne_snapshotsKey] at ht
    split at ht
    · rename_i h
      rw [(constructDocumentLinkKey_inj.mp h).2]
      exact Fin.zero_le _
    · rw [if_neg] at ht
      · exact absurd rfl ht
      · exact (safeIds_oneByteIds.separated.startKey_ne_linkKey (by decide) hI t).symm
  names := getSnapshotsValue_eq_ok_iff.mpr ⟨.snapshots names, by simp [oneDocument], rfl⟩
  current := rfl

theorem mem_documents_oneDocument (E : Env) (names : List QString) :
    (bytes "a", [(qs "_id", QJsonValue.string (qs "a"))]) ∈
      ((oneDocument names).getSnapshot E 0).documents E := by
  have hF := safeIds_oneByteIds
  have hversion : (oneDocument names).db.find? (constructDocumentLinkKey (bytes "a") 0) =
      some (.document [(qs "_id", .string (qs "a"))]) := by
    rw [oneDocument, SortedMap.find?_insert_of_ne _ _ (isKeyOf_linkKey _ _).ne_snapshotsKey,
      SortedMap.find?_insert_self]
  have hstart : (oneDocument names).db.find? (constructDocumentStartKey (bytes "a")) =
      some .empty := by
    rw [oneDocument, SortedMap.find?_insert_of_ne _ _ (isKeyOf_startKey _).ne_snapshotsKey,
      SortedMap.find?_insert_of_ne _ _ (by decide), SortedMap.find?_insert_self]
  refine (Reader.mem_documents_iff hF.separated (snapshotState_oneDocument E names).shape).mpr
    ⟨by decide, by simp [getSnapshot, reader, hstart], ?_⟩
  exact visible_of_document hversion

/-- Reverting to the first of two snapshots. -/
theorem revertRestores_oneDocument :
    RevertRestores (Env.plain .map) oneByteIds [qs "A", currentName] (qs "A")
      (oneDocument [qs "A", currentName])
      ((oneDocument [qs "A", currentName]).revertToSnapshot (Env.plain .map) (qs "A")).2 :=
  (revertRestores_iff safeIds_oneByteIds (snapshotState_oneDocument _ _)
    (by decide) ((snapshotState_oneDocument _ _).revert_success (by decide))).mpr (.inl (by decide))

/-- The list of 256 named snapshots. -/
def manyNames : List QString := (List.range 256).map (fun n => [Fin.ofNat 65536 n]) ++ [currentName]

/-- Behind 256 named snapshots, reverting to the first one deletes its document. -/
theorem not_revertRestores :
    ¬ ∀ (E : Env) (F : Set QByteArray) (l : List QString) (n : QString) (σ σ' : Collection),
      SafeIds F → SnapshotState E F σ l → n ∈ l → σ.revertToSnapshot E n = (.success, σ') →
        RevertRestores E F l n σ σ' := by
  intro h
  have hF := safeIds_oneByteIds
  have hstate := snapshotState_oneDocument (Env.plain .map) manyNames
  have hn : [0] ∈ manyNames := by decide +kernel
  have hr := hstate.revert_success hn
  have hcur := (h _ _ manyNames [0] _ _ hF hstate hn hr).current
  -- the document is seen through the snapshot before, and no document is left behind
  have hmem := mem_documents_oneDocument (Env.plain .map) manyNames
  have hidx : Fin.ofNat 256 (manyNames.idxOf [0]) = 0 := by decide +kernel
  rw [hidx, (hstate.documents_revert_of_lt_length hF.plain (by decide +kernel) hr).1] at hcur
  rw [← hcur] at hmem
  exact hmem

end Qdocdb
