import Qdocdb.Operations
import Qdocdb.StartKeys

/-!
# The representation of documents

A stored version should be accompanied by the start key of its document, since the loops
over documents find a document by its start key, and its number should be one of the
snapshots in the list. Insertions, `newSnapshot` and `revertToSnapshot` keep this.
`removeById` may store a tombstone for an id that has no start key, because LevelDB's seek
goes on to another document, and `removeSnapshot` may delete a start key in front of older
versions. As long as neither happens the representation is kept
(`representation_of_reachable`).
-/

namespace Qdocdb

/-! ## The invariant -/

/-- The ids that are not empty and have no colon. -/
abbrev colonFreeIds : Set QByteArray := {I | I ≠ [] ∧ colon ∉ I}

theorem colonFree_colonFreeIds : ColonFree colonFreeIds where
  ne_nil := fun _ h => h.1
  colon_notMem := fun _ h => h.2

/-- What should be true of a collection: each version has its start key and a number of the
list of snapshots, and the list has a name for each number, the last one the current name. -/
structure Representation (s : Byte) (db : Store) : Prop where
  startKey : ∀ id t, db.find? (constructDocumentLinkKey id t) ≠ none →
    db.find? (constructDocumentStartKey id) ≠ none
  version_le : ∀ id t, db.find? (constructDocumentLinkKey id t) ≠ none → t ≤ s
  names : ∃ names, db.find? snapshotsKey = some (.snapshots (names ++ [currentName])) ∧
    names.length = s.val ∧ (names ++ [currentName]).Nodup

/-- A collection without indexes whose documents have ids without colons. -/
structure RepresentedStore (s : Byte) (db : Store) : Prop extends Representation s db where
  shape : Shape colonFreeIds db
  noIndexes : db.find? indexesKey = none

namespace RepresentedStore

variable {E : Env} {s : Byte} {db db' : Store} {I : QByteArray}

/-- What is written under the keys of one id matters to that id only. -/
theorem of_id (h : RepresentedStore s db) (hI : I ∈ colonFreeIds)
    (hother : ∀ k, ¬ IsKeyOf I k → db'.find? k = db.find? k)
    (hid : ∀ t, db'.find? (constructDocumentLinkKey I t) ≠ none →
      db'.find? (constructDocumentStartKey I) ≠ none ∧ t ≤ s) : RepresentedStore s db' := by
  have hF := colonFree_colonFreeIds
  have hshape : Shape colonFreeIds db' := by
    intro k hk
    by_cases hkI : IsKeyOf I k
    · exact .inl ⟨I, hI, hkI⟩
    · exact h.shape k (hother k hkI ▸ hk)
  have hlink : ∀ J t, db'.find? (constructDocumentLinkKey J t) ≠ none →
      db'.find? (constructDocumentStartKey J) ≠ none ∧ t ≤ s := by
    intro J t hv
    by_cases hJ : J = I
    · subst hJ
      exact hid t hv
    · have hJF : J ∈ colonFreeIds := hshape.mem_of_linkKey hF hv
      have hne : ∀ {k}, IsKeyOf J k → ¬ IsKeyOf I k := fun hk hk' =>
        hJ (hF.eq_of_isKeyOf hI hJF hk' hk)
      rw [hother _ (hne (isKeyOf_linkKey J t))] at hv
      rw [hother _ (hne (isKeyOf_startKey J))]
      exact ⟨h.startKey J t hv, h.version_le J t hv⟩
  have hmeta : ∀ {k}, IsMetaKey k → db'.find? k = db.find? k := fun hk =>
    hother _ fun hkI => hk.not_isKeyOf hkI
  refine ⟨⟨fun J t hv => (hlink J t hv).1, fun J t hv => (hlink J t hv).2, ?_⟩, hshape, ?_⟩
  · rw [hmeta isMetaKey_snapshotsKey]
    exact h.names
  · rw [hmeta isMetaKey_indexesKey]
    exact h.noIndexes

end RepresentedStore

/-! ## The operations -/

/-- `removeById` finds nothing that it may remove, or the id has a start key, or what is found
instead has no other version, so that nothing is put. -/
def RemovesOwn (E : Env) (σ : Collection) (id : QByteArray) (ignoreReadOnlyValue : Bool) : Prop :=
  ∀ doc scan, Transaction.removable E σ.db σ.snapshotId id ignoreReadOnlyValue =
    some (doc, scan) → σ.db.find? (constructDocumentStartKey id) ≠ none ∨
      scan.snapshotId = some σ.snapshotId ∧ scan.isNaked = true

/-- No version of the id survives when each tombstone behind the number `i` deletes the version
in front of it and the last version is deleted. -/
def NothingSurvives (i : Byte) (db : Store) (id : QByteArray) : Prop :=
  ∀ t, db.find? (constructDocumentLinkKey id t) ≠ none → i ≤ t ∧
    ∀ t', t < t' → db.find? (constructDocumentLinkKey id t') ≠ none →
      ∃ u, u.val = t.val + 1 ∧ db.find? (constructDocumentLinkKey id u) ≠ none

/-- Removing the snapshot deletes start keys of ids only of which no version survives, and on
the map each tombstone behind it has a version in front of it. -/
def RemovesCleanly (E : Env) (σ : Collection) (snapshotName : QString) : Prop :=
  ∀ i, σ.getSnapshotId E snapshotName = .ok i → ∀ id,
    (Collection.EndsRemoved i σ.db.entries id → NothingSurvives i σ.db id) ∧
    (E.backend = .map → ∀ t v, i < t → σ.db.find? (constructDocumentLinkKey id t) = some v →
      v.unmarshal.isUndefined = true → σ.db.find? (constructDocumentLinkKey id (t - 1)) ≠ none)

/-- The requests of the runs considered: the ids have no colons, the snapshot numbers fit into
a byte, and only named snapshots are removed. -/
def RepresentationOp (E : Env) (σ : Collection) : Op → Prop
  | .transact (.insert doc gen overwrite ignoreReadOnlyValue) =>
    TxIds colonFreeIds (.insert doc gen overwrite ignoreReadOnlyValue)
  | .transact (.removeById id _) => id ∈ colonFreeIds
  | .newSnapshot snapshotName =>
    ∀ l, σ.getSnapshotsValue E = .ok l → snapshotName ∈ l ∨ l.length ≤ 255
  | .revertToSnapshot _ => True
  | .removeSnapshot snapshotName => snapshotName ≠ currentName
  | _ => False

/-- The conditions above, for a request. -/
def KeepsStartKeys (E : Env) (σ : Collection) : Op → Prop
  | .transact (.removeById id ignoreReadOnlyValue) => RemovesOwn E σ id ignoreReadOnlyValue
  | .removeSnapshot snapshotName => RemovesCleanly E σ snapshotName
  | _ => True

namespace RepresentedStore

variable {E : Env} {σ σ' : Collection}

/-- **insert** stores a version with its start key. -/
theorem insert (h : RepresentedStore σ.snapshotId σ.db) {doc : QJsonObject}
    {gen : Transaction.IdGen} {overwrite ignoreReadOnlyValue : Bool}
    (hids : TxIds colonFreeIds (.insert doc gen overwrite ignoreReadOnlyValue)) :
    RepresentedStore (σ.transact E (.insert doc gen overwrite ignoreReadOnlyValue)).2.snapshotId
      (σ.transact E (.insert doc gen overwrite ignoreReadOnlyValue)).2.db := by
  obtain ⟨ws, ⟨r, id, hws⟩, hw⟩ := @Transaction.run_wrote E σ.db σ.newTransaction []
    Collection.kvdb_newTransaction (.insert doc gen overwrite ignoreReadOnlyValue) trivial
  rw [Collection.getIndexes_newTransaction, Collection.getIndexes_eq_nil h.noIndexes] at hws
  obtain ⟨hc, -⟩ := Collection.transact_spec _ hw
  rw [hc.snapshotId, hc.db]
  cases hws with
  | refused => rwa [commit_of_disjoint fun k hk => absurd hk List.not_mem_nil]
  | stored hid _ _ hnone =>
    have hI : id ∈ colonFreeIds := hids _ _ hid
    rw [hnone rfl, List.append_nil, commit_of_disjoint (by simp [Transaction.putJsonValue])]
    refine h.of_id hI (fun k hk => ?_) fun t hv => ?_
    · refine SortedMap.find?_applyLog_of_forall_ne _ fun w hw hwk => hk ?_
      rw [← hwk]
      exact Transaction.putJsonValue_key hw
    · have hne := startKey_lt_linkKey id
      obtain ⟨v, hv⟩ := Option.ne_none_iff_exists'.mp hv
      dsimp only [Transaction.putJsonValue] at hv ⊢
      constructor
      · rw [SortedMap.find?_applyLog_of_put _ List.mem_cons_self fun w hw hwk => ?_]
        · simp
        · rcases List.mem_cons.mp hw with rfl | hw
          · rfl
          · rw [List.mem_singleton.mp hw] at hwk
            exact absurd hwk (hne _).ne'
      · rcases SortedMap.find?_applyLog_eq_some hv with hv | hput
        · exact h.version_le id t (by simp [hv])
        · rcases List.mem_cons.mp hput with heq | hput
          · exact absurd (WriteOp.put.inj heq).1 (hne t).ne'
          · have hkey := (WriteOp.put.inj (List.mem_singleton.mp hput)).1
            exact (constructDocumentLinkKey_inj.mp hkey).2.le

/-- **removeById** puts a tombstone behind a start key, or deletes the only version. -/
theorem removeById (h : RepresentedStore σ.snapshotId σ.db) {id : QByteArray}
    (hI : id ∈ colonFreeIds) {ignoreReadOnlyValue : Bool}
    (hown : RemovesOwn E σ id ignoreReadOnlyValue) :
    RepresentedStore (σ.transact E (.removeById id ignoreReadOnlyValue)).2.snapshotId
      (σ.transact E (.removeById id ignoreReadOnlyValue)).2.db := by
  cases hrem : Transaction.removable E σ.db σ.snapshotId id ignoreReadOnlyValue with
  | none =>
    obtain ⟨r, lastError, -, heq⟩ := @Transaction.removeById_of_removable_eq_none E σ.db
      σ.newTransaction _ _ hrem
    obtain ⟨hdb, hid⟩ := @Collection.transact_of_refused E σ
      (.removeById id ignoreReadOnlyValue) r lastError heq
    rw [hdb, hid]
    exact h
  | some p =>
    obtain ⟨doc, scan⟩ := p
    have hlook : seekValue E.backend σ.db σ.snapshotId id = some scan := by
      obtain ⟨hscan, hdoc, -⟩ := Transaction.removable_eq_some hrem
      cases hseek : seekValue E.backend σ.db σ.snapshotId id with
      | none =>
        rw [hseek, Option.getD_none] at hscan
        rw [← hscan] at hdoc
        cases hdoc
      | some r => rw [← hscan, hseek, Option.getD_some]
    have hw : Transaction.Wrote E (Transaction.removeVersion id σ.snapshotId scan)
        σ.newTransaction
        ((TxOp.removeById id ignoreReadOnlyValue).run E σ.db σ.newTransaction).2 := by
      have heq := @Transaction.removeById_eq E σ.db σ.newTransaction id ignoreReadOnlyValue doc
        scan hrem
      rw [Collection.getIndexes_newTransaction, Collection.getIndexes_eq_nil h.noIndexes,
        Transaction.removeFromIndexes] at heq
      rw [TxOp.run, heq]
      exact (Transaction.wrote_writes _ _).congr rfl rfl
    obtain ⟨hc, -⟩ := Collection.transact_spec _ hw
    rw [hc.snapshotId]
    have hother : ∀ k, ¬ IsKeyOf id k →
        (σ.transact E (.removeById id ignoreReadOnlyValue)).2.db.find? k = σ.db.find? k := by
      intro k hk
      rw [hc.db]
      exact find?_commit_of_forall_ne fun w hw hwk => hk (hwk ▸ Transaction.removeVersion_key hw)
    refine h.of_id hI hother fun t hv => ?_
    rw [hc.db] at hv ⊢
    rw [Transaction.removeVersion] at hv ⊢
    split at hv
    · rename_i htomb
      rw [if_pos htomb]
      have hstart : σ.db.find? (constructDocumentStartKey id) ≠ none := by
        refine (hown doc scan hrem).resolve_right fun hnaked => ?_
        simp [hnaked] at htomb
      obtain ⟨v, hv⟩ := Option.ne_none_iff_exists'.mp hv
      constructor
      · rw [find?_commit_of_forall_ne]
        · exact hstart
        · intro w hw
          rw [List.mem_singleton.mp hw]
          exact (startKey_lt_linkKey id _).ne'
      · rcases find?_commit_eq_some hv with hv | hput
        · exact h.version_le id t (by simp [hv])
        · have hkey := (WriteOp.put.inj (List.mem_singleton.mp hput)).1
          exact (constructDocumentLinkKey_inj.mp hkey).2.le
    · rename_i hnaked
      rw [not_or, not_not, Bool.not_eq_false] at hnaked
      -- the version of the current number is the only one, and it is deleted
      have hthere : σ.db.find? (constructDocumentLinkKey id t) ≠ none := by
        obtain ⟨v, hv⟩ := Option.ne_none_iff_exists'.mp hv
        rcases find?_commit_eq_some hv with hv | hv
        · simp [hv]
        · simp at hv
      have hstart := h.startKey id t hthere
      obtain rfl : t = σ.snapshotId := by
        refine le_antisymm (h.version_le id t hthere) (not_lt.mp fun hlt => hthere ?_)
        exact find?_linkKey_of_isNaked colonFree_colonFreeIds h.shape hI hstart hlook hnaked.2 hlt
      have hdisjoint : ∀ k, WriteOp.delete k ∈ ([.delete (constructDocumentLinkKey id σ.snapshotId),
          .delete (constructDocumentStartKey id)] : List (WriteOp QByteArray Blob)) →
          σ.db.find? k ≠ none ∧ ∀ v, WriteOp.put k v ∉
            ([.delete (constructDocumentLinkKey id σ.snapshotId),
              .delete (constructDocumentStartKey id)] : List (WriteOp QByteArray Blob)) := by
        intro k hk
        refine ⟨?_, by simp⟩
        simp only [List.mem_cons, WriteOp.delete.injEq, List.not_mem_nil, or_false] at hk
        rcases hk with rfl | rfl
        · exact hthere
        · exact hstart
      rw [commit_of_disjoint hdisjoint] at hv
      simp [WriteOp.find?_apply] at hv

/-- The list of snapshots, as the lemmas on snapshot operations ask for it. -/
theorem exists_names (h : RepresentedStore σ.snapshotId σ.db) :
    ∃ names, σ.db.find? snapshotsKey = some (.snapshots (names ++ [currentName])) ∧
      names.length = σ.snapshotId.val := by
  obtain ⟨names, hnames, hlen, -⟩ := h.names
  exact ⟨names, hnames, hlen⟩

/-- The names that an operation reads are pairwise distinct. -/
theorem nodup (h : RepresentedStore σ.snapshotId σ.db) {l : List QString}
    (hl : σ.getSnapshotsValue E = .ok l) : l.Nodup := by
  obtain ⟨names, hnames, -, hnodup⟩ := h.names
  obtain ⟨b, hb, rfl⟩ := Collection.getSnapshotsValue_eq_ok_iff.mp hl
  cases hb.symm.trans hnames
  exact hnodup

/-- **newSnapshot** leaves the documents alone and adds a new name. -/
theorem newSnapshot (h : RepresentedStore σ.snapshotId σ.db) {snapshotName : QString}
    (hroom : ∀ l, σ.getSnapshotsValue E = .ok l → snapshotName ∈ l ∨ l.length ≤ 255) :
    RepresentedStore (σ.newSnapshot E snapshotName).2.snapshotId
      (σ.newSnapshot E snapshotName).2.db := by
  rcases Collection.newSnapshot_cases (E := E) h.exists_names snapshotName with
    ⟨hdb, hid, -⟩ | ⟨names, hl, hlen, hnot, -, hdb, hid⟩
  · rwa [hdb, hid]
  · have hsucc := Collection.val_snapshotId_add_one hlen ((hroom _ hl).resolve_left hnot)
    have hle : σ.snapshotId ≤ (σ.newSnapshot E snapshotName).2.snapshotId := by
      rw [hid, Fin.le_def, hsucc]
      exact Nat.le_succ _
    have hkeep : ∀ k, k ≠ snapshotsKey →
        (σ.newSnapshot E snapshotName).2.db.find? k = σ.db.find? k := by
      intro k hk
      rw [hdb, Collection.newSnapshotWrites, Collection.getIndexes_eq_nil h.noIndexes]
      exact SortedMap.find?_insert_of_ne _ _ hk
    have hkey : ∀ I k, IsKeyOf I k →
        (σ.newSnapshot E snapshotName).2.db.find? k = σ.db.find? k :=
      fun I k hk => hkeep k hk.ne_snapshotsKey
    refine ⟨⟨fun I t hv => ?_, fun I t hv => ?_, names ++ [snapshotName], ?_, ?_, ?_⟩,
      fun k hk => ?_, ?_⟩
    · rw [hkey I _ (isKeyOf_linkKey I t)] at hv
      rw [hkey I _ (isKeyOf_startKey I)]
      exact h.startKey I t hv
    · rw [hkey I _ (isKeyOf_linkKey I t)] at hv
      exact (h.version_le I t hv).trans hle
    · rw [hdb, Collection.find?_newSnapshotWrites_snapshotsKey, List.dropLast_concat,
        List.append_assoc]
      rfl
    · rw [hid, hsucc, List.length_append, List.length_singleton, hlen]
    · have hnodup := h.nodup hl
      simp only [List.mem_append, List.mem_singleton, not_or] at hnot
      rw [List.append_assoc, List.singleton_append]
      refine List.nodup_middle.mpr (List.nodup_cons.mpr ⟨?_, hnodup⟩)
      simp [hnot]
    · by_cases hks : k = snapshotsKey
      · exact .inr (hks ▸ isMetaKey_snapshotsKey)
      · exact h.shape k (hkeep k hks ▸ hk)
    · rw [hkeep _ (by decide), h.noIndexes]

/-- **revertToSnapshot** keeps the start key in front of each version that it keeps. -/
theorem revertToSnapshot (h : RepresentedStore σ.snapshotId σ.db) (snapshotName : QString) :
    RepresentedStore (σ.revertToSnapshot E snapshotName).2.snapshotId
      (σ.revertToSnapshot E snapshotName).2.db := by
  have hF := colonFree_colonFreeIds
  rcases Collection.revertToSnapshot_cases (E := E) h.exists_names snapshotName with
    ⟨hdb, hid⟩ | ⟨names, i, hl, hlen, -, -, hi, hdb, hid, hnames⟩
  · rwa [hdb, hid]
  · have hshape : Shape colonFreeIds (σ.revertToSnapshot E snapshotName).2.db := by
      rw [hdb]
      exact h.shape.applyLog_revertWrites
    have hlink : ∀ I t, (σ.revertToSnapshot E snapshotName).2.db.find?
        (constructDocumentLinkKey I t) ≠ none → I ∈ colonFreeIds ∧
          t ∉ Collection.droppedIds (names ++ [currentName]) i ∧
          σ.db.find? (constructDocumentLinkKey I t) ≠ none := by
      intro I t hv
      have hI : I ∈ colonFreeIds := hshape.mem_of_linkKey hF hv
      rw [hdb, Collection.find?_revert_linkKey hF h.shape hI t] at hv
      split at hv
      · exact absurd rfl hv
      · rename_i ht
        exact ⟨hI, ht, hv⟩
    refine ⟨⟨fun I t hv => ?_, fun I t hv => ?_, names.take i.val, hnames, ?_, ?_⟩, hshape, ?_⟩
    · obtain ⟨hI, ht, hv⟩ := hlink I t hv
      rw [hdb, Collection.find?_revert_startKey hF h.shape hI ht hv]
      exact h.startKey I t hv
    · obtain ⟨-, ht, hv⟩ := hlink I t hv
      rw [Collection.mem_droppedIds hlen, not_and', not_lt] at ht
      rw [hid]
      exact ht (h.version_le I t hv)
    · rw [hid, List.length_take, hlen]
      exact Nat.min_eq_left hi
    · exact (h.nodup hl).sublist ((List.take_sublist _ _).append (List.Sublist.refl _))
    · rw [hdb, Collection.find?_revert_indexesKey, h.noIndexes]

end RepresentedStore

/-! ## removeSnapshot -/

namespace RepresentedStore

variable {E : Env} {σ σ' : Collection} {l : List QString} {i : Byte}

theorem startsKnown (h : RepresentedStore σ.snapshotId σ.db) :
    Collection.StartsKnown colonFreeIds (Collection.documentEntries σ.db) [] := by
  have hmem := fun {e} => @Collection.mem_documentEntries_iff colonFreeIds σ.db h.shape e
  refine ⟨.inl rfl, fun e he => ?_, fun J hJ t v hv => .inr ?_⟩
  · obtain ⟨-, J, -, hk⟩ := hmem.mp he
    obtain ⟨r, -, hr⟩ := hk.exists_eq
    rw [hr]
    exact List.nil_lt_cons _ _
  · have hv := SortedMap.find?_eq_some_iff.mpr (hmem.mp hv).1
    obtain ⟨b, hb⟩ := Option.ne_none_iff_exists'.mp (h.startKey J t (by simp [hv]))
    exact ⟨b, hmem.mpr ⟨SortedMap.find?_eq_some_iff.mp hb, J, hJ, isKeyOf_startKey J⟩⟩

/-- A start key is deleted only when its id ends removed. -/
theorem endsRemoved_of_delete_mem (h : RepresentedStore σ.snapshotId σ.db) {I : QByteArray}
    (hI : I ∈ colonFreeIds)
    (hd : .delete (constructDocumentStartKey I) ∈ Collection.removeWrites σ l i) :
    Collection.EndsRemoved i σ.db.entries I := by
  have hmem := fun {e} => @Collection.mem_documentEntries_iff colonFreeIds σ.db h.shape e
  have hd : .delete (constructDocumentStartKey I) ∈
      Collection.shiftVersions i (Collection.documentEntries σ.db) [] [] false :=
    (List.mem_append.mp hd).resolve_right fun hd => by cases List.mem_singleton.mp hd
  rcases Collection.of_delete_startKey_mem_shiftVersions colonFree_colonFreeIds
    (fun e he => (hmem.mp he).2) (Collection.sorted_documentEntries _) h.startsKnown (.inl rfl) hI
    hd with ⟨-, hb, -⟩ | ⟨⟨t, v, ht, hv, hundef⟩, hnewer⟩
  · cases hb
  · refine ⟨⟨t, v, ht, (hmem.mp hv).1, hundef⟩, fun t v hit hv => hnewer t v hit ?_⟩
    exact hmem.mpr ⟨hv, I, hI, isKeyOf_linkKey I t⟩

/-- The last version behind the removed number is deleted. -/
theorem delete_last_mem (h : RepresentedStore σ.snapshotId σ.db) {I : QByteArray} {t : Byte}
    (hit : i < t) (hv : σ.db.find? (constructDocumentLinkKey I t) ≠ none)
    (hlast : ∀ t', t < t' → σ.db.find? (constructDocumentLinkKey I t') = none) :
    .delete (constructDocumentLinkKey I t) ∈ Collection.removeWrites σ l i := by
  have hmem := fun {e} => @Collection.mem_documentEntries_iff colonFreeIds σ.db h.shape e
  have hI := h.shape.mem_of_linkKey colonFree_colonFreeIds hv
  obtain ⟨v, hv⟩ := Option.ne_none_iff_exists'.mp hv
  refine List.mem_append_left _ (Collection.delete_last_mem_shiftVersions colonFree_colonFreeIds
    (fun e he => (hmem.mp he).2) (Collection.sorted_documentEntries _) h.startsKnown hit
    (hmem.mpr ⟨SortedMap.find?_eq_some_iff.mp hv, I, hI, isKeyOf_linkKey I t⟩) ?_)
  intro t' v' ht hmem'
  have hfind := SortedMap.find?_eq_some_iff.mpr (hmem.mp hmem').1
  rw [hlast t' ht] at hfind
  cases hfind

/-- **Commit**: when each tombstone behind the removed number has a version in front of it the
writes are applied in order, on either backend. -/
theorem commit_removeWrites (h : RepresentedStore σ.snapshotId σ.db)
    (hmap : E.backend = .map → ∀ id t v, i < t →
      σ.db.find? (constructDocumentLinkKey id t) = some v → v.unmarshal.isUndefined = true →
        σ.db.find? (constructDocumentLinkKey id (t - 1)) ≠ none) :
    commit E.backend σ.db (Collection.removeWrites σ l i) =
      (.success, σ.db.applyLog (Collection.removeWrites σ l i)) := by
  have hF := colonFree_colonFreeIds
  cases hB : E.backend with
  | levelDB => exact commit_levelDB
  | map =>
    refine commit_of_disjoint fun k hk => ⟨?_, ?_⟩
    · rcases Collection.key_of_mem_removeWrites hF h.shape hk with ⟨J, hJ, hkey⟩ | heq
      · rcases hkey with rfl | ⟨t, rfl⟩
        · obtain ⟨⟨t, v, -, hv, -⟩, -⟩ := h.endsRemoved_of_delete_mem hJ hk
          exact h.startKey J t (by simp [SortedMap.find?_eq_some_iff.mpr hv])
        · rcases Collection.of_delete_linkKey_mem_removeWrites hF h.shape hJ hk with
            ⟨t', v, hval, hit, hv, hundef⟩ | ⟨-, hthere, -⟩
          · have hpred := hmap hB J t' v hit hv hundef
            have ht : t' - 1 = t := Fin.ext (by rw [Collection.val_sub_one hit]; omega)
            rwa [ht] at hpred
          · exact hthere
      · cases heq
    · exact Collection.put_notMem_removeWrites_of_delete_mem hF h.shape hk

/-- What is stored afterwards was stored under the same number or the next one. -/
theorem find?_linkKey_removeWrites (h : RepresentedStore σ.snapshotId σ.db) {I : QByteArray}
    (hI : I ∈ colonFreeIds) {t : Byte}
    (hv : (σ.db.applyLog (Collection.removeWrites σ l i)).find?
      (constructDocumentLinkKey I t) ≠ none) :
    (∃ t' v, t'.val = t.val + 1 ∧ i < t' ∧
        σ.db.find? (constructDocumentLinkKey I t') = some v ∧ v.unmarshal.isUndefined = false) ∨
      (.delete (constructDocumentLinkKey I t) ∉ Collection.removeWrites σ l i ∧
        σ.db.find? (constructDocumentLinkKey I t) ≠ none) := by
  have hF := colonFree_colonFreeIds
  obtain ⟨v, hv⟩ := Option.ne_none_iff_exists'.mp hv
  rcases SortedMap.find?_applyLog_eq_some hv with hthere | hput
  · by_cases hd : .delete (constructDocumentLinkKey I t) ∈ Collection.removeWrites σ l i
    · rw [SortedMap.find?_applyLog_of_delete _ hd
        (Collection.put_notMem_removeWrites_of_delete_mem hF h.shape hd)] at hv
      cases hv
    · exact .inr ⟨hd, by simp [hthere]⟩
  · obtain ⟨t', hval, hit, hv, hundef⟩ :=
      (Collection.put_linkKey_mem_removeWrites_iff hF h.shape hI).mp hput
    exact .inl ⟨t', v, hval, hit, hv, hundef⟩

/-- No version of an id survives that ends removed, when its numbers are such. -/
theorem find?_linkKey_of_endsRemoved (h : RepresentedStore σ.snapshotId σ.db) {I : QByteArray}
    (hI : I ∈ colonFreeIds) (hends : Collection.EndsRemoved i σ.db.entries I)
    (hnothing : NothingSurvives i σ.db I) (t : Byte) :
    (σ.db.applyLog (Collection.removeWrites σ l i)).find? (constructDocumentLinkKey I t) =
      none := by
  have hmem := fun {e} => @Collection.mem_documentEntries_iff colonFreeIds σ.db h.shape e
  by_contra hv
  rcases h.find?_linkKey_removeWrites hI hv with ⟨t', v, -, hit, hv, hundef⟩ | ⟨hd, hthere⟩
  · -- a document behind the removed number
    rw [hends.newer t' v hit (SortedMap.find?_eq_some_iff.mp hv)] at hundef
    cases hundef
  · obtain ⟨hle, hnext⟩ := hnothing t hthere
    obtain ⟨t₁, v₁, ht₁, hv₁, -⟩ := hends.next
    have hv₁ := SortedMap.find?_eq_some_iff.mpr hv₁
    refine hd ?_
    by_cases hlast : ∀ t', t < t' → σ.db.find? (constructDocumentLinkKey I t') = none
    · refine h.delete_last_mem (lt_of_le_of_ne hle ?_) hthere hlast
      rintro rfl
      rw [hlast t₁ (Fin.lt_def.mpr (by omega))] at hv₁
      cases hv₁
    · push Not at hlast
      obtain ⟨t', htt', hv'⟩ := hlast
      obtain ⟨u, hu, hvu⟩ := hnext t' htt' hv'
      obtain ⟨w, hw⟩ := Option.ne_none_iff_exists'.mp hvu
      have hle' : i.val ≤ t.val := hle
      have hiu : i < u := Fin.lt_def.mpr (by omega)
      have hu1 : u - 1 = t := Fin.ext (by rw [Collection.val_sub_one hiu]; omega)
      have hmemu := SortedMap.find?_eq_some_iff.mp hw
      rw [← hu1]
      exact List.mem_append_left _ (Collection.delete_mem_shiftVersions colonFree_colonFreeIds
        (fun e he => (hmem.mp he).2) (hmem.mpr ⟨hmemu, I, hI, isKeyOf_linkKey I u⟩) hiu
        (hends.newer u w hiu hmemu))

/-- The writes keep the shape of the keys. -/
theorem shape_removeWrites (h : RepresentedStore σ.snapshotId σ.db) :
    Shape colonFreeIds (σ.db.applyLog (Collection.removeWrites σ l i)) := by
  intro k hk
  obtain ⟨v, hv⟩ := Option.ne_none_iff_exists'.mp hk
  rcases SortedMap.find?_applyLog_eq_some hv with hv | hput
  · exact h.shape k (by simp [hv])
  · rcases Collection.key_of_mem_removeWrites colonFree_colonFreeIds h.shape hput with
      ⟨J, hJ, hk⟩ | heq
    · exact .inl ⟨J, hJ, hk⟩
    · cases heq
      exact .inr isMetaKey_snapshotsKey

/-- The start key in front of a version that survives is neither put nor deleted. -/
theorem find?_startKey_removeWrites (h : RepresentedStore σ.snapshotId σ.db)
    (hends : ∀ I, Collection.EndsRemoved i σ.db.entries I → NothingSurvives i σ.db I)
    {I : QByteArray} (hI : I ∈ colonFreeIds) {t : Byte}
    (hv : (σ.db.applyLog (Collection.removeWrites σ l i)).find?
      (constructDocumentLinkKey I t) ≠ none) :
    (σ.db.applyLog (Collection.removeWrites σ l i)).find? (constructDocumentStartKey I) ≠
      none := by
  have hF := colonFree_colonFreeIds
  rw [SortedMap.find?_applyLog_of_forall_ne]
  · rcases h.find?_linkKey_removeWrites hI hv with ⟨t', v, -, -, hv, -⟩ | ⟨-, hthere⟩
    · exact h.startKey I t' (by simp [hv])
    · exact h.startKey I t hthere
  · rintro w hw hwk
    cases w with
    | put k v =>
      obtain rfl : k = _ := hwk
      rcases List.mem_append.mp hw with hw | hw
      · obtain ⟨J, -, u, -, -, -, hk⟩ := (Collection.put_mem_shiftVersions_iff hF
          fun e he => ((Collection.mem_documentEntries_iff h.shape).mp he).2).mp hw
        exact hF.startKey_ne_linkKey hI _ hk
      · exact (isKeyOf_startKey I).ne_snapshotsKey
          (WriteOp.put.inj (List.mem_singleton.mp hw)).1
    | delete k =>
      obtain rfl : k = _ := hwk
      have hremoved := h.endsRemoved_of_delete_mem hI hw
      exact hv (h.find?_linkKey_of_endsRemoved hI hremoved (hends I hremoved) t)

/-- No version of the current number survives. -/
theorem version_lt_of_survives (h : RepresentedStore σ.snapshotId σ.db) (hi : i < σ.snapshotId)
    {I : QByteArray} (hI : I ∈ colonFreeIds) {t : Byte}
    (hv : (σ.db.applyLog (Collection.removeWrites σ l i)).find?
      (constructDocumentLinkKey I t) ≠ none) : t.val + 1 ≤ σ.snapshotId.val := by
  rcases h.find?_linkKey_removeWrites hI hv with ⟨t', v, hval, -, hv, -⟩ | ⟨hd, hthere⟩
  · have hle : t'.val ≤ σ.snapshotId.val := h.version_le I t' (by simp [hv])
    omega
  · -- a version of the current number is the last one
    have hle : t.val ≤ σ.snapshotId.val := h.version_le I t hthere
    refine lt_of_le_of_ne hle fun heq => hd ?_
    have hit : i < t := by rwa [Fin.ext heq]
    refine h.delete_last_mem hit hthere fun t' ht' => ?_
    by_contra hv'
    have hle' : t'.val ≤ σ.snapshotId.val := h.version_le I t' hv'
    have hlt' : t.val < t'.val := ht'
    omega

/-- **removeSnapshot** of a named snapshot keeps the representation when it deletes start keys
only where nothing survives. -/
theorem removeSnapshot (h : RepresentedStore σ.snapshotId σ.db) {snapshotName : QString}
    (hname : snapshotName ≠ currentName) (hclean : RemovesCleanly E σ snapshotName)
    {r : ResultEnum} (hr : σ.removeSnapshot E snapshotName = some (r, σ')) :
    RepresentedStore σ'.snapshotId σ'.db := by
  have hF := colonFree_colonFreeIds
  obtain ⟨names, hl, hlen⟩ := Collection.exists_names h.exists_names E
  by_cases hmem : snapshotName ∈ names ++ [currentName]
  · have hmem' : snapshotName ∈ names := (List.mem_append.mp hmem).resolve_right fun h =>
      hname (List.mem_singleton.mp h)
    obtain ⟨hval, hlt⟩ := ofNat_idxOf_lt hlen hmem'
    have hidx : (names ++ [currentName]).idxOf snapshotName = names.idxOf snapshotName :=
      List.idxOf_append_of_mem hmem'
    have hi : σ.getSnapshotId E snapshotName = .ok (Fin.ofNat 256 (names.idxOf snapshotName)) := by
      rw [Collection.getSnapshotId_of_mem hl hmem, hidx]
    obtain ⟨r', τ, heq, hdb, hs, hid⟩ := Collection.removeSnapshot_of_mem (n := snapshotName)
      (Collection.getIndexes_eq_nil h.noIndexes) hl hmem
    obtain ⟨rfl, rfl⟩ : r' = r ∧ τ = σ' := by simpa [hr, eq_comm] using heq
    rw [hidx] at hdb hs
    generalize Fin.ofNat 256 (names.idxOf snapshotName) = i at hi hdb hs hval hlt
    have hcommit := h.commit_removeWrites (l := names ++ [currentName]) (E := E)
      fun hB id => (hclean i hi id).2 hB
    rw [hcommit] at hdb hs
    rw [if_pos (hs.mpr rfl)] at hid
    have hpos : i.val < σ.snapshotId.val := hlt
    have hcur : τ.snapshotId.val + 1 = σ.snapshotId.val := by
      rw [hid, Collection.val_sub_one hlt]
      omega
    have hilen : i.val < names.length := hlen ▸ hpos
    have hkey := fun {w} => Collection.key_of_mem_removeWrites hF h.shape
      (l := names ++ [currentName]) (i := i) (w := w)
    have hshape : Shape colonFreeIds τ.db := by
      rw [hdb]
      exact h.shape_removeWrites
    refine ⟨⟨fun I t hv => ?_, fun I t hv => ?_, names.eraseIdx i.val, ?_, ?_, ?_⟩, hshape, ?_⟩
    · have hI := hshape.mem_of_linkKey hF hv
      rw [hdb] at hv ⊢
      exact h.find?_startKey_removeWrites (fun I => (hclean i hi I).1) hI hv
    · have hI := hshape.mem_of_linkKey hF hv
      rw [hdb] at hv
      have hle := h.version_lt_of_survives hlt hI hv
      exact Fin.le_def.mpr (by omega)
    · rw [← List.eraseIdx_append_of_lt_length hilen]
      have hput : WriteOp.put snapshotsKey (.snapshots ((names ++ [currentName]).eraseIdx i.val)) ∈
          Collection.removeWrites σ (names ++ [currentName]) i :=
        List.mem_append_right _ (List.mem_singleton.mpr rfl)
      rw [hdb]
      refine SortedMap.find?_applyLog_of_put _ hput fun w hw hwk => ?_
      rcases hkey hw with ⟨J, -, hk⟩ | rfl
      · exact absurd hwk hk.ne_snapshotsKey
      · rfl
    · rw [List.length_eraseIdx_of_lt hilen]
      omega
    · rw [← List.eraseIdx_append_of_lt_length hilen]
      exact (h.nodup hl).sublist (List.eraseIdx_sublist _ _)
    · rw [hdb, SortedMap.find?_applyLog_of_forall_ne _ fun w hw hwk => ?_, h.noIndexes]
      rcases hkey hw with ⟨J, -, hk⟩ | rfl
      · exact hk.ne_indexesKey hwk
      · exact absurd hwk (show snapshotsKey ≠ indexesKey by decide)
  · rw [Collection.removeSnapshot_of_notMem hl hmem] at hr
    obtain ⟨-, rfl⟩ : ResultEnum.errorInvalidObject = r ∧ σ.noteSnapshotsError E = σ' := by
      simpa using hr
    simpa using h

end RepresentedStore

/-! ## Runs -/

variable {E : Env} {σ : Collection}

theorem representedStore_open :
    RepresentedStore (Collection.open E .empty).snapshotId (Collection.open E .empty).db := by
  obtain ⟨hdb, hid⟩ := Collection.open_empty (E := E)
  have hkeep : ∀ k, k ≠ snapshotsKey → (Collection.open E .empty).db.find? k = none := by
    intro k hk
    rw [hdb, SortedMap.find?_insert_of_ne _ _ hk, SortedMap.find?_empty]
  have hlink : ∀ I t, (Collection.open E .empty).db.find? (constructDocumentLinkKey I t) = none :=
    fun I t => hkeep _ (isKeyOf_linkKey I t).ne_snapshotsKey
  refine ⟨⟨fun I t hv => absurd (hlink I t) hv, fun I t hv => absurd (hlink I t) hv, [], ?_, ?_,
    by simp⟩, fun k hk => ?_, hkeep _ (by decide)⟩
  · rw [hdb, SortedMap.find?_insert_self, List.nil_append]
  · rw [hid]
    rfl
  · by_cases hks : k = snapshotsKey
    · exact .inr (hks ▸ isMetaKey_snapshotsKey)
    · exact absurd (hkeep k hks) hk

/-- **Step**: a request under its condition keeps the representation. -/
theorem representedStore_served {σ' : Collection} {op : Op} {r : ResultEnum}
    (hop : RepresentationOp E σ op) (hkeeps : KeepsStartKeys E σ op)
    (h : op.apply E σ = some (r, σ')) (hσ : RepresentedStore σ.snapshotId σ.db) :
    RepresentedStore σ'.snapshotId σ'.db := by
  cases op with
  | transact op =>
    cases op with
    | insert doc gen overwrite ignoreReadOnlyValue =>
      cases h
      exact hσ.insert hop
    | removeById id ignoreReadOnlyValue =>
      cases h
      exact hσ.removeById hop hkeeps
    | _ => exact hop.elim
  | batch ops => exact hop.elim
  | newSnapshot snapshotName =>
    obtain rfl : (σ.newSnapshot E snapshotName).2 = σ' := congrArg Prod.snd (Option.some.inj h)
    exact hσ.newSnapshot hop
  | revertToSnapshot snapshotName =>
    obtain rfl : (σ.revertToSnapshot E snapshotName).2 = σ' :=
      congrArg Prod.snd (Option.some.inj h)
    exact hσ.revertToSnapshot snapshotName
  | removeSnapshot snapshotName => exact hσ.removeSnapshot hop hkeeps h

/-- **The representation invariant** holds in every state reached by requests that meet their
conditions: an id that is removed has a start key of its own, and removing a snapshot deletes
the start key only of ids of which no version survives. -/
theorem representation_of_reachable
    (h : Reachable E (fun σ op => RepresentationOp E σ op ∧ KeepsStartKeys E σ op) σ) :
    Representation σ.snapshotId σ.db := by
  have hσ : RepresentedStore σ.snapshotId σ.db := by
    induction h with
    | opened => exact representedStore_open
    | served _ hop happly ih => exact representedStore_served hop.1 hop.2 happly ih
  exact hσ.toRepresentation

theorem mem_colonFreeIds_a : TxIds colonFreeIds (.insertField "a" "n" .null) := by
  intro id d h
  obtain rfl : bytes "a" = id := (Prod.mk.inj (Option.some.inj h)).1
  decide

/-- The removal of `a` behind the snapshot `A` leaves a tombstone behind the start key. -/
theorem representation_removedA :
    Representation
      (((snapshotA .levelDB).transact (Env.plain .levelDB)
        (.removeById (bytes "a") false)).2.snapshotId)
      (((snapshotA .levelDB).transact (Env.plain .levelDB) (.removeById (bytes "a") false)).2.db) :=
  by
  refine representation_of_reachable (E := Env.plain .levelDB) (.transact ?_ ⟨?_, ?_⟩)
  · exact (Reachable.opened.transact ⟨mem_colonFreeIds_a, trivial⟩).newSnapshot
      ⟨fun l hl => .inr (by cases hl; decide), trivial⟩
  · exact show bytes "a" ∈ colonFreeIds by decide
  · exact fun _ _ _ => .inl (by decide)

/-- Removing the younger of two snapshots behind which `a` was removed deletes the start key
of `a`, whose first version stays. -/
theorem not_representation :
    ¬ ∀ (E : Env) (σ : Collection), Reachable E (RepresentationOp E) σ →
      Representation σ.snapshotId σ.db := by
  intro h
  have hinserted : Reachable (Env.plain .levelDB) (RepresentationOp (Env.plain .levelDB))
      (insertedA .levelDB) := Reachable.opened.transact mem_colonFreeIds_a
  have hremoved : Reachable (Env.plain .levelDB) (RepresentationOp (Env.plain .levelDB))
      removedBehindB := by
    refine ((hinserted.newSnapshot ?_).newSnapshot ?_).transact ?_
    · exact fun l hl => .inr (by cases hl; decide)
    · exact fun l hl => .inr (by cases hl; decide)
    · exact show bytes "a" ∈ colonFreeIds by decide
  have hseen : (removedBehindB.removeSnapshot (Env.plain .levelDB) (qs "B")).map
      (fun r => (decide (r.2.db.find? (constructDocumentLinkKey (bytes "a") 0) = none),
        decide (r.2.db.find? (constructDocumentStartKey (bytes "a")) = none))) =
      some (false, true) := by decide
  obtain ⟨⟨r, σ'⟩, hr, hres⟩ := Option.map_eq_some_iff.mp hseen
  obtain ⟨hthere, hstart⟩ := Prod.mk.inj hres
  have hreach := hremoved.served (show RepresentationOp _ _ (.removeSnapshot (qs "B")) from
    (by decide : qs "B" ≠ currentName)) hr
  exact (h _ _ hreach).startKey (bytes "a") 0 (of_decide_eq_false hthere)
    (of_decide_eq_true hstart)

end Qdocdb
