import Mathlib.Data.Fintype.EquivFin
import Mathlib.Logic.Relation
import Qdocdb.Invariants
import Qdocdb.Revert

/-!
# Serial use

The invariant of a collection without indexes: documents are numbered up to the
current snapshot, the list of snapshots ends with that number, and a stored document
has a start key. It is kept by transactions of `insert` and `removeById` that see no
snapshot operation while they are open, by `newSnapshot` as long as the snapshot
numbers fit into a byte, and by `revertToSnapshot` (`serialInv_of_reachable`).

What a transaction does to the store is a sequence of steps (`DocumentStep`), none of
which touches an older snapshot.
-/

namespace Qdocdb

/-! ## Steps of the documents -/

/-- What an operation on documents writes at the snapshot number `s`. The start key is
deleted only where no other version of the store `db` holds a document. -/
inductive DocumentWrites (F : Set QByteArray) (s : Byte) (db : Store) :
    List (WriteOp QByteArray Blob) → Prop
  | refused : DocumentWrites F s db []
  | stored {id : QByteArray} {o : QJsonObject} {sid : QString} (hid : id ∈ F)
    (hsid : QJsonObject.value o (qs "_id") = .string sid) (hlatin : toLatin1 sid = id) :
    DocumentWrites F s db (Transaction.putJsonValue id s o)
  | tombstone {id : QByteArray} (hid : id ∈ F) :
    DocumentWrites F s db [.put (constructDocumentLinkKey id s) .tombstone]
  | removed {id : QByteArray} (hid : id ∈ F)
    (h : ∀ t o, t ≠ s → db.find? (constructDocumentLinkKey id t) ≠ some (.document o)) :
    DocumentWrites F s db
      [.delete (constructDocumentLinkKey id s), .delete (constructDocumentStartKey id)]

/-- The store after the writes of one operation on documents. -/
def DocumentStep (F : Set QByteArray) (s : Byte) (db db' : Store) : Prop :=
  ∃ ws, DocumentWrites F s db ws ∧ db' = db.applyLog ws

section DocumentStep

variable {F : Set QByteArray} {s : Byte} {db db' : Store}

/-- The writes concern keys of documents: start keys and versions of the number `s`. -/
theorem DocumentWrites.key {ws : List (WriteOp QByteArray Blob)} (h : DocumentWrites F s db ws)
    {w : WriteOp QByteArray Blob} (hw : w ∈ ws) :
    ∃ id ∈ F, w.key = constructDocumentStartKey id ∨ w.key = constructDocumentLinkKey id s := by
  cases h with
  | refused => cases hw
  | @stored id o sid hid _ _ => exact ⟨id, hid, Transaction.putJsonValue_key_eq hw⟩
  | @tombstone id hid => exact ⟨id, hid, .inr (by rw [List.mem_singleton.mp hw]; rfl)⟩
  | @removed id hid _ =>
    refine ⟨id, hid, ?_⟩
    rcases List.mem_cons.mp hw with rfl | hw
    · exact .inr rfl
    · exact .inl (by rw [List.mem_singleton.mp hw]; rfl)

/-- The writes leave documents, tombstones and empty start keys. -/
theorem DocumentWrites.goodBinding {ws : List (WriteOp QByteArray Blob)}
    (h : DocumentWrites F s db ws) {k : QByteArray} {v : Blob} (hkv : WriteOp.put k v ∈ ws) :
    GoodBinding F k v := by
  cases h with
  | refused => cases hkv
  | stored hid hsid hlatin => exact goodBinding_of_mem_putJsonValue hid hsid hlatin hkv
  | tombstone hid =>
    cases List.mem_singleton.mp hkv
    exact ⟨.inl ⟨_, hid, isKeyOf_linkKey _ s⟩, by simp⟩
  | removed => simp at hkv

/-- No key is both put and deleted. -/
theorem DocumentWrites.put_notMem {ws : List (WriteOp QByteArray Blob)}
    (h : DocumentWrites F s db ws) {k : QByteArray} (hk : WriteOp.delete k ∈ ws) (v : Blob) :
    WriteOp.put k v ∉ ws := by
  cases h with
  | refused => exact List.not_mem_nil
  | stored => simp [Transaction.putJsonValue] at hk
  | tombstone => simp at hk
  | removed => simp

/-- **Commit**: beside writes that are not about documents, the writes of an operation leave
the keys of documents as when they are applied alone. -/
theorem DocumentWrites.find?_commit {B : Backend} {ws iws : List (WriteOp QByteArray Blob)}
    (h : DocumentWrites F s db ws) (hiws : ∀ w ∈ iws, IsMetaKey w.key)
    (hs : (commit B db (ws ++ iws)).1 = .success) {I k : QByteArray} (hk : IsKeyOf I k) :
    (commit B db (ws ++ iws)).2.find? k = (db.applyLog ws).find? k := by
  have hne : ∀ w ∈ iws, w.key ≠ k := fun w hw hwk => (hiws w hw).not_isKeyOf (hwk ▸ hk)
  rw [Qdocdb.find?_commit hs fun _ hlast => ?_, SortedMap.applyLog_append,
    SortedMap.find?_applyLog_of_forall_ne _ hne]
  obtain ⟨w, hw, hwk, ho⟩ := exists_mem_of_lastWrite_eq_some hlast
  have hdel : w = .delete k := WriteOp.ext_key_outcome hwk ho
  subst hdel
  have hmem : WriteOp.delete k ∈ ws := (List.mem_append.mp hw).resolve_right fun hw => hne _ hw rfl
  rw [lastPut_eq_none_iff]
  intro v hv
  rcases List.mem_append.mp hv with hv | hv
  · exact h.put_notMem hmem v hv
  · exact hne _ hv rfl

namespace DocumentStep

/-- Keys that belong to no document stay. -/
theorem find?_of_isMetaKey (h : DocumentStep F s db db') {k : QByteArray} (hk : IsMetaKey k) :
    db'.find? k = db.find? k := by
  obtain ⟨ws, hws, rfl⟩ := h
  refine SortedMap.find?_applyLog_of_forall_ne _ fun w hw hwk => ?_
  obtain ⟨id, -, hkey | hkey⟩ := hws.key hw
  · exact hk.not_isKeyOf (.inl (hwk.symm.trans hkey))
  · exact hk.not_isKeyOf (.inr ⟨s, hwk.symm.trans hkey⟩)

theorem goodStore (h : DocumentStep F s db db') (hdb : GoodStore F db) : GoodStore F db' := by
  obtain ⟨ws, hws, rfl⟩ := h
  intro k v hkv
  rcases SortedMap.find?_applyLog_eq_some hkv with hkv | hkv
  · exact hdb k v hkv
  · exact hws.goodBinding hkv

section Separated

variable (hF : Separated F) {I : QByteArray} (hI : I ∈ F)
include hF hI

/-- Only versions of the current snapshot change. -/
theorem find?_linkKey_of_ne (h : DocumentStep F s db db') {t : Byte} (ht : t ≠ s) :
    db'.find? (constructDocumentLinkKey I t) = db.find? (constructDocumentLinkKey I t) := by
  obtain ⟨ws, hws, rfl⟩ := h
  refine SortedMap.find?_applyLog_of_forall_ne _ fun w hw hwk => ?_
  obtain ⟨id, hid, hkey | hkey⟩ := hws.key hw
  · exact hF.startKey_ne_linkKey hid hI t (hkey.symm.trans hwk)
  · exact ht (constructDocumentLinkKey_inj.mp (hwk.symm.trans hkey)).2

/-- What a version key holds afterwards was there, or is not empty and under `s`. -/
theorem eq_or_find?_linkKey (h : DocumentStep F s db db') {t : Byte} {v : Blob}
    (hv : db'.find? (constructDocumentLinkKey I t) = some v) :
    db.find? (constructDocumentLinkKey I t) = some v ∨ t = s ∧ v ≠ .empty := by
  obtain ⟨ws, hws, rfl⟩ := h
  refine (SortedMap.find?_applyLog_eq_some hv).imp_right fun hput => ?_
  cases hws with
  | refused => cases hput
  | @stored id o sid hid _ _ =>
    rcases List.mem_cons.mp hput with hput | hput
    · exact absurd (WriteOp.put.inj hput).1 (hF.startKey_ne_linkKey hid hI t).symm
    · obtain ⟨hkey, rfl⟩ := WriteOp.put.inj (List.mem_singleton.mp hput)
      exact ⟨(constructDocumentLinkKey_inj.mp hkey).2, by simp⟩
  | tombstone hid =>
    obtain ⟨hkey, rfl⟩ := WriteOp.put.inj (List.mem_singleton.mp hput)
    exact ⟨(constructDocumentLinkKey_inj.mp hkey).2, by simp⟩
  | removed => simp at hput

/-- A stored document keeps its start key. -/
theorem startKey (h : DocumentStep F s db db')
    (hdb : ∀ t o, db.find? (constructDocumentLinkKey I t) = some (.document o) →
      db.find? (constructDocumentStartKey I) ≠ none) {t : Byte} {o : QJsonObject}
    (hv : db'.find? (constructDocumentLinkKey I t) = some (.document o)) :
    db'.find? (constructDocumentStartKey I) ≠ none := by
  have hstep := h
  obtain ⟨ws, hws, rfl⟩ := h
  have hlink : ∀ {id}, id ∈ F → constructDocumentLinkKey id s ≠ constructDocumentStartKey I :=
    fun hid => (hF.startKey_ne_linkKey hI hid s).symm
  have hkeep : (∀ w ∈ ws, w.key ≠ constructDocumentStartKey I) →
      db.find? (constructDocumentLinkKey I t) = some (.document o) →
      (db.applyLog ws).find? (constructDocumentStartKey I) ≠ none := fun hne hdoc => by
    rw [SortedMap.find?_applyLog_of_forall_ne _ hne]
    exact hdb t o hdoc
  cases hws with
  | refused => exact hdb t o hv
  | @stored id o' sid hid _ _ =>
    by_cases hne : I = id
    · subst hne
      have hput : WriteOp.put (constructDocumentStartKey I) .empty ∈
          Transaction.putJsonValue I s o' := List.mem_cons_self
      rw [SortedMap.find?_applyLog_of_put _ hput]
      · simp
      · intro w hw hwk
        rcases List.mem_cons.mp hw with rfl | hw
        · rfl
        · rw [List.mem_singleton.mp hw] at hwk
          exact absurd hwk (hlink hid)
    · refine hkeep (fun w hw hwk => ?_) ((SortedMap.find?_applyLog_eq_some hv).resolve_right ?_)
      · rcases List.mem_cons.mp hw with rfl | hw
        · exact hne (constructDocumentStartKey_injective hwk).symm
        · rw [List.mem_singleton.mp hw] at hwk
          exact hlink hid hwk
      · intro hput
        rcases List.mem_cons.mp hput with hput | hput
        · exact hF.startKey_ne_linkKey hid hI t (WriteOp.put.inj hput).1.symm
        · have hkey := (WriteOp.put.inj (List.mem_singleton.mp hput)).1
          exact hne (constructDocumentLinkKey_inj.mp hkey).1
  | tombstone hid =>
    refine hkeep (fun w hw hwk => ?_) ((SortedMap.find?_applyLog_eq_some hv).resolve_right ?_)
    · rw [List.mem_singleton.mp hw] at hwk
      exact hlink hid hwk
    · intro hput
      cases (WriteOp.put.inj (List.mem_singleton.mp hput)).2
  | @removed id hid hother =>
    -- the document is of another id, because this one has no document left
    have hne : I ≠ id := by
      rintro rfl
      by_cases ht : t = s
      · subst ht
        rw [SortedMap.find?_applyLog_of_delete _ List.mem_cons_self (by simp)] at hv
        cases hv
      · rw [hstep.find?_linkKey_of_ne hF hI ht] at hv
        exact hother t o ht hv
    refine hkeep (fun w hw hwk => ?_) ((SortedMap.find?_applyLog_eq_some hv).resolve_right (by simp))
    rcases List.mem_cons.mp hw with rfl | hw
    · exact hlink hid hwk
    · rw [List.mem_singleton.mp hw] at hwk
      exact hne (constructDocumentStartKey_injective hwk).symm

end Separated

end DocumentStep

end DocumentStep

/-! ## The invariant -/

/-- A store without indexes whose list of snapshots ends with the current number `s`. -/
structure NumberedStore (F : Set QByteArray) (s : Byte) (db : Store) : Prop where
  good : GoodStore F db
  noIndexes : db.find? indexesKey = none
  names : ∃ names, db.find? snapshotsKey = some (.snapshots (names ++ [currentName])) ∧
    names.length = s.val

/-- What serial use keeps true of documents and snapshots, with or without indexes, on a
store with the current snapshot number `s`. -/
structure DocumentStore (F : Set QByteArray) (s : Byte) (db : Store) : Prop where
  good : GoodStore F db
  names : ∃ names, db.find? snapshotsKey = some (.snapshots (names ++ [currentName])) ∧
    names.length = s.val
  value : ∀ I ∈ F, ∀ t v, db.find? (constructDocumentLinkKey I t) = some v → v ≠ .empty
  startKey : ∀ I ∈ F, ∀ t o, db.find? (constructDocumentLinkKey I t) = some (.document o) →
    db.find? (constructDocumentStartKey I) ≠ none
  version_le : ∀ I ∈ F, ∀ t o,
    db.find? (constructDocumentLinkKey I t) = some (.document o) → t ≤ s

/-- The invariant of serial use, on a store with the current snapshot number `s`. -/
structure SerialStore (F : Set QByteArray) (s : Byte) (db : Store) : Prop
    extends NumberedStore F s db where
  value : ∀ I ∈ F, ∀ t v, db.find? (constructDocumentLinkKey I t) = some v → v ≠ .empty
  startKey : ∀ I ∈ F, ∀ t o, db.find? (constructDocumentLinkKey I t) = some (.document o) →
    db.find? (constructDocumentStartKey I) ≠ none
  version_le : ∀ I ∈ F, ∀ t o,
    db.find? (constructDocumentLinkKey I t) = some (.document o) → t ≤ s

/-- A collection without indexes after serial use. -/
abbrev SerialInv (F : Set QByteArray) (σ : Collection) : Prop :=
  SerialStore F σ.snapshotId σ.db

theorem SerialStore.documentStore {F : Set QByteArray} {s : Byte} {db : Store}
    (h : SerialStore F s db) : DocumentStore F s db :=
  ⟨h.good, h.names, h.value, h.startKey, h.version_le⟩

theorem DocumentStore.serialStore {F : Set QByteArray} {s : Byte} {db : Store}
    (h : DocumentStore F s db) (hi : db.find? indexesKey = none) : SerialStore F s db :=
  ⟨⟨h.good, hi, h.names⟩, h.value, h.startKey, h.version_le⟩

/-- A step of the documents keeps what is true of documents. -/
theorem DocumentStore.documentStep {F : Set QByteArray} (hF : Separated F) {s : Byte}
    {db db' : Store} (h : DocumentStore F s db) (hstep : DocumentStep F s db db') :
    DocumentStore F s db' where
  good := hstep.goodStore h.good
  value := by
    intro I hI t v hv
    rcases hstep.eq_or_find?_linkKey hF hI hv with hv | ⟨-, hv⟩
    · exact h.value I hI t v hv
    · exact hv
  startKey := fun I hI t o hv => hstep.startKey hF hI (h.startKey I hI) hv
  version_le := by
    intro I hI t o hv
    rcases hstep.eq_or_find?_linkKey hF hI hv with hv | ⟨rfl, -⟩
    · exact h.version_le I hI t o hv
    · exact le_rfl
  names := by
    rw [hstep.find?_of_isMetaKey isMetaKey_snapshotsKey]
    exact h.names

/-- Only the keys of documents and the list of snapshots matter. -/
theorem DocumentStore.congr {F : Set QByteArray} {s : Byte} {db db' : Store}
    (h : DocumentStore F s db) (hgood : GoodStore F db')
    (hkeys : ∀ I k, IsKeyOf I k → db'.find? k = db.find? k)
    (hnames : db'.find? snapshotsKey = db.find? snapshotsKey) : DocumentStore F s db' where
  good := hgood
  names := by
    rw [hnames]
    exact h.names
  value := fun I hI t v hv => h.value I hI t v (hkeys I _ (isKeyOf_linkKey I t) ▸ hv)
  startKey := by
    intro I hI t o hv
    rw [hkeys I _ (isKeyOf_startKey I)]
    exact h.startKey I hI t o (hkeys I _ (isKeyOf_linkKey I t) ▸ hv)
  version_le := fun I hI t o hv => h.version_le I hI t o (hkeys I _ (isKeyOf_linkKey I t) ▸ hv)

/-- A step of the documents keeps the invariant. -/
theorem SerialStore.documentStep {F : Set QByteArray} (hF : Separated F) {s : Byte}
    {db db' : Store} (h : SerialStore F s db) (hstep : DocumentStep F s db db') :
    SerialStore F s db' := by
  refine (h.documentStore.documentStep hF hstep).serialStore ?_
  rw [hstep.find?_of_isMetaKey isMetaKey_indexesKey, h.noIndexes]

/-- The number of a named snapshot is below the current one. -/
theorem ofNat_idxOf_lt {names : List QString} {s : Byte} (hlen : names.length = s.val)
    {n : QString} (hn : n ∈ names) :
    (Fin.ofNat 256 (names.idxOf n)).val = names.idxOf n ∧ Fin.ofNat 256 (names.idxOf n) < s := by
  have hidx := List.idxOf_lt_length_of_mem hn
  have hs := s.isLt
  have hval : (Fin.ofNat 256 (names.idxOf n)).val = names.idxOf n := Nat.mod_eq_of_lt (by omega)
  refine ⟨hval, ?_⟩
  rw [Fin.lt_def, hval]
  omega

/-! ## Committing operations on documents -/

/-- Several steps of the documents. -/
abbrev DocumentSteps (F : Set QByteArray) (s : Byte) : Store → Store → Prop :=
  Relation.ReflTransGen (DocumentStep F s)

section DocumentSteps

variable {F : Set QByteArray} (hF : Separated F) {s : Byte} {db db' : Store}
include hF

theorem SerialStore.documentSteps (h : SerialStore F s db) (hsteps : DocumentSteps F s db db') :
    SerialStore F s db' := by
  induction hsteps with
  | refl => exact h
  | tail _ hstep ih => exact ih.documentStep hF hstep

omit hF in
theorem DocumentSteps.find?_of_isMetaKey (h : DocumentSteps F s db db') {k : QByteArray}
    (hk : IsMetaKey k) : db'.find? k = db.find? k := by
  induction h with
  | refl => rfl
  | tail _ hstep ih => rw [hstep.find?_of_isMetaKey hk, ih]

theorem DocumentSteps.find?_linkKey_of_ne (h : DocumentSteps F s db db') {I : QByteArray}
    (hI : I ∈ F) {t : Byte} (ht : t ≠ s) :
    db'.find? (constructDocumentLinkKey I t) = db.find? (constructDocumentLinkKey I t) := by
  induction h with
  | refl => rfl
  | tail _ hstep ih => rw [hstep.find?_linkKey_of_ne hF hI ht, ih]

theorem DocumentSteps.visible_of_lt (h : DocumentSteps F s db db') {I : QByteArray} (hI : I ∈ F)
    {j : Byte} (hj : j < s) : visible db' j I = visible db j I :=
  visible_congr fun _ ht => h.find?_linkKey_of_ne hF hI (ht.trans_lt hj).ne

/-- What an operation writes only depends on the versions of other snapshots. -/
theorem DocumentWrites.documentSteps (h : DocumentSteps F s db db')
    {ws : List (WriteOp QByteArray Blob)} (hws : DocumentWrites F s db ws) :
    DocumentWrites F s db' ws := by
  cases hws with
  | refused => exact .refused
  | stored hid hsid hlatin => exact .stored hid hsid hlatin
  | tombstone hid => exact .tombstone hid
  | removed hid hother =>
    refine .removed hid fun t o ht => ?_
    rw [h.find?_linkKey_of_ne hF hid ht]
    exact hother t o ht

/-- Applying the writes of several operations in order. -/
theorem documentSteps_applyLog {wss : List (List (WriteOp QByteArray Blob))}
    (hwss : ∀ ws ∈ wss, DocumentWrites F s db ws) :
    DocumentSteps F s db (db.applyLog wss.flatten) := by
  induction wss using List.reverseRecOn with
  | nil => exact .refl
  | append_singleton wss ws ih =>
    obtain ⟨hwss, hws⟩ := List.forall_mem_append.mp hwss
    have hsteps := ih hwss
    rw [List.flatten_append, SortedMap.applyLog_append, List.flatten_singleton]
    exact hsteps.tail ⟨ws, (List.forall_mem_singleton.mp hws).documentSteps hF hsteps, rfl⟩

omit hF in
/-- The deletions and the puts of an operation, each on their own. -/
theorem DocumentWrites.filter {ws : List (WriteOp QByteArray Blob)}
    (hws : DocumentWrites F s db ws) :
    DocumentWrites F s db (ws.filter fun w => w.outcome.isNone) ∧
      DocumentWrites F s db (ws.filter fun w => w.outcome.isSome) := by
  cases hws with
  | refused => exact ⟨.refused, .refused⟩
  | stored hid hsid hlatin => exact ⟨.refused, .stored hid hsid hlatin⟩
  | tombstone hid => exact ⟨.refused, .tombstone hid⟩
  | removed hid hother => exact ⟨.removed hid hother, .refused⟩

/-- **Commit** of the writes of several operations on documents: on either backend a
commit that goes through is a sequence of steps. The map deletes first, which makes
the same steps in another order. -/
theorem documentSteps_commit {B : Backend} {wss : List (List (WriteOp QByteArray Blob))}
    (hwss : ∀ ws ∈ wss, DocumentWrites F s db ws)
    (hs : (commit B db wss.flatten).1 = .success) :
    DocumentSteps F s db (commit B db wss.flatten).2 := by
  cases B with
  | levelDB =>
    rw [commit_levelDB]
    exact documentSteps_applyLog hF hwss
  | map =>
    rw [commit_map hs, List.filter_flatten, List.filter_flatten, ← List.flatten_append]
    refine documentSteps_applyLog hF (List.forall_mem_append.mpr ⟨?_, ?_⟩)
    · rw [List.forall_mem_map]
      exact fun ws hws => (hwss ws hws).filter.1
    · rw [List.forall_mem_map]
      exact fun ws hws => (hwss ws hws).filter.2

end DocumentSteps

variable {E : Env} {F : Set QByteArray} {σ σ' : Collection}

namespace DocumentStore

/-- A visible document has a start key. -/
theorem startKey_of_visible {s : Byte} {db : Store} (h : DocumentStore F s db) {I : QByteArray}
    (hI : I ∈ F) {j : Byte} {o : QJsonObject} (hv : visible db j I = some o) :
    db.find? (constructDocumentStartKey I) ≠ none := by
  rw [visible, History.view, Option.join_eq_some_iff, History.newest_eq_some_iff] at hv
  obtain ⟨t, htj, ht, -⟩ := hv
  obtain ⟨b, hb, hdoc⟩ := Option.map_eq_some_iff.mp ht
  cases b <;> cases hdoc
  rw [version, dif_pos (lt_of_le_of_lt htj j.isLt)] at hb
  exact h.startKey I hI _ _ hb

/-- The documents a reader enumerates are the visible ones. -/
theorem mem_documents_iff (hF : Separated F) {s : Byte} {R : Reader} (h : DocumentStore F s R.db)
    {I : QByteArray} {o : QJsonObject} :
    (I, o) ∈ R.documents E ↔ I ∈ F ∧ visible R.db R.snapshotId I = some o := by
  refine (Reader.mem_documents_iff hF h.good.shape).trans (and_congr_right fun hI => ?_)
  exact and_iff_right_of_imp fun hv => h.startKey_of_visible hI hv

/-- **Removing a version**: a tombstone, or the removal of the version with its start key;
every key that is deleted on the map is there. -/
theorem documentWrites_removeVersion (hF : PlainIds F) {s : Byte} {db : Store}
    (h : DocumentStore F s db) {id : QByteArray} (hid : id ∈ F) {scan : ValueScan}
    (hlook : seekValue E.backend db s id = some scan) :
    DocumentWrites F s db (Transaction.removeVersion id s scan) ∧
      (E.backend = .map → ∀ k, WriteOp.delete k ∈ Transaction.removeVersion id s scan →
        db.find? k ≠ none) := by
  rw [Transaction.removeVersion]
  split
  · exact ⟨.tombstone hid, fun _ k hk => absurd hk (by simp)⟩
  · rename_i hnaked
    rw [not_or, not_not, Bool.not_eq_false] at hnaked
    by_cases hstart : db.find? (constructDocumentStartKey id) = none
    · -- LevelDB found another document; without a start key there is no document of `id`
      refine ⟨.removed hid fun t o _ hv => h.startKey id hid t o hv hstart, fun hB => ?_⟩
      rw [hB, seekValue_map_of_startKey_none hstart] at hlook
      cases hlook
    · obtain ⟨hs, hlt⟩ :=
        (seekValue_isNaked_iff hF.separated h.good.shape hid hstart hlook).mp hnaked
      refine ⟨.removed hid fun t o ht hv => ?_, fun _ k hk => ?_⟩
      · rcases lt_or_gt_of_ne ht with ht | ht
        · rw [hlt t ht] at hv
          cases hv
        · exact absurd (h.version_le id hid t o hv) (not_le_of_gt ht)
      · rcases List.mem_cons.mp hk with hk | hk
        · rwa [WriteOp.delete.inj hk]
        · rwa [WriteOp.delete.inj (List.mem_singleton.mp hk)]

end DocumentStore

theorem SerialStore.mem_documents_iff (hF : Separated F) {s : Byte} {R : Reader}
    (h : SerialStore F s R.db) {I : QByteArray} {o : QJsonObject} :
    (I, o) ∈ R.documents E ↔ I ∈ F ∧ visible R.db R.snapshotId I = some o :=
  h.documentStore.mem_documents_iff hF

namespace Collection

/-- Taking a snapshot leaves the keys of documents alone. -/
theorem find?_newSnapshotWrites_of_not_isMetaKey {l : List QString} {snapshotName : QString}
    {k : QByteArray} (hk : ¬ IsMetaKey k) :
    (σ.db.applyLog (newSnapshotWrites E σ l snapshotName)).find? k = σ.db.find? k := by
  refine SortedMap.find?_applyLog_of_forall_ne _ fun w hw hwk => hk ?_
  rcases List.mem_append.mp hw with hw | hw
  · cases List.mem_singleton.mp hw
    exact hwk ▸ isMetaKey_snapshotsKey
  · obtain ⟨index, -, d, b, rfl, -⟩ := exists_of_mem_copyIndexValues hw
    exact hwk ▸ isMetaKey_constructIndexValueKey index.2 _ d

theorem find?_newSnapshotWrites_of_isKeyOf {l : List QString} {snapshotName : QString}
    {I k : QByteArray} (hk : IsKeyOf I k) :
    (σ.db.applyLog (newSnapshotWrites E σ l snapshotName)).find? k = σ.db.find? k :=
  find?_newSnapshotWrites_of_not_isMetaKey fun hmeta => hmeta.not_isKeyOf hk

theorem find?_newSnapshotWrites_snapshotsKey {l : List QString} {snapshotName : QString} :
    (σ.db.applyLog (newSnapshotWrites E σ l snapshotName)).find? snapshotsKey =
      some (.snapshots (l.dropLast ++ [snapshotName, currentName])) := by
  refine SortedMap.find?_applyLog_of_put _ List.mem_cons_self fun w hw hwk => ?_
  rcases List.mem_append.mp hw with hw | hw
  · rw [List.mem_singleton.mp hw]
  · obtain ⟨index, -, d, b, rfl, -⟩ := exists_of_mem_copyIndexValues hw
    exact absurd hwk (constructIndexValueKey_ne_snapshotsKey index.2 _ d)

section Names

variable (hnames : ∃ names, σ.db.find? snapshotsKey = some (.snapshots (names ++ [currentName])) ∧
  names.length = σ.snapshotId.val)
include hnames

/-- The list of snapshots, and the number of the last one. -/
theorem exists_names (E : Env) :
    ∃ names, σ.getSnapshotsValue E = .ok (names ++ [currentName]) ∧
      names.length = σ.snapshotId.val := by
  obtain ⟨names, hnames, hlen⟩ := hnames
  exact ⟨names, getSnapshotsValue_eq_ok_iff.mpr ⟨_, hnames, rfl⟩, hlen⟩

/-- **newSnapshot** of a new name writes the list of snapshots and copies index entries. -/
theorem newSnapshot_cases (snapshotName : QString) :
    (σ.newSnapshot E snapshotName).2.db = σ.db ∧
        (σ.newSnapshot E snapshotName).2.snapshotId = σ.snapshotId ∧
        (σ.newSnapshot E snapshotName).1 ≠ .success ∨
      ∃ names, σ.getSnapshotsValue E = .ok (names ++ [currentName]) ∧
        names.length = σ.snapshotId.val ∧ snapshotName ∉ names ++ [currentName] ∧
        (σ.newSnapshot E snapshotName).1 = .success ∧
        (σ.newSnapshot E snapshotName).2.db =
          σ.db.applyLog (newSnapshotWrites E σ (names ++ [currentName]) snapshotName) ∧
        (σ.newSnapshot E snapshotName).2.snapshotId = σ.snapshotId + 1 := by
  rcases newSnapshot_spec (E := E) (σ := σ) snapshotName with
    ⟨hr, hdb, hid⟩ | ⟨l, hl, hnot, hr, hdb, hid⟩
  · exact .inl ⟨hdb, hid, hr⟩
  · obtain ⟨names, hok, hlen⟩ := exists_names hnames E
    obtain rfl := Except.ok.inj (hl.symm.trans hok)
    exact .inr ⟨names, hl, hlen, hnot, hr, hdb, hid⟩

/-- **revertToSnapshot** of a listed name deletes the versions behind it. -/
theorem revertToSnapshot_cases (snapshotName : QString) :
    (σ.revertToSnapshot E snapshotName).2.db = σ.db ∧
        (σ.revertToSnapshot E snapshotName).2.snapshotId = σ.snapshotId ∨
      ∃ names i, σ.getSnapshotsValue E = .ok (names ++ [currentName]) ∧
        names.length = σ.snapshotId.val ∧ snapshotName ∈ names ++ [currentName] ∧
        i.val = (names ++ [currentName]).idxOf snapshotName ∧ i ≤ σ.snapshotId ∧
        (σ.revertToSnapshot E snapshotName).2.db =
          σ.db.applyLog (revertWrites E σ (names ++ [currentName]) i) ∧
        (σ.revertToSnapshot E snapshotName).2.snapshotId = i ∧
        (σ.revertToSnapshot E snapshotName).2.db.find? snapshotsKey =
          some (.snapshots (names.take i.val ++ [currentName])) := by
  rcases revertToSnapshot_spec (E := E) (σ := σ) snapshotName with
    ⟨-, -, hdb, hid⟩ | ⟨l, hl, hmem, -, hdb, hid⟩
  · exact .inl ⟨hdb, hid⟩
  · obtain ⟨names, hok, hlen⟩ := exists_names hnames E
    obtain rfl := Except.ok.inj (hl.symm.trans hok)
    have hcur := σ.snapshotId.isLt
    have hidx := List.idxOf_lt_length_of_mem hmem
    rw [List.length_append, List.length_singleton] at hidx
    have hval : (Fin.ofNat 256 ((names ++ [currentName]).idxOf snapshotName)).val =
        (names ++ [currentName]).idxOf snapshotName := Nat.mod_eq_of_lt (by omega)
    refine .inr ⟨names, _, hl, hlen, hmem, hval, ?_, hdb, hid, ?_⟩
    · rw [Fin.le_def, hval]
      omega
    · rw [hdb, find?_revert_snapshotsKey, hval,
        dropLast_take_succ (List.idxOf_lt_length_of_mem hmem),
        List.take_append_of_le_length (by omega)]

omit hnames in
/-- The number behind the current one, as long as the list leaves room for it. -/
theorem val_snapshotId_add_one {names : List QString} (hlen : names.length = σ.snapshotId.val)
    (hroom : (names ++ [currentName]).length ≤ 255) :
    (σ.snapshotId + 1).val = σ.snapshotId.val + 1 := by
  rw [List.length_append, List.length_singleton] at hroom
  rw [Fin.val_add]
  exact Nat.mod_eq_of_lt (show σ.snapshotId.val + 1 < 256 by omega)

omit hnames in
/-- The dropped numbers are those behind the snapshot. -/
theorem mem_droppedIds {names : List QString} {s : Byte} (hlen : names.length = s.val)
    {i t : Byte} :
    t ∈ droppedIds (names ++ [currentName]) i ↔ i < t ∧ t ≤ s := by
  have hcur := s.isLt
  have hlength : (names ++ [currentName]).length = s.val + 1 := by
    rw [List.length_append, List.length_singleton, hlen]
  rw [mem_droppedIds_of_length_le (by omega), hlength, Nat.lt_succ_iff, ← Fin.le_def]

end Names

end Collection

namespace NumberedStore

theorem getIndexes_eq_nil (h : NumberedStore F σ.snapshotId σ.db) : (σ.reader E).getIndexes = [] :=
  Collection.getIndexes_eq_nil h.noIndexes

/-- **newSnapshot** of a new name only writes the list of snapshots. -/
theorem newSnapshot_cases (h : NumberedStore F σ.snapshotId σ.db) (snapshotName : QString) :
    (σ.newSnapshot E snapshotName).2.db = σ.db ∧
        (σ.newSnapshot E snapshotName).2.snapshotId = σ.snapshotId ∧
        (σ.newSnapshot E snapshotName).1 ≠ .success ∨
      ∃ names, σ.getSnapshotsValue E = .ok (names ++ [currentName]) ∧
        names.length = σ.snapshotId.val ∧ snapshotName ∉ names ++ [currentName] ∧
        (σ.newSnapshot E snapshotName).1 = .success ∧
        (σ.newSnapshot E snapshotName).2.db =
          σ.db.insert snapshotsKey (.snapshots (names ++ [snapshotName] ++ [currentName])) ∧
        (σ.newSnapshot E snapshotName).2.snapshotId = σ.snapshotId + 1 := by
  rcases Collection.newSnapshot_cases (E := E) h.names snapshotName with
    hfail | ⟨names, hl, hlen, hnot, hr, hdb, hid⟩
  · exact .inl hfail
  · refine .inr ⟨names, hl, hlen, hnot, hr, ?_, hid⟩
    rw [hdb, Collection.newSnapshotWrites, h.getIndexes_eq_nil, List.dropLast_concat,
      List.append_assoc]
    rfl

/-- Taking a snapshot keeps the numbers, as long as they fit into a byte. -/
theorem newSnapshot (h : NumberedStore F σ.snapshotId σ.db) {snapshotName : QString}
    (hroom : ∀ l, σ.getSnapshotsValue E = .ok l → snapshotName ∈ l ∨ l.length ≤ 255) :
    NumberedStore F (σ.newSnapshot E snapshotName).2.snapshotId
        (σ.newSnapshot E snapshotName).2.db ∧
      σ.snapshotId ≤ (σ.newSnapshot E snapshotName).2.snapshotId ∧
      ∀ k, k ≠ snapshotsKey →
        (σ.newSnapshot E snapshotName).2.db.find? k = σ.db.find? k := by
  have hgood := goodStore_served (E := E)
    (show OpIds F (.newSnapshot snapshotName) from trivial) rfl h.good
  rcases h.newSnapshot_cases (E := E) snapshotName with
    ⟨hdb, hid, -⟩ | ⟨names, hl, hlen, hnot, -, hdb, hid⟩
  · rw [hdb, hid]
    exact ⟨h, le_rfl, fun _ _ => rfl⟩
  · have hsucc := Collection.val_snapshotId_add_one hlen ((hroom _ hl).resolve_left hnot)
    have hkeep : ∀ k, k ≠ snapshotsKey →
        (σ.newSnapshot E snapshotName).2.db.find? k = σ.db.find? k := fun k hk => by
      rw [hdb, SortedMap.find?_insert_of_ne _ _ hk]
    refine ⟨⟨hgood, ?_, ?_⟩, ?_, hkeep⟩
    · rw [hkeep _ (by decide), h.noIndexes]
    · refine ⟨names ++ [snapshotName], by rw [hdb, SortedMap.find?_insert_self], ?_⟩
      rw [hid, hsucc, List.length_append, List.length_singleton, hlen]
    · rw [hid, Fin.le_def, hsucc]
      exact Nat.le_succ _

end NumberedStore

namespace DocumentStore

/-! ### Operations on snapshots -/

/-- Taking a snapshot keeps what is true of documents, as long as the numbers fit into a
byte. -/
theorem newSnapshot (h : DocumentStore F σ.snapshotId σ.db) {snapshotName : QString}
    (hroom : ∀ l, σ.getSnapshotsValue E = .ok l → snapshotName ∈ l ∨ l.length ≤ 255) :
    DocumentStore F (σ.newSnapshot E snapshotName).2.snapshotId
      (σ.newSnapshot E snapshotName).2.db := by
  have hgood := goodStore_served (E := E) (show OpIds F (.newSnapshot snapshotName) from trivial)
    rfl h.good
  rcases Collection.newSnapshot_cases (E := E) h.names snapshotName with
    ⟨hdb, hid, -⟩ | ⟨names, hl, hlen, hnot, -, hdb, hid⟩
  · rwa [hdb, hid]
  · have hsucc := Collection.val_snapshotId_add_one hlen ((hroom _ hl).resolve_left hnot)
    have hlink : ∀ I t, (σ.newSnapshot E snapshotName).2.db.find? (constructDocumentLinkKey I t) =
        σ.db.find? (constructDocumentLinkKey I t) := fun I t => by
      rw [hdb, Collection.find?_newSnapshotWrites_of_isKeyOf (isKeyOf_linkKey I t)]
    refine ⟨hgood, ⟨names ++ [snapshotName], ?_, ?_⟩, fun I hI t v hv => ?_, fun I hI t o ho => ?_,
      fun I hI t o ho => ?_⟩
    · rw [hdb, Collection.find?_newSnapshotWrites_snapshotsKey, List.dropLast_concat,
        List.append_assoc]
      rfl
    · rw [hid, hsucc, List.length_append, List.length_singleton, hlen]
    · exact h.value I hI t v (hlink I t ▸ hv)
    · rw [hdb, Collection.find?_newSnapshotWrites_of_isKeyOf (isKeyOf_startKey I)]
      exact h.startKey I hI t o (hlink I t ▸ ho)
    · rw [hlink] at ho
      refine (h.version_le I hI t o ho).trans ?_
      rw [hid, Fin.le_def, hsucc]
      exact Nat.le_succ _

theorem revertToSnapshot (hF : PlainIds F) (h : DocumentStore F σ.snapshotId σ.db)
    (snapshotName : QString) :
    DocumentStore F (σ.revertToSnapshot E snapshotName).2.snapshotId
      (σ.revertToSnapshot E snapshotName).2.db := by
  have hgood := goodStore_served (E := E) (show OpIds F (.revertToSnapshot snapshotName) from trivial)
    rfl h.good
  rcases Collection.revertToSnapshot_cases (E := E) h.names snapshotName with
    ⟨hdb, hid⟩ | ⟨names, i, hl, hlen, -, -, hi, hdb, hid, hnames⟩
  · rwa [hdb, hid]
  · -- a version that is there was kept
    have hkept : ∀ I ∈ F, ∀ t v, (σ.revertToSnapshot E snapshotName).2.db.find?
        (constructDocumentLinkKey I t) = some v →
        t ∉ Collection.droppedIds (names ++ [currentName]) i ∧
          σ.db.find? (constructDocumentLinkKey I t) = some v := by
      intro I hI t v hv
      rw [hdb, Collection.find?_revert_linkKey hF.colonFree h.good.shape hI t] at hv
      split at hv
      · cases hv
      · rename_i ht
        exact ⟨ht, hv⟩
    refine ⟨hgood, ⟨names.take i.val, hnames, ?_⟩, fun I hI t v hv => ?_, fun I hI t o ho => ?_,
      fun I hI t o ho => ?_⟩
    · rw [hid, List.length_take, hlen]
      exact Nat.min_eq_left hi
    · exact h.value I hI t v (hkept I hI t v hv).2
    · obtain ⟨ht, hv⟩ := hkept I hI t _ ho
      rw [hdb, Collection.find?_revert_startKey hF.colonFree h.good.shape hI ht (by simp [hv])]
      exact h.startKey I hI t o hv
    · obtain ⟨ht, hv⟩ := hkept I hI t _ ho
      rw [Collection.mem_droppedIds hlen, not_and', not_lt] at ht
      rw [hid]
      exact ht (h.version_le I hI t o hv)

end DocumentStore

namespace SerialInv

/-! ### Operations on documents -/

/-- **One operation**: it writes a document, a tombstone, or removes a version with its
start key; every key it deletes on the map is there. -/
theorem documentWrites (hF : PlainIds F) (h : SerialInv F σ) {op : TxOp} (hop : TxIds F op)
    {ws : List (WriteOp QByteArray Blob)}
    (hws : Transaction.OpWrites E σ.db σ.snapshotId [] op ws) :
    DocumentWrites F σ.snapshotId σ.db ws ∧
      (E.backend = .map → ∀ k, WriteOp.delete k ∈ ws → σ.db.find? k ≠ none) := by
  cases op with
  | insert doc gen _ _ =>
    obtain ⟨r, id, hws⟩ := hws
    cases hws with
    | refused => exact ⟨.refused, fun _ k hk => absurd hk List.not_mem_nil⟩
    | stored hid ho _ hnone =>
      obtain ⟨sid, hsid, hlatin⟩ := ho.value_id hid
      rw [hnone rfl, List.append_nil]
      exact ⟨.stored (hop _ _ hid) hsid hlatin, fun _ k hk =>
        absurd hk (by simp [Transaction.putJsonValue])⟩
  | removeById id _ =>
    obtain ⟨r, hws⟩ := hws
    cases hws with
    | refused => exact ⟨.refused, fun _ k hk => absurd hk List.not_mem_nil⟩
    | removed hlook _ _ hnone =>
      rw [(hnone rfl).1, List.append_nil]
      exact h.documentStore.documentWrites_removeVersion hF hop hlook
  | _ => exact hop.elim

/-- **A transaction**: it goes through and makes a sequence of steps. -/
theorem transactAll (hF : PlainIds F) (h : SerialInv F σ) {ops : List TxOp}
    (hops : ∀ op ∈ ops, TxIds F op) :
    DocumentSteps F σ.snapshotId σ.db (σ.transactAll E ops).2.db ∧
      (σ.transactAll E ops).2.snapshotId = σ.snapshotId := by
  obtain ⟨wss, hwss, hc⟩ :=
    Collection.transactAll_spec (E := E) (σ := σ) fun op hop => (hops op hop).onDocuments
  rw [h.getIndexes_eq_nil] at hwss
  have hwrites : ∀ ws ∈ wss, DocumentWrites F σ.snapshotId σ.db ws ∧
      (E.backend = .map → ∀ k, WriteOp.delete k ∈ ws → σ.db.find? k ≠ none) := by
    intro ws hws
    obtain ⟨op, hop, hw⟩ := hwss ws hws
    exact h.documentWrites hF (hops op hop) hw
  refine ⟨?_, hc.snapshotId⟩
  rw [hc.db]
  refine documentSteps_commit hF.separated (fun ws hws => (hwrites ws hws).1)
    (commit_success_iff.mpr fun hB k hk => ?_)
  obtain ⟨w, hw, hwk, ho⟩ := exists_mem_of_lastWrite_eq_some hk
  have hdel : w = .delete k := WriteOp.ext_key_outcome hwk ho
  obtain ⟨ws, hws, hmem⟩ := List.mem_flatten.mp hw
  exact (hwrites ws hws).2 hB k (hdel ▸ hmem)

/-! ### Operations on snapshots -/

theorem newSnapshot (h : SerialInv F σ) {snapshotName : QString}
    (hroom : ∀ l, σ.getSnapshotsValue E = .ok l → snapshotName ∈ l ∨ l.length ≤ 255) :
    SerialInv F (σ.newSnapshot E snapshotName).2 :=
  (h.documentStore.newSnapshot hroom).serialStore (h.toNumberedStore.newSnapshot hroom).1.noIndexes

theorem revertToSnapshot (hF : PlainIds F) (h : SerialInv F σ) (snapshotName : QString) :
    SerialInv F (σ.revertToSnapshot E snapshotName).2 := by
  refine (h.documentStore.revertToSnapshot hF snapshotName).serialStore ?_
  rcases Collection.revertToSnapshot_cases (E := E) h.names snapshotName with
    ⟨hdb, -⟩ | ⟨names, i, -, -, -, -, -, hdb, -, -⟩
  · rw [hdb, h.noIndexes]
  · rw [hdb, Collection.find?_revert_indexesKey, h.noIndexes]

end SerialInv

/-! ## Runs -/

/-- The requests of a serial run: transactions with insertions and removals of ids in
`F`, a new snapshot while there are at most 254 named ones, and reverts. -/
def SerialOp (E : Env) (F : Set QByteArray) (σ : Collection) : Op → Prop
  | .transact op => TxIds F op
  | .batch ops => ∀ op ∈ ops, TxIds F op
  | .newSnapshot snapshotName =>
    ∀ l, σ.getSnapshotsValue E = .ok l → snapshotName ∈ l ∨ l.length ≤ 255
  | .revertToSnapshot _ => True
  | .removeSnapshot _ => False

theorem numberedStore_open :
    NumberedStore F (Collection.open E .empty).snapshotId (Collection.open E .empty).db := by
  obtain ⟨hdb, hid⟩ := Collection.open_empty (E := E)
  refine ⟨goodStore_open, ?_, [], ?_, by rw [hid]; rfl⟩
  · rw [hdb, SortedMap.find?_insert_of_ne _ _ (by decide), SortedMap.find?_empty]
  · rw [hdb, SortedMap.find?_insert_self, List.nil_append]

theorem serialInv_open : SerialInv F (Collection.open E .empty) := by
  obtain ⟨hdb, hid⟩ := Collection.open_empty (E := E)
  have hnone : ∀ I k, IsKeyOf I k → (Collection.open E .empty).db.find? k = none := by
    intro I k hk
    rw [hdb, SortedMap.find?_insert_of_ne _ _ hk.ne_snapshotsKey, SortedMap.find?_empty]
  refine ⟨numberedStore_open, fun I _ t v hv => ?_, fun I _ t o ho => ?_, fun I _ t o ho => ?_⟩
  · rw [hnone I _ (isKeyOf_linkKey I t)] at hv
    cases hv
  · rw [hnone I _ (isKeyOf_linkKey I t)] at ho
    cases ho
  · rw [hnone I _ (isKeyOf_linkKey I t)] at ho
    cases ho

/-- A transaction keeps the invariant. -/
theorem serialInv_transactAll (hF : PlainIds F) (h : SerialInv F σ) (ops : List TxOp)
    (hops : ∀ op ∈ ops, TxIds F op) : SerialInv F (σ.transactAll E ops).2 := by
  obtain ⟨hsteps, hid⟩ := h.transactAll (E := E) hF hops
  rw [SerialInv, hid]
  exact h.documentSteps hF.separated hsteps

/-- **Step**: a request of a serial run keeps the invariant. -/
theorem serialInv_served (hF : PlainIds F) {op : Op} {r : ResultEnum} (hop : SerialOp E F σ op)
    (happly : op.apply E σ = some (r, σ')) (h : SerialInv F σ) : SerialInv F σ' := by
  cases op with
  | transact op =>
    obtain rfl := congrArg Prod.snd (Option.some.inj happly)
    exact serialInv_transactAll hF h [op] (List.forall_mem_singleton.mpr hop)
  | batch ops =>
    obtain rfl := congrArg Prod.snd (Option.some.inj happly)
    exact serialInv_transactAll hF h ops hop
  | newSnapshot snapshotName =>
    obtain rfl := congrArg Prod.snd (Option.some.inj happly)
    exact h.newSnapshot hop
  | revertToSnapshot snapshotName =>
    obtain rfl := congrArg Prod.snd (Option.some.inj happly)
    exact h.revertToSnapshot hF snapshotName
  | removeSnapshot => exact hop.elim

/-- **Run**: the invariant holds in every state of a serial run. -/
theorem serialInv_of_reachable (hF : PlainIds F) (h : Reachable E (SerialOp E F) σ) :
    SerialInv F σ := by
  induction h with
  | opened => exact serialInv_open
  | served _ hop happly ih => exact serialInv_served hF hop happly ih

/-! ## Versions are numbered up to the current snapshot -/

/-- Nothing is stored under a version number above `s`, not even a tombstone. -/
def VersionsUpTo (F : Set QByteArray) (s : Byte) (db : Store) : Prop :=
  ∀ I ∈ F, ∀ t, s < t → db.find? (constructDocumentLinkKey I t) = none

/-- From a later number a reader sees the same as from the current one. -/
theorem VersionsUpTo.visible_of_le {s t : Byte} {db : Store} (h : VersionsUpTo F s db)
    {I : QByteArray} (hI : I ∈ F) (hst : s ≤ t) : visible db t I = visible db s I :=
  visible_eq_of_forall_none hst fun t' ht' _ => h I hI t' ht'

theorem VersionsUpTo.documentSteps {s : Byte} {db db' : Store} (hF : Separated F)
    (h : VersionsUpTo F s db) (hsteps : DocumentSteps F s db db') : VersionsUpTo F s db' := by
  intro I hI t ht
  rw [hsteps.find?_linkKey_of_ne hF hI ht.ne']
  exact h I hI t ht

/-- A transaction writes under the current number. -/
theorem VersionsUpTo.transactAll (hF : PlainIds F) (hσ : SerialInv F σ)
    (h : VersionsUpTo F σ.snapshotId σ.db) {ops : List TxOp} (hops : ∀ op ∈ ops, TxIds F op) :
    VersionsUpTo F (σ.transactAll E ops).2.snapshotId (σ.transactAll E ops).2.db := by
  obtain ⟨hsteps, hid⟩ := hσ.transactAll (E := E) hF hops
  rw [hid]
  exact h.documentSteps hF.separated hsteps

theorem versionsUpTo_served (hF : PlainIds F) {op : Op} {r : ResultEnum} (hop : SerialOp E F σ op)
    (happly : op.apply E σ = some (r, σ')) (hσ : SerialInv F σ)
    (h : VersionsUpTo F σ.snapshotId σ.db) : VersionsUpTo F σ'.snapshotId σ'.db := by
  cases op with
  | transact op =>
    obtain rfl := congrArg Prod.snd (Option.some.inj happly)
    have hops : ∀ op' ∈ [op], TxIds F op' := List.forall_mem_singleton.mpr hop
    exact h.transactAll hF hσ hops
  | batch ops =>
    obtain rfl := congrArg Prod.snd (Option.some.inj happly)
    exact h.transactAll hF hσ hop
  | newSnapshot snapshotName =>
    obtain rfl := congrArg Prod.snd (Option.some.inj happly)
    obtain ⟨-, hle, hkeep⟩ := hσ.toNumberedStore.newSnapshot (E := E) hop
    intro I hI t ht
    rw [hkeep _ (isKeyOf_linkKey I t).ne_snapshotsKey]
    exact h I hI t (hle.trans_lt ht)
  | revertToSnapshot snapshotName =>
    obtain rfl := congrArg Prod.snd (Option.some.inj happly)
    rcases Collection.revertToSnapshot_cases (E := E) hσ.names snapshotName with
      ⟨hdb, hid⟩ | ⟨names, i, -, hlen, -, -, -, hdb, hid, -⟩
    · rwa [hdb, hid]
    · -- the versions behind the snapshot are dropped, up to the current number
      intro I hI t ht
      rw [hdb, Collection.find?_revert_linkKey hF.colonFree hσ.good.shape hI]
      split
      · rfl
      · rename_i hkept
        rw [Collection.mem_droppedIds hlen] at hkept
        rw [hid] at ht
        exact h I hI t (not_le.mp fun hle => hkept ⟨ht, hle⟩)
  | removeSnapshot => exact hop.elim

theorem versionsUpTo_open : VersionsUpTo F (Collection.open E .empty).snapshotId
    (Collection.open E .empty).db := by
  intro I _ t _
  rw [Collection.open_empty.1,
    SortedMap.find?_insert_of_ne _ _ (isKeyOf_linkKey I t).ne_snapshotsKey, SortedMap.find?_empty]

theorem versionsUpTo_of_reachable (hF : PlainIds F) (h : Reachable E (SerialOp E F) σ) :
    SerialInv F σ ∧ VersionsUpTo F σ.snapshotId σ.db := by
  induction h with
  | opened => exact ⟨serialInv_open, versionsUpTo_open⟩
  | served _ hop happly ih =>
    exact ⟨serialInv_served hF hop happly ih.1, versionsUpTo_served hF hop happly ih.1 ih.2⟩

/-! ## Many snapshots -/

/-- A run to each snapshot number, without documents, where the requests allow new snapshots as
long as there is room for them. -/
theorem exists_reachable_snapshotId (E : Env) {ok : Collection → Op → Prop}
    (hok : ∀ (σ : Collection) name l, σ.getSnapshotsValue E = .ok l → l.length ≤ 255 →
      ok σ (.newSnapshot name)) {k : ℕ} (hk : k ≤ 255) :
    ∃ σ names, Reachable E ok σ ∧ σ.snapshotId.val = k ∧
      σ.getSnapshotsValue E = .ok (names ++ [currentName]) ∧ names.length = k ∧
      currentName ∉ names ∧ ∀ id key, IsKeyOf id key → σ.db.find? key = none := by
  induction k with
  | zero =>
    obtain ⟨hdb, hid⟩ := Collection.open_empty (E := E)
    refine ⟨_, [], .opened, by rw [hid]; rfl, ?_, rfl, List.not_mem_nil, fun id key hkey => ?_⟩
    · refine Collection.getSnapshotsValue_eq_ok_iff.mpr ⟨.snapshots [currentName], ?_, rfl⟩
      rw [hdb, SortedMap.find?_insert_self]
    · rw [hdb, SortedMap.find?_insert_of_ne _ _ hkey.ne_snapshotsKey, SortedMap.find?_empty]
  | succ k ih =>
    obtain ⟨σ, names, hσ, hs, hl, hlen, hcur, hempty⟩ := ih (by omega)
    have hroom : (names ++ [currentName]).length ≤ 255 := by
      rw [List.length_append, hlen, List.length_singleton]
      omega
    obtain ⟨name, hname⟩ := Infinite.exists_notMem_finset (names ++ [currentName]).toFinset
    rw [List.mem_toFinset] at hname
    obtain ⟨-, hdb, hid⟩ := Collection.newSnapshot_of_notMem (E := E) hl hname
    refine ⟨_, names ++ [name], hσ.newSnapshot (hok σ name _ hl hroom), ?_, ?_, ?_, ?_,
      fun id key hkey => ?_⟩
    · rw [hid, Collection.val_snapshotId_add_one (hlen.trans hs.symm) hroom, hs]
    · refine Collection.getSnapshotsValue_eq_ok_iff.mpr
        ⟨.snapshots (names ++ [name] ++ [currentName]), ?_, rfl⟩
      rw [hdb, Collection.find?_newSnapshotWrites_snapshotsKey, List.dropLast_concat,
        List.append_assoc]
      rfl
    · rw [List.length_append, hlen, List.length_singleton]
    · rw [List.mem_append, List.mem_singleton, not_or]
      exact ⟨hcur, fun heq => hname (by simp [heq])⟩
    · rw [hdb, Collection.find?_newSnapshotWrites_of_isKeyOf hkey, hempty id key hkey]

/-! ## A small collection -/

/-- A collection with the document `a`. -/
def insertedA (B : Backend) : Collection :=
  ((Collection.open (Env.plain B) .empty).transact (Env.plain B) (.insertField "a" "n" .null)).2

theorem txIds_insertFieldA : TxIds oneByteIds (.insertField "a" "n" .null) := by
  intro id d h
  obtain rfl : bytes "a" = id := (Prod.mk.inj (Option.some.inj h)).1
  decide

theorem reachable_insertedA {B : Backend} :
    Reachable (Env.plain B) (SerialOp (Env.plain B) oneByteIds) (insertedA B) :=
  Reachable.opened.transact txIds_insertFieldA

/-- The document `a` behind the snapshot `A`. -/
def snapshotA (B : Backend) : Collection :=
  ((insertedA B).newSnapshot (Env.plain B) (qs "A")).2

theorem reachable_snapshotA {B : Backend} :
    Reachable (Env.plain B) (SerialOp (Env.plain B) oneByteIds) (snapshotA B) := by
  refine reachable_insertedA.newSnapshot fun l hl => .inr ?_
  cases B <;> cases hl <;> decide

end Qdocdb
