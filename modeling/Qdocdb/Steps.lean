import Qdocdb.Documents
import Qdocdb.Writes

/-!
# What the requests do

One lemma for each request to a collection: which writes it commits, and what it
does to the snapshot number. `Committed` says that a state is another one after a
commit; every property of single bindings that the writes satisfy is then kept
(`Committed.preserves`), whether or not the commit went through.
-/

namespace Qdocdb

namespace Collection

variable {E : Env} {σ σ' : Collection}

/-! ## Committing -/

/-- `σ'` is `σ` after a commit of the writes `ws`; observers and error text aside. -/
structure Committed (E : Env) (ws : List (WriteOp QByteArray Blob)) (σ σ' : Collection) : Prop where
  db : σ'.db = (commit E.backend σ.db ws).2
  snapshotId : σ'.snapshotId = σ.snapshotId

theorem Committed.preserves {ws : List (WriteOp QByteArray Blob)} (h : Committed E ws σ σ')
    {P : QByteArray → Blob → Prop} (hσ : ∀ k v, σ.db.find? k = some v → P k v)
    (hws : ∀ k v, WriteOp.put k v ∈ ws → P k v) : ∀ k v, σ'.db.find? k = some v → P k v := by
  intro k v hkv
  rw [h.db] at hkv
  rcases find?_commit_eq_some hkv with hk | hk
  · exact hσ k v hk
  · exact hws k v hk

theorem Committed.find?_of_forall_ne {ws : List (WriteOp QByteArray Blob)}
    (h : Committed E ws σ σ') {k : QByteArray} (hk : ∀ w ∈ ws, w.key ≠ k) :
    σ'.db.find? k = σ.db.find? k := by
  rw [h.db, find?_commit_of_forall_ne hk]

@[simp] theorem db_emitObservers (σ : Collection) : σ.emitObservers.db = σ.db := rfl
@[simp] theorem snapshotId_emitObservers (σ : Collection) :
    σ.emitObservers.snapshotId = σ.snapshotId := rfl
@[simp] theorem db_reloadObservers (σ : Collection) : (σ.reloadObservers E).db = σ.db := rfl
@[simp] theorem snapshotId_reloadObservers (σ : Collection) :
    (σ.reloadObservers E).snapshotId = σ.snapshotId := rfl

/-- A commit of a transaction that made the calls `ws`. -/
theorem writeTransaction_spec {tx : Transaction} {ws : List (WriteOp QByteArray Blob)}
    (hk : tx.kvdb = KVTransaction.new.writes E.backend ws) :
    Committed E ws σ (σ.writeTransaction E tx).2 ∧
      ((σ.writeTransaction E tx).1 = .success ↔ (commit E.backend σ.db ws).1 = .success) := by
  have hc : tx.kvdb.writeTransaction E.backend σ.db = commit E.backend σ.db ws := by
    rw [hk, commit]
  rw [writeTransaction, hc]
  rcases hres : commit E.backend σ.db ws with ⟨- | -, db⟩
  · exact ⟨⟨by rw [hres]; rfl, rfl⟩, by simp⟩
  · exact ⟨⟨by rw [hres], rfl⟩, by simp⟩

theorem getValue_reader (k : QByteArray) :
    ((σ.reader E).getValue k).toOption = σ.db.find? k := by
  rw [reader]
  simp only
  rw [kvGetValue]
  cases σ.db.find? k <;> rfl

/-- A new transaction sees the indexes of the collection. -/
theorem getIndexes_newTransaction :
    (σ.newTransaction.reader E σ.db).getIndexes = (σ.reader E).getIndexes := by
  refine Reader.getIndexes_congr ?_
  rw [getValue_reader]
  exact KVTransaction.getValue_writes E.backend σ.db [] indexesKey

theorem getIndexes_eq_nil (h : σ.db.find? indexesKey = none) :
    (σ.reader E).getIndexes = [] := by
  have hget := getValue_reader (E := E) (σ := σ) indexesKey
  rw [h] at hget
  rw [Reader.getIndexes]
  rcases hv : (σ.reader E).getValue indexesKey with e | b
  · rfl
  · rw [hv] at hget
    cases hget

theorem getSnapshotsValue_eq_ok_iff {l : List QString} :
    σ.getSnapshotsValue E = .ok l ↔
      ∃ b, σ.db.find? snapshotsKey = some b ∧ b.unmarshalSnapshotsValue = l := by
  rw [getSnapshotsValue, kvGetValue]
  cases σ.db.find? snapshotsKey with
  | none => simp
  | some b => simp

/-- A name that is listed has its position for its number. -/
theorem getSnapshotId_of_mem {l : List QString} (hl : σ.getSnapshotsValue E = .ok l)
    {n : QString} (hn : n ∈ l) : σ.getSnapshotId E n = .ok (Fin.ofNat 256 (l.idxOf n)) := by
  rw [getSnapshotId, hl]
  exact if_pos hn

/-- The names that are listed have a number. -/
theorem exists_getSnapshotId_iff {l : List QString} (hl : σ.getSnapshotsValue E = .ok l)
    {n : QString} : (∃ i, σ.getSnapshotId E n = .ok i) ↔ n ∈ l := by
  refine ⟨fun ⟨i, hi⟩ => ?_, fun hn => ⟨_, getSnapshotId_of_mem hl hn⟩⟩
  rw [getSnapshotId, hl] at hi
  by_contra hn
  simp [hn] at hi

/-- The number of a named snapshot is its position among the names. -/
theorem getSnapshotId_eq_ok_iff {names : List QString}
    (hl : σ.getSnapshotsValue E = .ok (names ++ [currentName])) {n : QString}
    (hn : n ≠ currentName) {i : Byte} :
    σ.getSnapshotId E n = .ok i ↔ n ∈ names ∧ Fin.ofNat 256 (names.idxOf n) = i := by
  by_cases hmem : n ∈ names
  · rw [getSnapshotId_of_mem hl (List.mem_append_left _ hmem), List.idxOf_append_of_mem hmem]
    simp [hmem]
  · rw [getSnapshotId, hl]
    simp [hmem, hn]

@[simp] theorem db_noteSnapshotsError (σ : Collection) : (σ.noteSnapshotsError E).db = σ.db := by
  rw [noteSnapshotsError]
  split <;> rfl

@[simp] theorem snapshotId_noteSnapshotsError (σ : Collection) :
    (σ.noteSnapshotsError E).snapshotId = σ.snapshotId := by
  rw [noteSnapshotsError]
  split <;> rfl

theorem getSnapshotsValue_congr (h : σ'.db.find? snapshotsKey = σ.db.find? snapshotsKey) :
    σ'.getSnapshotsValue E = σ.getSnapshotsValue E := by
  rw [getSnapshotsValue, getSnapshotsValue, kvGetValue, kvGetValue, h]

/-- Opening an empty store writes the list of snapshots. -/
theorem open_empty :
    (Collection.open E .empty).db =
        SortedMap.empty.insert snapshotsKey (.snapshots [currentName]) ∧
      (Collection.open E .empty).snapshotId = 0 := by
  have hw := Transaction.wrote_writes (E := E) (newTransaction ⟨.empty, 0, ∅, "", []⟩)
    (Transaction.putSnapshotsValue [currentName])
  have hc : Committed E _ _ (Collection.open E .empty) :=
    (writeTransaction_spec (σ := ⟨.empty, 0, ∅, E.backend.notFoundError, []⟩) hw.kvdb).1
  refine ⟨hc.db.trans ?_, hc.snapshotId⟩
  rw [commit_of_disjoint fun k hk => by cases List.mem_singleton.mp hk]
  rfl

/-! ## Operations in their own transaction -/

theorem kvdb_newTransaction :
    σ.newTransaction.kvdb = KVTransaction.new.writes E.backend [] := rfl

/-- An operation that made the calls `ws`, in its own transaction. -/
theorem transact_spec (op : TxOp) {ws : List (WriteOp QByteArray Blob)}
    (hw : Transaction.Wrote E ws σ.newTransaction (op.run E σ.db σ.newTransaction).2) :
    Committed E ws σ (σ.transact E op).2 ∧
      ((commit E.backend σ.db ws).1 = .success →
        (σ.transact E op).1 = (op.run E σ.db σ.newTransaction).1) := by
  obtain ⟨hc, hs⟩ := writeTransaction_spec (E := E) (σ := σ) hw.kvdb
  refine ⟨hc, fun hok => ?_⟩
  rw [transact]
  simp only
  rw [hs.mpr hok]
  split
  · rename_i h
    exact h.symm
  · rfl

/-- A request that succeeds has carried out its operation. -/
theorem run_of_transact_success {op : TxOp} (h : (σ.transact E op).1 = .success) :
    (op.run E σ.db σ.newTransaction).1 = .success := by
  rw [transact] at h
  by_contra hne
  simp only [hne, if_false] at h

/-- A request that succeeds has committed the calls of its operation. -/
theorem commit_of_transact_success {op : TxOp} {ws : List (WriteOp QByteArray Blob)}
    (hw : Transaction.Wrote E ws σ.newTransaction (op.run E σ.db σ.newTransaction).2)
    (h : (σ.transact E op).1 = .success) : (commit E.backend σ.db ws).1 = .success := by
  apply (writeTransaction_spec (E := E) (σ := σ) hw.kvdb).2.mp
  rw [transact] at h
  simp only [run_of_transact_success h, if_true] at h
  exact h

/-- An operation leaves the snapshot number alone. -/
theorem snapshotId_transact (op : TxOp) : (σ.transact E op).2.snapshotId = σ.snapshotId := by
  change (σ.writeTransaction E (op.run E σ.db σ.newTransaction).2).2.snapshotId = σ.snapshotId
  rw [writeTransaction]
  split <;> simp

/-- An operation that makes no call changes nothing but the error text of its transaction. -/
theorem transact_of_refused {op : TxOp} {r : ResultEnum} {lastError : String}
    (h : op.run E σ.db σ.newTransaction = (r, { σ.newTransaction with lastError := lastError })) :
    (σ.transact E op).2.db = σ.db ∧ (σ.transact E op).2.snapshotId = σ.snapshotId := by
  have hw : Transaction.Wrote E [] σ.newTransaction (op.run E σ.db σ.newTransaction).2 := by
    rw [h]
    exact ⟨rfl, rfl⟩
  obtain ⟨hc, -⟩ := transact_spec op hw
  refine ⟨?_, hc.snapshotId⟩
  rw [hc.db, commit_of_disjoint fun k hk => absurd hk List.not_mem_nil]
  rfl

/-- **removeById** in its own transaction. -/
theorem transact_removeById (id : QByteArray) (ignoreReadOnlyValue : Bool) :
    ∃ r ws, Transaction.RemoveWrites E σ.snapshotId (σ.reader E).getIndexes
        (seekValue E.backend σ.db σ.snapshotId id) id r ws ∧
      (σ.newTransaction.removeById E σ.db id ignoreReadOnlyValue).1 = r ∧
      Committed E ws σ (σ.transact E (.removeById id ignoreReadOnlyValue)).2 ∧
      ((commit E.backend σ.db ws).1 = .success →
        (σ.transact E (.removeById id ignoreReadOnlyValue)).1 = r) := by
  have hsim := Transaction.Sim.of_writes σ.db (kvdb_newTransaction (E := E) (σ := σ))
  obtain ⟨-, ws, hP, hw, -⟩ := Transaction.removeById_sim hsim id ignoreReadOnlyValue rfl
  rw [getIndexes_newTransaction] at hP
  exact ⟨_, ws, hP, rfl, transact_spec (.removeById id ignoreReadOnlyValue) hw⟩

/-- **Several operations** on documents in one transaction. -/
theorem transactAll_spec {ops : List TxOp} (hops : ∀ op ∈ ops, Transaction.OnDocuments op) :
    ∃ wss : List (List (WriteOp QByteArray Blob)),
      (∀ ws ∈ wss, ∃ op ∈ ops,
        Transaction.OpWrites E σ.db σ.snapshotId (σ.reader E).getIndexes op ws) ∧
      Committed E wss.flatten σ (σ.transactAll E ops).2 := by
  obtain ⟨wss, hwss, hw⟩ := Transaction.runAll_wrote (E := E) σ.db (kvdb_newTransaction (σ := σ)) hops
  rw [getIndexes_newTransaction] at hwss
  exact ⟨wss, hwss, (writeTransaction_spec hw.kvdb).1⟩

/-- One operation in its own transaction. -/
theorem transactAll_singleton (op : TxOp) : (σ.transactAll E [op]).2 = (σ.transact E op).2 := rfl

/-- Operations on documents leave the list of snapshots alone. -/
theorem find?_snapshotsKey_transactAll {ops : List TxOp}
    (hops : ∀ op ∈ ops, Transaction.OnDocuments op) :
    (σ.transactAll E ops).2.db.find? snapshotsKey = σ.db.find? snapshotsKey := by
  obtain ⟨wss, hwss, hc⟩ := transactAll_spec (E := E) (σ := σ) hops
  refine hc.find?_of_forall_ne fun w hw => ?_
  obtain ⟨ws, hws, hw⟩ := List.mem_flatten.mp hw
  obtain ⟨op, -, hwrites⟩ := hwss ws hws
  exact hwrites.key_ne_snapshotsKey hw

/-- **createIndex** in its own transaction. -/
theorem transact_createIndex (fieldName indexName : QString) :
    ∃ ws, (∀ w ∈ ws, IndexWrite w ∨ ∃ h, w = .put indexesKey (.indexes h)) ∧
      Committed E ws σ (σ.transact E (.createIndex fieldName indexName)).2 := by
  obtain ⟨-, ws, hws, hw⟩ := Transaction.createIndex_wrote (E := E) σ.db
    kvdb_newTransaction fieldName indexName
  exact ⟨ws, hws, (transact_spec (.createIndex fieldName indexName) hw).1⟩

/-! ## newSnapshot -/

theorem mem_entries_of_mem_entriesFrom {db : Store} {p : QByteArray} {e : QByteArray × Blob}
    (h : e ∈ entriesFrom E db p) : e ∈ db.entries ∧ p <+: e.1 := by
  rw [entriesFrom] at h
  refine ⟨(kvSeek_suffix E.backend db p).subset ((List.takeWhile_prefix _).subset h), ?_⟩
  simpa using List.mem_takeWhile_imp h

/-- The copies of index entries are index entries again, with the same values. -/
theorem exists_of_mem_copyIndexValues {db : Store} {dst src : Byte}
    {indexes : List (QString × QString)} {w : WriteOp QByteArray Blob}
    (h : w ∈ copyIndexValues E db dst src indexes) :
    ∃ index ∈ indexes, ∃ d b, w = .put (constructIndexValueKey index.2 dst d) b ∧
      db.find? (constructIndexValueKey index.2 src d) = some b := by
  obtain ⟨index, hindex, hmem⟩ := List.mem_flatMap.mp h
  obtain ⟨e, he, rfl⟩ := List.mem_map.mp hmem
  obtain ⟨hedb, d, hd⟩ := mem_entries_of_mem_entriesFrom he
  refine ⟨index, hindex, d, e.2, ?_, ?_⟩
  · rw [← hd, List.drop_left, constructIndexValueKey]
  · rw [constructIndexValueKey, hd]
    exact SortedMap.find?_eq_some_iff.mpr hedb

/-- The writes of a successful `newSnapshot`. -/
def newSnapshotWrites (E : Env) (σ : Collection) (l : List QString) (snapshotName : QString) :
    List (WriteOp QByteArray Blob) :=
  Transaction.putSnapshotsValue (l.dropLast ++ [snapshotName, currentName]) ++
    copyIndexValues E σ.db (σ.snapshotId + 1) σ.snapshotId (σ.reader E).getIndexes

theorem newSnapshotWrites_no_delete (l : List QString) (snapshotName : QString) (k : QByteArray) :
    WriteOp.delete k ∉ newSnapshotWrites E σ l snapshotName := by
  intro h
  rcases List.mem_append.mp h with h | h
  · cases List.mem_singleton.mp h
  · obtain ⟨index, -, d, b, hw, -⟩ := exists_of_mem_copyIndexValues h
    cases hw

/-- **newSnapshot** of a name that is not listed commits its writes and moves to the next
snapshot number. -/
theorem newSnapshot_of_notMem {snapshotName : QString} {l : List QString}
    (hl : σ.getSnapshotsValue E = .ok l) (hnot : snapshotName ∉ l) :
    (σ.newSnapshot E snapshotName).1 = .success ∧
      (σ.newSnapshot E snapshotName).2.db =
        σ.db.applyLog (newSnapshotWrites E σ l snapshotName) ∧
      (σ.newSnapshot E snapshotName).2.snapshotId = σ.snapshotId + 1 := by
  have hid : σ.getSnapshotId E snapshotName = .error .errorInvalidObject := by
    rw [getSnapshotId, hl]
    simp [hnot]
  have hw := Transaction.wrote_writes (E := E) σ.newTransaction
    (Transaction.putSnapshotsValue (l.dropLast ++ [snapshotName, currentName]))
  have hindexes := hw.getIndexes σ.db kvdb_newTransaction (by
    intro w hmem
    rw [List.mem_singleton.mp hmem]
    exact show snapshotsKey ≠ indexesKey by decide)
  rw [getIndexes_newTransaction] at hindexes
  rw [newSnapshot, hid, hl]
  simp only
  rw [hindexes]
  have hw' := hw.trans (Transaction.wrote_writes _
    (copyIndexValues E σ.db (σ.snapshotId + 1) σ.snapshotId (σ.reader E).getIndexes))
  obtain ⟨hc, hs⟩ := writeTransaction_spec (σ := σ) hw'.kvdb
  have hcommit : commit E.backend σ.db (newSnapshotWrites E σ l snapshotName) =
      (.success, σ.db.applyLog (newSnapshotWrites E σ l snapshotName)) :=
    commit_of_disjoint fun k hk => absurd hk (newSnapshotWrites_no_delete l snapshotName k)
  have hsucc := hs.mpr (by rw [← newSnapshotWrites, hcommit])
  have hdb := hc.db
  rw [← newSnapshotWrites, hcommit] at hdb
  rcases hres : σ.writeTransaction E ((σ.newTransaction.writes E
    (Transaction.putSnapshotsValue (l.dropLast ++ [snapshotName, currentName]))).writes E
    (copyIndexValues E σ.db (σ.snapshotId + 1) σ.snapshotId (σ.reader E).getIndexes))
    with ⟨r, σ'⟩
  rw [hres] at hsucc hdb hc
  obtain rfl : r = .success := hsucc
  exact ⟨rfl, hdb, by rw [← hc.snapshotId]⟩

/-- **newSnapshot** fails and changes nothing, or commits its writes and moves to the
next snapshot number. -/
theorem newSnapshot_spec (snapshotName : QString) :
    ((σ.newSnapshot E snapshotName).1 ≠ .success ∧
        (σ.newSnapshot E snapshotName).2.db = σ.db ∧
        (σ.newSnapshot E snapshotName).2.snapshotId = σ.snapshotId) ∨
      ∃ l, σ.getSnapshotsValue E = .ok l ∧ snapshotName ∉ l ∧
        (σ.newSnapshot E snapshotName).1 = .success ∧
        (σ.newSnapshot E snapshotName).2.db =
          σ.db.applyLog (newSnapshotWrites E σ l snapshotName) ∧
        (σ.newSnapshot E snapshotName).2.snapshotId = σ.snapshotId + 1 := by
  rcases hl : σ.getSnapshotsValue E with e | l
  · refine .inl ?_
    rw [newSnapshot, getSnapshotId, hl]
    exact ⟨by simp, rfl, rfl⟩
  · by_cases hmem : snapshotName ∈ l
    · refine .inl ?_
      rw [newSnapshot, getSnapshotId, hl]
      simp [hmem]
    · exact .inr ⟨l, rfl, hmem, newSnapshot_of_notMem hl hmem⟩

/-! ## revertToSnapshot -/

theorem mem_documentEntries {db : Store} {e : QByteArray × Blob} (h : e ∈ documentEntries db) :
    e ∈ db.entries ∧ e.1.take 2 = bytes "d:" := by
  rw [documentEntries] at h
  exact ⟨(List.takeWhile_prefix _).subset h, by simpa using List.mem_takeWhile_imp h⟩

/-- Reverting only deletes keys it has seen. -/
theorem exists_of_mem_revertVersions {sIds : List Byte} {l : List (QByteArray × Blob)}
    {startKey : QByteArray} {isSingle : Bool} {w : WriteOp QByteArray Blob}
    (h : w ∈ revertVersions sIds l startKey isSingle) :
    ∃ k, w = .delete k ∧ ((k = startKey ∧ startKey ≠ []) ∨ ∃ v, (k, v) ∈ l) := by
  induction l generalizing startKey isSingle with
  | nil =>
    rw [revertVersions] at h
    split at h
    · rename_i hc
      rw [List.mem_singleton.mp h]
      exact ⟨startKey, rfl, .inl ⟨rfl, by simpa using (Bool.and_eq_true_iff.mp hc).2⟩⟩
    · cases h
  | cons e l ih =>
    obtain ⟨key, v⟩ := e
    have hrec : ∀ {sk b}, (sk = startKey ∨ sk = key) → w ∈ revertVersions sIds l sk b →
        ∃ k, w = .delete k ∧ ((k = startKey ∧ startKey ≠ []) ∨ ∃ v', (k, v') ∈ (key, v) :: l) := by
      intro sk b hsk hw
      obtain ⟨k, rfl, (⟨rfl, hne⟩ | ⟨v', hv'⟩)⟩ := ih hw
      · rcases hsk with rfl | rfl
        · exact ⟨k, rfl, .inl ⟨rfl, hne⟩⟩
        · exact ⟨k, rfl, .inr ⟨v, List.mem_cons_self⟩⟩
      · exact ⟨k, rfl, .inr ⟨v', List.mem_cons_of_mem _ hv'⟩⟩
    rw [revertVersions] at h
    split at h
    · split at h
      · rcases List.mem_cons.mp h with rfl | h
        · exact ⟨key, rfl, .inr ⟨v, List.mem_cons_self⟩⟩
        · exact hrec (.inl rfl) h
      · exact hrec (.inl rfl) h
    · rcases List.mem_append.mp h with h | h
      · split at h
        · rename_i hc
          rw [List.mem_singleton.mp h]
          exact ⟨startKey, rfl, .inl ⟨rfl, by simpa using (Bool.and_eq_true_iff.mp hc).2⟩⟩
        · cases h
      · exact hrec (.inr rfl) h

theorem exists_of_mem_revertIndexes {db : Store} {sIds : List Byte}
    {indexes : List (QString × QString)} {w : WriteOp QByteArray Blob}
    (h : w ∈ revertIndexes E db sIds indexes) :
    ∃ index ∈ indexes, ∃ s ∈ sIds, ∃ d b, w = .delete (constructIndexValueKey index.2 s d) ∧
      db.find? (constructIndexValueKey index.2 s d) = some b := by
  obtain ⟨index, hindex, hmem⟩ := List.mem_flatMap.mp h
  obtain ⟨s, hs, hmem⟩ := List.mem_flatMap.mp hmem
  obtain ⟨e, he, rfl⟩ := List.mem_map.mp hmem
  obtain ⟨hedb, d, hd⟩ := mem_entries_of_mem_entriesFrom he
  refine ⟨index, hindex, s, hs, d, e.2, ?_, ?_⟩
  · rw [← hd, constructIndexValueKey]
  · rw [constructIndexValueKey, hd]
    exact SortedMap.find?_eq_some_iff.mpr hedb

/-- The writes of a successful `revertToSnapshot`. -/
def revertWrites (E : Env) (σ : Collection) (l : List QString) (snapshotId : Byte) :
    List (WriteOp QByteArray Blob) :=
  Transaction.putSnapshotsValue ((l.take (snapshotId.val + 1)).dropLast ++ [currentName]) ++
    revertVersions (droppedIds l snapshotId) (documentEntries σ.db) [] false ++
    revertIndexes E σ.db (droppedIds l snapshotId) (σ.reader E).getIndexes

/-- A revert deletes keys of documents and of index entries that are there. -/
theorem of_delete_mem_revertWrites {l : List QString} {i : Byte} {k : QByteArray}
    (h : WriteOp.delete k ∈ revertWrites E σ l i) :
    σ.db.find? k ≠ none ∧ (k.take 2 = bytes "d:" ∨ ∃ n s d, k = constructIndexValueKey n s d) := by
  rcases List.mem_append.mp h with h | h
  · rcases List.mem_append.mp h with h | h
    · cases List.mem_singleton.mp h
    · obtain ⟨k', hk, (⟨-, hne⟩ | ⟨v, hv⟩)⟩ := exists_of_mem_revertVersions h
      · exact absurd rfl hne
      · cases hk
        obtain ⟨hmem, hd⟩ := mem_documentEntries hv
        rw [SortedMap.find?_eq_some_iff.mpr hmem]
        exact ⟨by simp, .inl hd⟩
  · obtain ⟨index, -, s, -, d, b, hw, hb⟩ := exists_of_mem_revertIndexes h
    cases hw
    rw [hb]
    exact ⟨by simp, .inr ⟨index.2, s, d, rfl⟩⟩

/-- A revert puts the list of snapshots only. -/
theorem of_put_mem_revertWrites {l : List QString} {i : Byte} {k : QByteArray} {v : Blob}
    (h : WriteOp.put k v ∈ revertWrites E σ l i) :
    k = snapshotsKey ∧ v = .snapshots ((l.take (i.val + 1)).dropLast ++ [currentName]) := by
  rcases List.mem_append.mp h with h | h
  · rcases List.mem_append.mp h with h | h
    · cases List.mem_singleton.mp h
      exact ⟨rfl, rfl⟩
    · obtain ⟨k', hk, -⟩ := exists_of_mem_revertVersions h
      cases hk
  · obtain ⟨index, -, s, -, d, b, hw, -⟩ := exists_of_mem_revertIndexes h
    cases hw

theorem commit_revertWrites (l : List QString) (i : Byte) :
    commit E.backend σ.db (revertWrites E σ l i) =
      (.success, σ.db.applyLog (revertWrites E σ l i)) := by
  refine commit_of_disjoint fun k hk => ?_
  obtain ⟨hfind, hkind⟩ := of_delete_mem_revertWrites hk
  refine ⟨hfind, fun v hv => ?_⟩
  obtain ⟨rfl, -⟩ := of_put_mem_revertWrites hv
  rcases hkind with hd | ⟨n, s, d, hk'⟩
  · exact isMetaKey_snapshotsKey.take_two_ne hd
  · exact constructIndexValueKey_ne_snapshotsKey n s d hk'.symm

/-- **revertToSnapshot** of a name that is not listed fails and changes nothing, and
otherwise it commits its writes and makes the position of the name the current snapshot
number. -/
theorem revertToSnapshot_spec (snapshotName : QString) :
    ((∀ l, σ.getSnapshotsValue E = .ok l → snapshotName ∉ l) ∧
        (σ.revertToSnapshot E snapshotName).1 ≠ .success ∧
        (σ.revertToSnapshot E snapshotName).2.db = σ.db ∧
        (σ.revertToSnapshot E snapshotName).2.snapshotId = σ.snapshotId) ∨
      ∃ l, σ.getSnapshotsValue E = .ok l ∧ snapshotName ∈ l ∧
        (σ.revertToSnapshot E snapshotName).1 = .success ∧
        (σ.revertToSnapshot E snapshotName).2.db =
          σ.db.applyLog (revertWrites E σ l (Fin.ofNat 256 (l.idxOf snapshotName))) ∧
        (σ.revertToSnapshot E snapshotName).2.snapshotId =
          Fin.ofNat 256 (l.idxOf snapshotName) := by
  rw [revertToSnapshot, getSnapshotId]
  rcases hl : σ.getSnapshotsValue E with e | l
  · exact .inl ⟨by simp, by simp, by simp, by simp⟩
  · by_cases hmem : snapshotName ∈ l
    · refine .inr ⟨l, rfl, hmem, ?_⟩
      simp only [hmem, if_true]
      generalize Fin.ofNat 256 (l.idxOf snapshotName) = i
      have hw := ((Transaction.wrote_writes (E := E) σ.newTransaction
        (Transaction.putSnapshotsValue ((l.take (i.val + 1)).dropLast ++ [currentName]))).trans
        (Transaction.wrote_writes _
          (revertVersions (droppedIds l i) (documentEntries σ.db) [] false))).trans
        (Transaction.wrote_writes _
          (revertIndexes E σ.db (droppedIds l i) (σ.reader E).getIndexes))
      obtain ⟨hc, hs⟩ := writeTransaction_spec (σ := σ) hw.kvdb
      rw [← revertWrites, commit_revertWrites] at hs
      have hdb := hc.db
      rw [← revertWrites, commit_revertWrites] at hdb
      generalize σ.writeTransaction E _ = res at hs hdb ⊢
      obtain ⟨r, σ'⟩ := res
      obtain rfl : r = .success := hs.mpr rfl
      exact ⟨rfl, hdb, rfl⟩
    · simp only [hmem, if_false]
      refine .inl ⟨?_, by simp, by simp, by simp⟩
      rintro l' hl'
      rwa [← Except.ok.inj hl']

end Collection

end Qdocdb
