import Qdocdb.Batches
import Qdocdb.Lib.Simulation
import Qdocdb.RemoveSnapshot
import Qdocdb.SnapshotNumbers

/-!
# Restarts

A collection on disk outlives its process. Opening it again reads the snapshot number off the
list under `s:`, and everything else that a request reads is in the store; the observers and
the error text are gone, but no request depends on them. A request ends with its only commit,
which is one batch: a process that ends meanwhile leaves the store as it was or as the request
leaves it. So the end of a process, however often it happens, is not noticed by any request
behind it (`restarts_unnoticed`).
-/

namespace Qdocdb

namespace Transaction

/-! ## Observers do not matter -/

section Alike

variable {E : Env} {db : Store} {tx₁ tx₂ : Transaction}

theorem indexDocuments_alike (h : Sim E db db tx₁ tx₂) (fieldName indexName : QString)
    (docs : List (QJsonValue × QByteArray)) (r : ResultEnum) :
    RunsAlike E tx₁ tx₂ (r, indexDocuments E db fieldName indexName docs tx₁)
      (r, indexDocuments E db fieldName indexName docs tx₂) := by
  induction docs generalizing tx₁ tx₂ with
  | nil => exact .refl r
  | cons e docs ih =>
    obtain ⟨value, id⟩ := e
    rw [indexDocuments, indexDocuments]
    by_cases hv : value.isObject = true
    · rw [if_pos hv, if_pos hv]
      obtain ⟨ws, -, hw₁, hw₂⟩ :=
        addIndexValue_sim h indexName (getJsonValueByPath value fieldName) id
      have hfirst : RunsAlike E tx₁ tx₂
          (r, tx₁.addIndexValue E db indexName (getJsonValueByPath value fieldName) id)
          (r, tx₂.addIndexValue E db indexName (getJsonValueByPath value fieldName) id) :=
        ⟨rfl, ws, hw₁, hw₂⟩
      exact hfirst.trans (ih (hfirst.sim h))
    · rw [if_neg hv, if_neg hv]
      exact ih h

theorem createIndex_alike (h : Sim E db db tx₁ tx₂) (fieldName indexName : QString) :
    RunsAlike E tx₁ tx₂ (tx₁.createIndex E db fieldName indexName)
      (tx₂.createIndex E db fieldName indexName) := by
  have hs : ∀ ws, (tx₁.writes E ws).snapshotId = (tx₂.writes E ws).snapshotId := fun _ =>
    h.snapshotId
  rw [createIndex, createIndex, h.getIndexes, h.snapshotId]
  split
  · exact .refl .success
  · dsimp only
    rw [hs]
    let start := [WriteOp.put (constructIndexValueKey indexName tx₂.snapshotId []) Blob.empty]
    have hfirst : RunsAlike E tx₁ tx₂ (.success, tx₁.writes E start)
        (.success, tx₂.writes E start) := ⟨rfl, _, wrote_writes _ _, wrote_writes _ _⟩
    have hloop := indexDocuments_alike (hfirst.sim h) fieldName indexName
      (enumerate E.backend db tx₂.snapshotId) .success
    exact (hfirst.trans hloop).trans ⟨rfl, _, wrote_writes _ _, wrote_writes _ _⟩

/-- **An operation** comes to the same in two transactions that differ in their observers and
error texts. -/
theorem run_sameCalls (h : Sim E db db tx₁ tx₂) (op : TxOp) :
    RunsAlike E tx₁ tx₂ (op.run E db tx₁) (op.run E db tx₂) := by
  have hfind : ∀ query, find E (tx₁.reader E db) query [] = find E (tx₂.reader E db) query [] :=
    fun query => find_congr h.getValue rfl h.snapshotId query []
  cases op with
  | insert doc gen overwrite ignoreReadOnlyValue => exact Qdocdb.insert_alike h rfl
  | removeById id ignoreReadOnlyValue => exact Qdocdb.removeById_alike h rfl
  | remove query =>
    refine remove_alike h (congrArg Prod.fst (hfind query)) fun _ => ⟨?_, fun _ _ => rfl⟩
    rw [hfind]
  | set query docs =>
    exact set_alike h (congrArg Prod.snd (hfind query)) rfl rfl rfl fun _ _ _ => rfl
  | createIndex fieldName indexName => exact createIndex_alike h fieldName indexName

theorem runAll_sameCalls (h : Sim E db db tx₁ tx₂) (ops : List TxOp) :
    RunsAlike E tx₁ tx₂ (.success, TxOp.runAll E db ops tx₁)
      (.success, TxOp.runAll E db ops tx₂) := by
  induction ops generalizing tx₁ tx₂ with
  | nil => exact .refl .success
  | cons op ops ih =>
    have hop := run_sameCalls h op
    have hfirst : RunsAlike E tx₁ tx₂ (.success, (op.run E db tx₁).2)
        (.success, (op.run E db tx₂).2) := ⟨rfl, hop.2⟩
    exact hfirst.trans (ih (hop.sim h))

end Alike

/-! ## The list of snapshots is not theirs -/

section Keys

variable {E : Env} {tx : Transaction}

/-- Calls that leave the key `k` alone. -/
def WroteElsewhere (E : Env) (k : QByteArray) (tx tx' : Transaction) : Prop :=
  ∃ ws, (∀ w ∈ ws, w.key ≠ k) ∧ Wrote E ws tx tx'

theorem WroteElsewhere.refl (k : QByteArray) (tx : Transaction) : WroteElsewhere E k tx tx :=
  ⟨[], List.forall_mem_nil _, wrote_nil rfl rfl⟩

theorem WroteElsewhere.trans {k : QByteArray} {tx' tx'' : Transaction}
    (h : WroteElsewhere E k tx tx') (h' : WroteElsewhere E k tx' tx'') :
    WroteElsewhere E k tx tx'' := by
  obtain ⟨ws, hws, hw⟩ := h
  obtain ⟨ws', hws', hw'⟩ := h'
  exact ⟨ws ++ ws', List.forall_mem_append.mpr ⟨hws, hws'⟩, hw.trans hw'⟩

/-- A transaction that has made calls. -/
def HasWritten (E : Env) (tx : Transaction) : Prop :=
  ∃ ws, tx.kvdb = KVTransaction.new.writes E.backend ws

theorem WroteElsewhere.hasWritten {k : QByteArray} {tx' : Transaction}
    (h : WroteElsewhere E k tx tx') (hk : HasWritten E tx) : HasWritten E tx' := by
  obtain ⟨ws, -, hw⟩ := h
  obtain ⟨ws₀, hk⟩ := hk
  exact ⟨_, hw.kvdb_eq hk⟩

/-- An insertion or a removal by id leaves the list of snapshots alone. -/
theorem onDocuments_wroteElsewhere (db : Store) (hk : HasWritten E tx) {op : TxOp}
    (hop : OnDocuments op) : WroteElsewhere E snapshotsKey tx (op.run E db tx).2 := by
  obtain ⟨ws₀, hk⟩ := hk
  obtain ⟨ws, hws, hw⟩ := run_wrote db hk hop
  exact ⟨ws, fun w hmem => hws.key_ne_snapshotsKey hmem, hw⟩

theorem removeByIds_wroteElsewhere (db : Store) (hk : HasWritten E tx) (ids : List QByteArray) :
    WroteElsewhere E snapshotsKey tx (removeByIds E db ids tx).2 := by
  induction ids generalizing tx with
  | nil => exact .refl _ _
  | cons id ids ih =>
    have hfirst := onDocuments_wroteElsewhere db hk
      (show OnDocuments (.removeById id false) from trivial)
    rw [TxOp.run] at hfirst
    rw [removeByIds]
    split
    · rename_i tx' heq
      rw [heq] at hfirst
      exact hfirst.trans (ih (hfirst.hasWritten hk))
    · rename_i r tx' _ heq
      rw [heq] at hfirst
      exact hfirst

theorem setDocuments_wroteElsewhere (db : Store) (hk : HasWritten E tx) (query : QJsonObject)
    (reply : List QJsonValue) (docs : List (QJsonValue × IdGen)) (ids : List QByteArray) :
    WroteElsewhere E snapshotsKey tx (setDocuments E db query reply docs ids tx).2.2 := by
  induction docs generalizing tx ids with
  | nil => exact .refl _ _
  | cons d docs ih =>
    obtain ⟨v, gen⟩ := d
    cases v with
    | object doc =>
      rw [setDocuments]
      split
      · exact ih hk _
      · split
        · exact .refl _ _
        · exact ih hk _
        · have hfirst := onDocuments_wroteElsewhere db hk
            (show OnDocuments (.insert doc gen true false) from trivial)
          rw [TxOp.run] at hfirst
          split
          · rename_i id tx' heq
            rw [heq] at hfirst
            exact hfirst.trans (ih (hfirst.hasWritten hk) _)
          · rename_i r id tx' _ heq
            rw [heq] at hfirst
            exact hfirst
    | _ => exact ih hk _

/-- **An operation** leaves the list of snapshots alone. -/
theorem run_wroteElsewhere (db : Store) (hk : HasWritten E tx) (op : TxOp) :
    WroteElsewhere E snapshotsKey tx (op.run E db tx).2 := by
  cases op with
  | insert => exact onDocuments_wroteElsewhere db hk trivial
  | removeById => exact onDocuments_wroteElsewhere db hk trivial
  | remove query =>
    rw [TxOp.run, Transaction.remove]
    split
    · exact removeByIds_wroteElsewhere db hk _
    · exact .refl _ _
  | set query docs =>
    rw [TxOp.run, Transaction.set]
    have hloop := setDocuments_wroteElsewhere db hk query
      ((find E (tx.reader E db) query []).2.map Prod.fst) docs
      ((find E (tx.reader E db) query []).2.map Prod.snd)
    split
    · rename_i ids tx' heq
      rw [heq] at hloop
      exact hloop.trans (removeByIds_wroteElsewhere db (hloop.hasWritten hk) ids)
    · rename_i r ids tx' _ heq
      rw [heq] at hloop
      exact hloop
  | createIndex fieldName indexName =>
    obtain ⟨ws₀, hk⟩ := hk
    obtain ⟨-, ws, hws, hw⟩ := createIndex_wrote db hk fieldName indexName
    refine ⟨ws, fun w hmem => ?_, hw⟩
    rcases hws w hmem with ⟨⟨n, s, d, hkey⟩, -⟩ | ⟨t, rfl⟩
    · exact hkey ▸ constructIndexValueKey_ne_snapshotsKey n s d
    · exact show indexesKey ≠ snapshotsKey by decide

theorem runAll_wroteElsewhere (db : Store) (hk : HasWritten E tx) (ops : List TxOp) :
    WroteElsewhere E snapshotsKey tx (TxOp.runAll E db ops tx) := by
  induction ops generalizing tx with
  | nil => exact .refl _ _
  | cons op ops ih =>
    have hop := run_wroteElsewhere db hk op
    exact hop.trans (ih (hop.hasWritten hk))

end Keys

end Transaction

/-! ## Requests do not depend on what is lost -/

namespace Collection

variable {E : Env} {σ τ σ' : Collection}

/-- The same content and the same snapshot number. -/
structure SameStore (σ τ : Collection) : Prop where
  db : σ.db = τ.db
  snapshotId : σ.snapshotId = τ.snapshotId

/-- The results of a request that does not tell the collections apart. -/
def SameResult (p q : ResultEnum × Collection) : Prop := p.1 = q.1 ∧ SameStore p.2 q.2

theorem SameStore.reader (h : SameStore σ τ) : σ.reader E = τ.reader E := by
  rw [Collection.reader, Collection.reader, h.db, h.snapshotId]

theorem SameStore.getSnapshotsValue (h : SameStore σ τ) :
    σ.getSnapshotsValue E = τ.getSnapshotsValue E := by
  rw [Collection.getSnapshotsValue, Collection.getSnapshotsValue, h.db]

theorem SameStore.getSnapshotId (h : SameStore σ τ) (n : QString) :
    σ.getSnapshotId E n = τ.getSnapshotId E n := by
  rw [Collection.getSnapshotId, Collection.getSnapshotId, h.getSnapshotsValue]

/-- What `newTransaction` copies besides the observers. -/
theorem SameStore.sim (h : SameStore σ τ) :
    Transaction.Sim E σ.db σ.db σ.newTransaction τ.newTransaction :=
  ⟨⟨[], [], rfl, rfl, rfl⟩, h.snapshotId⟩

/-- A commit of the same calls. -/
theorem SameStore.writeTransaction (h : SameStore σ τ) {tx₁ tx₂ : Transaction}
    (hk : tx₁.kvdb = tx₂.kvdb) :
    SameResult (σ.writeTransaction E tx₁) (τ.writeTransaction E tx₂) := by
  rw [Collection.writeTransaction, Collection.writeTransaction, hk, h.db]
  split
  · exact ⟨rfl, rfl, h.snapshotId⟩
  · exact ⟨rfl, rfl, h.snapshotId⟩

/-- A commit of two transactions that came to the same. -/
theorem SameStore.commit_alike (h : SameStore σ τ) {p q : ResultEnum × Transaction}
    (halike : RunsAlike E σ.newTransaction τ.newTransaction p q) :
    SameResult (σ.writeTransaction E p.2) (τ.writeTransaction E q.2) := by
  obtain ⟨-, ws, hw₁, hw₂⟩ := halike
  exact h.writeTransaction (hw₁.kvdb.trans hw₂.kvdb.symm)

theorem SameStore.transact (h : SameStore σ τ) (op : TxOp) :
    SameResult (σ.transact E op) (τ.transact E op) := by
  have halike := Transaction.run_sameCalls (h.sim (E := E)) op
  have hcommit := h.commit_alike halike
  rw [Collection.transact, Collection.transact, ← h.db]
  refine ⟨?_, hcommit.2⟩
  dsimp only
  rw [halike.1, hcommit.1]

theorem SameStore.transactAll (h : SameStore σ τ) (ops : List TxOp) :
    SameResult (σ.transactAll E ops) (τ.transactAll E ops) := by
  have halike := Transaction.runAll_sameCalls (h.sim (E := E)) ops
  rw [Collection.transactAll, Collection.transactAll, ← h.db]
  exact h.commit_alike halike

theorem SameStore.noteSnapshotsError (h : SameStore σ τ) :
    SameStore (σ.noteSnapshotsError E) (τ.noteSnapshotsError E) := by
  constructor
  · rw [db_noteSnapshotsError, db_noteSnapshotsError, h.db]
  · rw [snapshotId_noteSnapshotsError, snapshotId_noteSnapshotsError, h.snapshotId]

theorem SameStore.reloadObservers (h : SameStore σ τ) :
    SameStore (σ.reloadObservers E) (τ.reloadObservers E) :=
  ⟨h.db, h.snapshotId⟩

/-- The end of a snapshot operation: a commit, and a change of the number when it goes through. -/
theorem SameStore.commitThen (h : SameStore σ τ) {tx₁ tx₂ : Transaction}
    (hk : tx₁.kvdb = tx₂.kvdb) (f g : Collection → Collection)
    (hfg : ∀ σ τ, SameStore σ τ → SameStore (f σ) (g τ)) :
    SameResult
      (match σ.writeTransaction E tx₁ with
        | (.success, σ') => (.success, f σ')
        | (r, σ') => (r, σ'))
      (match τ.writeTransaction E tx₂ with
        | (.success, σ') => (.success, g σ')
        | (r, σ') => (r, σ')) := by
  have hcommit := h.writeTransaction (E := E) hk
  generalize σ.writeTransaction E tx₁ = p at hcommit ⊢
  generalize τ.writeTransaction E tx₂ = q at hcommit ⊢
  obtain ⟨r, σ'⟩ := p
  obtain ⟨r', τ'⟩ := q
  obtain rfl : r = r' := hcommit.1
  cases r with
  | success => exact ⟨rfl, hfg _ _ hcommit.2⟩
  | _ => exact hcommit

theorem SameStore.newSnapshot (h : SameStore σ τ) (n : QString) :
    SameResult (σ.newSnapshot E n) (τ.newSnapshot E n) := by
  rw [Collection.newSnapshot, Collection.newSnapshot, h.getSnapshotId, h.getSnapshotsValue]
  split
  · exact ⟨rfl, h.db, h.snapshotId⟩
  · split
    · exact ⟨rfl, h.db, h.snapshotId⟩
    · have hreader : ∀ ws, (σ.newTransaction.writes E ws).reader E σ.db =
          (τ.newTransaction.writes E ws).reader E τ.db := fun ws => by
        rw [Transaction.reader, Transaction.reader, h.db]
        exact congrArg _ h.snapshotId
      dsimp only
      rw [hreader, h.db, h.snapshotId]
      let moved : Collection → Collection := fun σ => { σ with snapshotId := σ.snapshotId + 1 }
      refine h.commitThen ?_ moved moved fun σ τ h => ⟨h.db, ?_⟩
      · rfl
      · exact congrArg (· + 1) h.snapshotId

theorem SameStore.revertToSnapshot (h : SameStore σ τ) (n : QString) :
    SameResult (σ.revertToSnapshot E n) (τ.revertToSnapshot E n) := by
  rw [Collection.revertToSnapshot, Collection.revertToSnapshot, h.getSnapshotId,
    h.getSnapshotsValue]
  split
  · exact ⟨rfl, h.noteSnapshotsError⟩
  · rename_i snapshotId _
    split
    · exact ⟨rfl, h.db, h.snapshotId⟩
    · dsimp only
      rw [h.reader, h.db]
      let reverted : Collection → Collection := fun σ =>
        { σ with snapshotId := snapshotId }.reloadObservers E
      refine h.commitThen ?_ reverted reverted fun σ τ h =>
        SameStore.reloadObservers ⟨h.db, rfl⟩
      rfl

theorem SameStore.removeSnapshot (h : SameStore σ τ) (n : QString) :
    Option.Rel SameResult (σ.removeSnapshot E n) (τ.removeSnapshot E n) := by
  rw [Collection.removeSnapshot, Collection.removeSnapshot, h.getSnapshotId, h.getSnapshotsValue]
  split
  · exact .some ⟨rfl, h.noteSnapshotsError⟩
  · split
    · exact .some ⟨rfl, h.db, h.snapshotId⟩
    · rename_i snapshotId _ snapshots _
      dsimp only
      rw [h.reader, h.db]
      let removed : Collection → Collection := fun σ =>
        { σ with snapshotId := σ.snapshotId - 1 }.reloadObservers E
      generalize (if (τ.reader E).getIndexes = [] then some [] else _) = sIds
      cases sIds with
      | none => exact .none
      | some sIds =>
        refine .some (h.commitThen ?_ removed removed fun σ τ h =>
          SameStore.reloadObservers ⟨h.db, ?_⟩)
        · rfl
        · exact congrArg (· - 1) h.snapshotId

/-- **A request** does not depend on the observers, the error text and the signals. -/
theorem SameStore.apply (h : SameStore σ τ) (op : Op) :
    Option.Rel SameResult (op.apply E σ) (op.apply E τ) := by
  cases op with
  | transact op => exact .some (h.transact op)
  | batch ops => exact .some (h.transactAll ops)
  | newSnapshot n => exact .some (h.newSnapshot n)
  | revertToSnapshot n => exact .some (h.revertToSnapshot n)
  | removeSnapshot n => exact h.removeSnapshot n

/-! ## The number stays listed -/

/-- A key of documents: `d` with something behind it. -/
def BehindD (k : QByteArray) : Prop := ∃ c r, k = 100 :: c :: r

theorem behindD_of_mem_documentEntries {db : Store} {e : QByteArray × Blob}
    (he : e ∈ documentEntries db) : BehindD e.1 := by
  have htake : e.1.take 2 = bytes "d:" := by simpa using List.mem_takeWhile_imp he
  obtain ⟨r, hr⟩ := take_two_eq_iff.mp htake
  exact ⟨58, r, hr.symm⟩

theorem BehindD.ne_snapshotsKey {k : QByteArray} (h : BehindD k) : k ≠ snapshotsKey := by
  obtain ⟨c, r, rfl⟩ := h
  exact fun heq => absurd (List.cons.inj heq).1 (by decide)

/-- The key of the version below. -/
theorem BehindD.renumbered {k : QByteArray} (h : BehindD k) (s : Byte) :
    BehindD (k.dropLast ++ [s]) := by
  obtain ⟨c, r, rfl⟩ := h
  cases r with
  | nil => exact ⟨s, [], rfl⟩
  | cons c' r => exact ⟨c, (c' :: r).dropLast ++ [s], rfl⟩

/-- The deletions behind the last version of an id. -/
theorem behindD_of_mem_deleteKeys {lastKey startKey : QByteArray} {removeStartKey : Bool}
    (hlast : lastKey = [] ∨ BehindD lastKey) (hstart : startKey = [] ∨ BehindD startKey)
    {w : WriteOp QByteArray Blob}
    (hw : w ∈ deleteKey lastKey ++ if removeStartKey then deleteKey startKey else []) :
    BehindD w.key := by
  rcases List.mem_append.mp hw with hw | hw
  · obtain ⟨rfl, hne⟩ := mem_deleteKey.mp hw
    exact hlast.resolve_left hne
  · obtain ⟨-, rfl, hne⟩ := mem_ite_deleteKey.mp hw
    exact hstart.resolve_left hne

/-- The loop over the versions writes keys of documents. By induction on the entries. -/
theorem behindD_of_mem_shiftVersions {i : Byte} {l : List (QByteArray × Blob)}
    (hl : ∀ e ∈ l, BehindD e.1) {lastKey startKey : QByteArray} {removeStartKey : Bool}
    (hlast : lastKey = [] ∨ BehindD lastKey) (hstart : startKey = [] ∨ BehindD startKey)
    {w : WriteOp QByteArray Blob} (hw : w ∈ shiftVersions i l lastKey startKey removeStartKey) :
    BehindD w.key := by
  induction l generalizing lastKey startKey removeStartKey with
  | nil => exact behindD_of_mem_deleteKeys hlast hstart hw
  | cons e l ih =>
    obtain ⟨key, valueData⟩ := e
    obtain ⟨hkey, hl⟩ := List.forall_mem_cons.mp hl
    rw [shiftVersions] at hw
    by_cases hversion : isVersionKey key = true
    · rw [if_pos hversion] at hw
      dsimp only at hw
      split at hw
      · split at hw
        · rcases List.mem_cons.mp hw with rfl | hw
          · exact hkey.renumbered _
          · exact ih hl (.inr hkey) hstart hw
        · rcases List.mem_cons.mp hw with rfl | hw
          · exact hkey.renumbered _
          · exact ih hl (.inr hkey) hstart hw
      · exact ih hl hlast hstart hw
    · rw [if_neg hversion] at hw
      rcases List.mem_append.mp hw with hw | hw
      · exact behindD_of_mem_deleteKeys hlast hstart hw
      · exact ih hl (.inl rfl) (.inr hkey) hw

theorem replaceAll_of_prefix (after : QByteArray) {before key : QByteArray} (hne : before ≠ [])
    (hp : before <+: key) :
    ∃ rest, replaceAll before after key.length key = after ++ rest := by
  cases key with
  | nil => exact absurd (List.prefix_nil.mp hp) hne
  | cons c key => exact ⟨_, by rw [List.length_cons, replaceAll, if_pos ⟨hne, hp⟩]⟩

/-- The loop over an index writes keys of entries. -/
theorem key_ne_snapshotsKey_of_mem_shiftIndex {db : Store} {i : Byte} {n : QString}
    {sIds : List Byte} {w : WriteOp QByteArray Blob} (hw : w ∈ shiftIndex E db i n sIds) :
    w.key ≠ snapshotsKey := by
  obtain ⟨s, -, hw⟩ := List.mem_flatMap.mp hw
  rcases List.mem_append.mp hw with hw | hw
  · obtain ⟨e, he, rfl⟩ := List.mem_map.mp hw
    obtain ⟨-, d, hd⟩ := mem_entries_of_mem_entriesFrom he
    exact hd ▸ constructIndexValueKey_ne_snapshotsKey n s d
  · obtain ⟨e, he, rfl⟩ := List.mem_map.mp hw
    obtain ⟨-, d, hd⟩ := mem_entries_of_mem_entriesFrom he
    have hne : constructIndexValueStartKey n (s + 1) ≠ [] := by simp [constructIndexValueStartKey]
    obtain ⟨rest, hrest⟩ := replaceAll_of_prefix (constructIndexValueStartKey n s) hne ⟨d, hd⟩
    change replaceAll _ _ _ _ ≠ _
    rw [hrest]
    exact constructIndexValueKey_ne_snapshotsKey n s rest

/-- **removeSnapshot** of a named snapshot of a LevelDB collection, when it returns: the name
leaves the list and the current number goes down by one. -/
theorem removeSnapshot_levelDB (hE : E.backend = .levelDB) {n : QString} {l : List QString}
    (hl : σ.getSnapshotsValue E = .ok l) (hmem : n ∈ l) {r : ResultEnum}
    (hr : σ.removeSnapshot E n = some (r, σ')) :
    σ'.db.find? snapshotsKey =
        some (.snapshots (l.eraseIdx (Fin.ofNat 256 (l.idxOf n) : Byte).val)) ∧
      σ'.snapshotId = σ.snapshotId - 1 := by
  rw [removeSnapshot, getSnapshotId_of_mem hl hmem, hl] at hr
  generalize Fin.ofNat 256 (l.idxOf n) = i at hr ⊢
  obtain ⟨sIds, -, hr⟩ := Option.map_eq_some_iff.mp hr
  let shifts := shiftVersions i (documentEntries σ.db) [] [] false
  let indexShifts := (σ.reader E).getIndexes.flatMap fun index => shiftIndex E σ.db i index.2 sIds
  have hw := ((Transaction.wrote_writes (E := E) σ.newTransaction shifts).trans
    (Transaction.wrote_writes _ indexShifts)).trans
      (Transaction.wrote_writes _ (Transaction.putSnapshotsValue (l.eraseIdx i.val)))
  obtain ⟨hc, hsuccess⟩ := writeTransaction_spec (σ := σ) hw.kvdb
  have hcommit : (σ.writeTransaction E _).1 = .success := hsuccess.mpr (by rw [hE, commit_levelDB])
  have hdb := hc.db
  rw [hE, commit_levelDB] at hdb
  have hid := hc.snapshotId
  dsimp only at hr
  generalize σ.writeTransaction E _ = p at hr hcommit hdb hid
  obtain ⟨r', τ⟩ := p
  obtain rfl : r' = .success := hcommit
  obtain ⟨-, rfl⟩ := Prod.mk.inj hr
  rw [db_reloadObservers, snapshotId_reloadObservers]
  refine ⟨?_, congrArg (· - 1) hid⟩
  refine (congrArg (fun db : Store => db.find? snapshotsKey) hdb).trans ?_
  refine SortedMap.find?_applyLog_of_put _ (List.mem_append_right _ (List.mem_singleton_self _))
    fun w hmem hk => ?_
  rcases List.mem_append.mp hmem with hmem | hmem
  · rcases List.mem_append.mp hmem with hmem | hmem
    · have hbehind := behindD_of_mem_shiftVersions (fun e => behindD_of_mem_documentEntries)
        (.inl rfl) (.inl rfl) hmem
      exact absurd hk hbehind.ne_snapshotsKey
    · obtain ⟨index, -, hmem⟩ := List.mem_flatMap.mp hmem
      exact absurd hk (key_ne_snapshotsKey_of_mem_shiftIndex hmem)
  · exact List.mem_singleton.mp hmem

/-- What an operation leaves of the list. -/
theorem listed_commit (h : NumbersListed σ) {tx : Transaction}
    (hw : Transaction.WroteElsewhere E snapshotsKey σ.newTransaction tx) :
    NumbersListed (σ.writeTransaction E tx).2 := by
  obtain ⟨ws, hws, hw⟩ := hw
  have hnew : σ.newTransaction.kvdb = KVTransaction.new.writes E.backend [] := rfl
  obtain ⟨hc, -⟩ := writeTransaction_spec (σ := σ) (hw.kvdb_eq hnew)
  exact h.congr (hc.find?_of_forall_ne hws) hc.snapshotId

end Collection

/-! ## The law -/

section Law

variable {E : Env} {σ σ' : Collection}

theorem byte_succ_sub_one (s : Byte) : s + 1 - 1 = s := by
  ext
  simp only [Fin.val_add, Fin.sub_def]
  omega

theorem NumbersListed.removeSnapshot (hE : E.backend = .levelDB) (h : NumbersListed σ)
    {n : QString} (hn : n ≠ currentName) {r : ResultEnum}
    (hr : σ.removeSnapshot E n = some (r, σ')) : NumbersListed σ' := by
  obtain ⟨names, hl, hs⟩ := h.exists_names E
  by_cases hmem : n ∈ names ++ [currentName]
  · obtain ⟨hlist, hid⟩ := Collection.removeSnapshot_levelDB hE hl hmem hr
    have hnames : n ∈ names := by simpa [hn] using hmem
    rw [List.idxOf_append_of_mem hnames] at hlist
    -- the position cut to a byte is still one of the names
    have hlt : (Fin.ofNat 256 (names.idxOf n) : Byte).val < names.length :=
      (Nat.mod_le _ _).trans_lt (List.idxOf_lt_length_of_mem hnames)
    rw [List.eraseIdx_append_of_lt_length hlt] at hlist
    refine ⟨_, hlist, ?_⟩
    have hlen : names.length =
        (names.eraseIdx (Fin.ofNat 256 (names.idxOf n) : Byte).val).length + 1 := by
      rw [List.length_eraseIdx_of_lt hlt]
      omega
    rw [hid, hs, hlen, ofNat_succ, byte_succ_sub_one]
  · rw [Collection.removeSnapshot_of_notMem hl hmem] at hr
    obtain ⟨-, rfl⟩ := Prod.mk.inj (Option.some.inj hr)
    exact h.congr (by rw [Collection.db_noteSnapshotsError])
      (Collection.snapshotId_noteSnapshotsError _)

/-- The requests that clients make: the current state is not a snapshot to remove. -/
def KeepsCurrent : Op → Prop
  | .removeSnapshot n => n ≠ currentName
  | _ => True

/-- **Every request** to a LevelDB collection keeps the number listed. -/
theorem NumbersListed.apply (hE : E.backend = .levelDB) (h : NumbersListed σ) {op : Op}
    (hop : KeepsCurrent op) {r : ResultEnum} (happly : op.apply E σ = some (r, σ')) :
    NumbersListed σ' := by
  have hnew : Transaction.HasWritten E σ.newTransaction := ⟨[], rfl⟩
  cases op with
  | transact op =>
    obtain rfl := congrArg Prod.snd (Option.some.inj happly)
    exact Collection.listed_commit h (Transaction.run_wroteElsewhere σ.db hnew op)
  | batch ops =>
    obtain rfl := congrArg Prod.snd (Option.some.inj happly)
    exact Collection.listed_commit h (Transaction.runAll_wroteElsewhere σ.db hnew ops)
  | newSnapshot n =>
    obtain rfl := congrArg Prod.snd (Option.some.inj happly)
    exact h.newSnapshot n
  | revertToSnapshot n =>
    obtain rfl := congrArg Prod.snd (Option.some.inj happly)
    exact h.revertToSnapshot n
  | removeSnapshot n => exact h.removeSnapshot hE hop happly

/-- What happens to a collection on disk. -/
inductive Life where
  /-- a request is served -/
  | request (op : Op)
  /-- the process ends behind the commit of a request and does not answer -/
  | cutOff (op : Op)
  /-- the process ends between two requests, or in front of a commit -/
  | restart

/-- Serve a request, which is answered or not. -/
def serve (E : Env) (σ : Collection) (request : Op × Bool) :
    Option (List ResultEnum × Collection) :=
  (request.1.apply E σ).map fun p => (if request.2 then [p.1] else [], p.2)

namespace Life

/-- Behind the end of a process the store is opened again, and nothing else is left. -/
def step (E : Env) (σ : Collection) : Life → Option (List ResultEnum × Collection)
  | request op => serve E σ (op, true)
  | cutOff op => (serve E σ (op, false)).map fun p => (p.1, Collection.open E p.2.db)
  | restart => some ([], Collection.open E σ.db)

/-- The request that is served. -/
def served? : Life → Option (Op × Bool)
  | request op => some (op, true)
  | cutOff op => some (op, false)
  | restart => none

end Life

/-- The same content and number, which is the one that opening reads. -/
def SameLife (σ τ : Collection) : Prop := NumbersListed σ ∧ Collection.SameStore σ τ

/-- Opening again is not noticed. -/
theorem SameLife.open {τ : Collection} (h : SameLife σ τ) :
    SameLife (Collection.open E σ.db) τ := by
  obtain ⟨hlisted, hsame⟩ := h
  obtain ⟨hdb, hid⟩ := hlisted.open (E := E)
  exact ⟨hlisted.congr (by rw [hdb]) hid, hdb.trans hsame.db, hid.trans hsame.snapshotId⟩

theorem SameLife.serve (hE : E.backend = .levelDB) {τ : Collection} (h : SameLife σ τ)
    {request : Op × Bool} (hop : KeepsCurrent request.1) :
    Option.Rel (SameOutputs SameLife) (serve E σ request) (serve E τ request) := by
  obtain ⟨op, answered⟩ := request
  have hrel := h.2.apply (E := E) op
  have hkeeps : ∀ r σ', op.apply E σ = some (r, σ') → NumbersListed σ' := fun r σ' happly =>
    h.1.apply hE hop happly
  rw [Qdocdb.serve, Qdocdb.serve]
  dsimp only
  generalize op.apply E σ = p at hrel hkeeps ⊢
  generalize op.apply E τ = q at hrel ⊢
  cases hrel with
  | none => exact .none
  | some hpq =>
    have hanswer := congrArg (fun r => if answered then [r] else []) hpq.1
    exact .some ⟨hanswer, hkeeps _ _ rfl, hpq.2⟩

/-- A collection with restarts in between behaves as one without. -/
theorem life_simulates (hE : E.backend = .levelDB) :
    Simulates (Life.step E) (serve E) Life.served?
      (fun a => ∀ request, a.served? = some request → KeepsCurrent request.1) SameLife where
  matched := by
    intro σ τ a request h hok htranslate
    have hserve := h.serve hE (hok request htranslate)
    cases a with
    | request op =>
      obtain rfl := Option.some.inj htranslate
      exact hserve
    | cutOff op =>
      obtain rfl := Option.some.inj htranslate
      rw [Life.step]
      generalize serve E σ (op, false) = p at hserve ⊢
      generalize serve E τ (op, false) = q at hserve ⊢
      cases hserve with
      | none => exact .none
      | some hpq => exact .some ⟨hpq.1, hpq.2.open⟩
    | restart => cases htranslate
  silent := by
    intro σ τ a h _ htranslate
    cases a with
    | request op => cases htranslate
    | cutOff op => cases htranslate
    | restart => exact ⟨_, rfl, h.open⟩

/-- **Restarts**: a LevelDB collection whose process ends and is started again, however often,
between requests or behind a commit, gives the answers and comes to the content and the snapshot
number that the requests alone give, or neither returns. -/
theorem restarts_unnoticed (hE : E.backend = .levelDB) (h : NumbersListed σ) (life : List Life)
    (hops : ∀ request ∈ life.filterMap Life.served?, KeepsCurrent request.1) :
    (runActions (Life.step E) σ life).map (fun p => (p.1, p.2.db, p.2.snapshotId)) =
      (runActions (serve E) σ (life.filterMap Life.served?)).map
        fun p => (p.1, p.2.db, p.2.snapshotId) := by
  let view : Collection → Store × Byte := fun σ => (σ.db, σ.snapshotId)
  have hview : ∀ σ τ, SameLife σ τ → view σ = view τ := fun σ τ hR =>
    Prod.ext hR.2.db hR.2.snapshotId
  refine (life_simulates hE).map_run hview ⟨h, rfl, rfl⟩ ?_
  exact fun a ha request hserved => hops request (List.mem_filterMap.mpr ⟨a, ha, hserved⟩)

/-- A document, a snapshot whose answer is lost, and its removal. -/
def restartedLife : List Life :=
  [.request (.transact (.insertField "a" "n" .null)), .restart, .cutOff (.newSnapshot (qs "A")),
    .request (.removeSnapshot (qs "A"))]

theorem restartedLife_unnoticed :
    (runActions (Life.step (Env.plain .levelDB)) (Collection.open (Env.plain .levelDB) .empty)
        restartedLife).map (fun p => (p.1, p.2.db, p.2.snapshotId)) =
      (runActions (serve (Env.plain .levelDB)) (Collection.open (Env.plain .levelDB) .empty)
        [(.transact (.insertField "a" "n" .null), true), (.newSnapshot (qs "A"), false),
          (.removeSnapshot (qs "A"), true)]).map fun p => (p.1, p.2.db, p.2.snapshotId) := by
  refine restarts_unnoticed rfl numbersListed_open restartedLife fun request hmem => ?_
  rcases List.mem_cons.mp hmem with rfl | hmem
  · trivial
  · rcases List.mem_cons.mp hmem with rfl | hmem
    · trivial
    · obtain rfl := List.mem_singleton.mp hmem
      exact show qs "A" ≠ currentName by decide

end Law

end Qdocdb
