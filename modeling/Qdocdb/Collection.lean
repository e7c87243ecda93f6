import Qdocdb.Transaction

/-!
# Collections and their snapshots

A collection is a store with the number of its current snapshot. The list under
`s:` names the snapshots; the position of a name is its snapshot number, and the
last name stands for the current state. Taking a snapshot names the current number
and moves to the next one; reverting and removing renumber or drop versions in one
pass over the document keys.
-/

namespace Qdocdb

/-- `"__CURRENT"` -/
def currentName : QString := qs "__CURRENT"

/-- `QDocCollection`, of the type `typeCollection`. -/
structure Collection where
  /-- the content of `kvdb` -/
  db : Store
  snapshotId : Byte
  observers : Observers
  lastError : String
  /-- the `observeQueryChanged` signals emitted so far -/
  emitted : List (ℤ × List QJsonValue)

namespace Collection

/-- What the reading methods work on. -/
def reader (E : Env) (σ : Collection) : Reader where
  getValue := kvGetValue E.backend σ.db
  db := σ.db
  snapshotId := σ.snapshotId

/-- `QDocCollection::newTransaction`. -/
def newTransaction (σ : Collection) : Transaction where
  kvdb := .new
  snapshotId := σ.snapshotId
  observers := σ.observers
  lastError := ""

/-! ## Observers -/

/-- `emitObservers`. -/
def emitObservers (σ : Collection) : Collection :=
  { σ with
    observers := σ.observers.update fun o => { o with triggered := false }
    emitted := σ.emitted ++ σ.observers.entries.filterMap fun e =>
      if e.2.triggered then some (e.1, e.2.reply) else none }

/-- `reloadObservers`; the options of the observers are not passed on. -/
def reloadObservers (E : Env) (σ : Collection) : Collection :=
  emitObservers
    { σ with
      observers := σ.observers.update fun o =>
        { o with
          reply := (find E (σ.reader E) o.query []).2.map Prod.fst
          triggered := true } }

/-- The loop of `writeTransaction` over the transaction's observers: changed replies
are copied to the collection's observers. -/
def copyReplies (tx : Transaction) : List ℤ → Observers → Observers
  | [], base => base
  | id :: ids, base =>
    let reply := ((tx.observers.lookup id).map Observer.reply).getD []
    let observer := (base.lookup id).getD ⟨[], [], [], false⟩
    copyReplies tx ids (base.insert id
      (if QJsonValue.eqList observer.reply reply then observer
      else { observer with reply := reply, triggered := true }))

/-! ## Committing -/

/-- `QDocCollectionTransaction::writeTransaction`. -/
def writeTransaction (E : Env) (σ : Collection) (tx : Transaction) : ResultEnum × Collection :=
  match tx.kvdb.writeTransaction E.backend σ.db with
  | (.success, db) =>
    (.success, emitObservers
      { σ with db := db, observers := copyReplies tx tx.observers.keys σ.observers })
  | (_, db) => (.errorWriteTransaction, { σ with db := db })

/-! ## The list of snapshots -/

/-- `getSnapshotsValue`. -/
def getSnapshotsValue (E : Env) (σ : Collection) : Except String (List QString) :=
  match kvGetValue E.backend σ.db snapshotsKey with
  | .ok valueData => .ok valueData.unmarshalSnapshotsValue
  | .error e => .error e

/-- `getSnapshotId`: the position of the name, cut to a byte. -/
def getSnapshotId (E : Env) (σ : Collection) (snapshotName : QString) : Except ResultEnum Byte :=
  match σ.getSnapshotsValue E with
  | .ok snapshots =>
    if snapshotName ∈ snapshots then .ok (Fin.ofNat 256 (snapshots.idxOf snapshotName))
    else .error .errorInvalidObject
  | .error _ => .error .errorDatabase

/-- The collection after `getSnapshotsValue`, which leaves its error text there. -/
def noteSnapshotsError (E : Env) (σ : Collection) : Collection :=
  match σ.getSnapshotsValue E with
  | .ok _ => σ
  | .error e => { σ with lastError := e }

/-- `getSnapshot`: a reader of an older snapshot number. -/
def getSnapshot (E : Env) (σ : Collection) (snapshotId : Byte) : Reader :=
  { σ.reader E with snapshotId := snapshotId }

/-! ## newSnapshot -/

/-- The entries a loop over a key prefix visits. -/
def entriesFrom (E : Env) (db : Store) (startKey : QByteArray) : List (QByteArray × Blob) :=
  (kvSeek E.backend db startKey).takeWhile fun e => startKey <+: e.1

/-- The calls of `copyIndexValues`. -/
def copyIndexValues (E : Env) (db : Store) (dst src : Byte)
    (indexes : List (QString × QString)) : List (WriteOp QByteArray Blob) :=
  indexes.flatMap fun index =>
    let srcStartKey := constructIndexValueStartKey index.2 src
    let dstStartKey := constructIndexValueStartKey index.2 dst
    (entriesFrom E db srcStartKey).map fun e =>
      .put (dstStartKey ++ e.1.drop srcStartKey.length) e.2

/-- `newSnapshot`. -/
def newSnapshot (E : Env) (σ : Collection) (snapshotName : QString) : ResultEnum × Collection :=
  match σ.getSnapshotId E snapshotName with
  | .ok _ => (.errorSnapshotIsExists, { σ with lastError := "Snapshot is already exists" })
  | .error _ =>
    match σ.getSnapshotsValue E with
    | .error e => (.errorDatabase, { σ with lastError := e })
    | .ok snapshots =>
      let tx := σ.newTransaction.writes E
        (Transaction.putSnapshotsValue (snapshots.dropLast ++ [snapshotName, currentName]))
      let tx := tx.writes E
        (copyIndexValues E σ.db (σ.snapshotId + 1) σ.snapshotId (tx.reader E σ.db).getIndexes)
      match σ.writeTransaction E tx with
      | (.success, σ') => (.success, { σ' with snapshotId := σ'.snapshotId + 1 })
      | (r, σ') => (r, σ')

/-! ## revertToSnapshot -/

/-- The document keys: the entries in front of the first key without `d:`. -/
def documentEntries (db : Store) : List (QByteArray × Blob) :=
  db.entries.takeWhile fun e => e.1.take 2 = bytes "d:"

/-- The calls of the loop of `revertToSnapshot` over the document keys, with its
variables `startKey` and `isSingle`. -/
def revertVersions (sIds : List Byte) :
    List (QByteArray × Blob) → QByteArray → Bool → List (WriteOp QByteArray Blob)
  | [], startKey, isSingle => if isSingle && startKey ≠ [] then [.delete startKey] else []
  | (key, _) :: rest, startKey, isSingle =>
    if isVersionKey key then
      if lastByte key ∈ sIds then .delete key :: revertVersions sIds rest startKey isSingle
      else revertVersions sIds rest startKey false
    else
      (if isSingle && startKey ≠ [] then [.delete startKey] else []) ++
        revertVersions sIds rest key true

/-- The deletions of the index entries of the snapshots `sIds`. -/
def revertIndexes (E : Env) (db : Store) (sIds : List Byte)
    (indexes : List (QString × QString)) : List (WriteOp QByteArray Blob) :=
  indexes.flatMap fun index => sIds.flatMap fun s =>
    (entriesFrom E db (constructIndexValueStartKey index.2 s)).map fun e => .delete e.1

/-- The numbers of the snapshots that are dropped: from the end of the list down to
`snapshotId + 1`. -/
def droppedIds (snapshots : List QString) (snapshotId : Byte) : List Byte :=
  ((List.range' (snapshotId.val + 1) (snapshots.length - (snapshotId.val + 1))).reverse).map
    fun n => Fin.ofNat 256 n

/-- `revertToSnapshot`. -/
def revertToSnapshot (E : Env) (σ : Collection) (snapshotName : QString) :
    ResultEnum × Collection :=
  match σ.getSnapshotId E snapshotName with
  | .error r => (r, σ.noteSnapshotsError E)
  | .ok snapshotId =>
    match σ.getSnapshotsValue E with
    | .error e => (.errorDatabase, { σ with lastError := e })
    | .ok snapshots =>
      let sIds := droppedIds snapshots snapshotId
      let snapshots := (snapshots.take (snapshotId.val + 1)).dropLast ++ [currentName]
      let tx := σ.newTransaction.writes E (Transaction.putSnapshotsValue snapshots)
      let tx := tx.writes E (revertVersions sIds (documentEntries σ.db) [] false)
      let tx := tx.writes E (revertIndexes E σ.db sIds (σ.reader E).getIndexes)
      match σ.writeTransaction E tx with
      | (.success, σ') => (.success, { σ' with snapshotId := snapshotId }.reloadObservers E)
      | (r, σ') => (r, σ')

/-! ## removeSnapshot -/

/-- The deletion of `key` unless it is empty. -/
def deleteKey (key : QByteArray) : List (WriteOp QByteArray Blob) :=
  if key = [] then [] else [.delete key]

/-- The calls of the loop of `removeSnapshot` over the document keys, with its
variables `lastKey`, `startKey` and `removeStartKey`. A version behind the removed
number moves down by one; a tombstone deletes the version it would replace. -/
def shiftVersions (snapshotId : Byte) :
    List (QByteArray × Blob) → QByteArray → QByteArray → Bool → List (WriteOp QByteArray Blob)
  | [], lastKey, startKey, removeStartKey =>
    deleteKey lastKey ++ if removeStartKey then deleteKey startKey else []
  | (key, valueData) :: rest, lastKey, startKey, removeStartKey =>
    if isVersionKey key then
      let sId := lastByte key
      if snapshotId < sId then
        let removeStartKey := removeStartKey || decide (sId.val = snapshotId.val + 1)
        let newKey := key.dropLast ++ [sId - 1]
        if !valueData.unmarshal.isUndefined then
          .put newKey valueData :: shiftVersions snapshotId rest key startKey false
        else .delete newKey :: shiftVersions snapshotId rest key startKey removeStartKey
      else shiftVersions snapshotId rest lastKey startKey removeStartKey
    else
      deleteKey lastKey ++ (if removeStartKey then deleteKey startKey else []) ++
        shiftVersions snapshotId rest [] key false

/-- `QByteArray::replace` of all occurrences, from left to right. -/
def replaceAll (before after : QByteArray) : ℕ → QByteArray → QByteArray
  | 0, key => key
  | _ + 1, [] => []
  | fuel + 1, c :: key =>
    if before ≠ [] ∧ before <+: c :: key then
      after ++ replaceAll before after fuel ((c :: key).drop before.length)
    else c :: replaceAll before after fuel key

/-- An index entry moved down: links to versions behind the removed number follow. -/
def shiftIndexData (snapshotId : Byte) (indexData : Blob) : Blob :=
  let indexValue := indexData.unmarshalIndexValue
  if indexValue.any fun link => snapshotId < lastByte link then
    .indexValue (indexValue.map fun link =>
      if snapshotId < lastByte link then link.dropLast ++ [lastByte link - 1] else link)
  else indexData

/-- The calls of `removeSnapshot` for one index and the snapshot numbers `sIds`. -/
def shiftIndex (E : Env) (db : Store) (snapshotId : Byte) (indexName : QString)
    (sIds : List Byte) : List (WriteOp QByteArray Blob) :=
  sIds.flatMap fun s =>
    let startKey := constructIndexValueStartKey indexName s
    let startKey1 := constructIndexValueStartKey indexName (s + 1)
    (entriesFrom E db startKey).map (fun e => .delete e.1) ++
      (entriesFrom E db startKey1).map fun e =>
        .put (replaceAll startKey1 startKey e.1.length e.1) (shiftIndexData snapshotId e.2)

/-- The numbers from the removed snapshot to the last position of the list. The
counter is a byte, so a list of 256 names never ends the loop. -/
def shiftedIds (snapshots : List QString) (snapshotId : Byte) : Option (List Byte) :=
  if snapshots.length < 256 then
    some ((List.range' snapshotId.val (snapshots.length - snapshotId.val)).map fun n =>
      Fin.ofNat 256 n)
  else none

/-- `removeSnapshot`; nothing when it does not return. -/
def removeSnapshot (E : Env) (σ : Collection) (snapshotName : QString) :
    Option (ResultEnum × Collection) :=
  match σ.getSnapshotId E snapshotName with
  | .error r => some (r, σ.noteSnapshotsError E)
  | .ok snapshotId =>
    match σ.getSnapshotsValue E with
    | .error e => some (.errorDatabase, { σ with lastError := e })
    | .ok snapshots =>
      let tx := σ.newTransaction.writes E
        (shiftVersions snapshotId (documentEntries σ.db) [] [] false)
      let indexes := (σ.reader E).getIndexes
      let sIds := if indexes = [] then some [] else shiftedIds snapshots snapshotId
      sIds.map fun sIds =>
        let tx := tx.writes E
          (indexes.flatMap fun index => shiftIndex E σ.db snapshotId index.2 sIds)
        let tx := tx.writes E (Transaction.putSnapshotsValue (snapshots.eraseIdx snapshotId.val))
        match σ.writeTransaction E tx with
        | (.success, σ') =>
          (.success, { σ' with snapshotId := σ'.snapshotId - 1 }.reloadObservers E)
        | (r, σ') => (r, σ')

/-! ## Opening -/

/-- `QDocCollection::open` on a store with the content `db`. -/
def «open» (E : Env) (db : Store) : Collection :=
  let σ : Collection := ⟨db, 0, ∅, "", []⟩
  match σ.getSnapshotsValue E with
  | .ok (_ :: names) =>
    let σ := { σ with snapshotId := Fin.ofNat 256 names.length }
    (σ.writeTransaction E σ.newTransaction).2
  | .ok [] =>
    ({ σ with lastError := "Invalid snapshots structure" }.writeTransaction E
      (σ.newTransaction.writes E (Transaction.putSnapshotsValue [currentName]))).2
  | .error e =>
    ({ σ with lastError := e }.writeTransaction E
      (σ.newTransaction.writes E (Transaction.putSnapshotsValue [currentName]))).2

end Collection

/-! ## Operations -/

/-- An operation inside a transaction. -/
inductive TxOp where
  | insert (doc : QJsonObject) (gen : Transaction.IdGen) (overwrite ignoreReadOnlyValue : Bool)
  | removeById (id : QByteArray) (ignoreReadOnlyValue : Bool)
  | remove (query : QJsonObject)
  | set (query : QJsonObject) (docs : List (QJsonValue × Transaction.IdGen))
  | createIndex (fieldName indexName : QString)

/-- Run an operation in a transaction over the store `db`. -/
def TxOp.run (E : Env) (db : Store) (tx : Transaction) : TxOp → ResultEnum × Transaction
  | insert doc gen overwrite ignoreReadOnlyValue =>
    let (r, _, tx) := tx.insert E db doc gen overwrite ignoreReadOnlyValue
    (r, tx)
  | removeById id ignoreReadOnlyValue => tx.removeById E db id ignoreReadOnlyValue
  | remove query => tx.remove E db query
  | set query docs => tx.set E db query docs
  | createIndex fieldName indexName => tx.createIndex E db fieldName indexName

/-- Run several operations in a transaction, whatever each of them returns. -/
def TxOp.runAll (E : Env) (db : Store) (ops : List TxOp) (tx : Transaction) : Transaction :=
  ops.foldl (fun tx op => (op.run E db tx).2) tx

/-- A request to a collection: an operation in its own transaction, or several in one,
which is committed whatever they returned, or a snapshot operation. -/
inductive Op where
  | transact (op : TxOp)
  | batch (ops : List TxOp)
  | newSnapshot (snapshotName : QString)
  | revertToSnapshot (snapshotName : QString)
  | removeSnapshot (snapshotName : QString)

/-- Run an operation in its own transaction and commit it. -/
def Collection.transact (E : Env) (σ : Collection) (op : TxOp) : ResultEnum × Collection :=
  let (r, tx) := op.run E σ.db σ.newTransaction
  let (r', σ') := σ.writeTransaction E tx
  (if r = .success then r' else r, σ')

/-- Run several operations in one transaction and commit it. -/
def Collection.transactAll (E : Env) (σ : Collection) (ops : List TxOp) :
    ResultEnum × Collection :=
  σ.writeTransaction E (TxOp.runAll E σ.db ops σ.newTransaction)

/-- Serve a request; nothing when it does not return. -/
def Op.apply (E : Env) (σ : Collection) : Op → Option (ResultEnum × Collection)
  | transact op => some (σ.transact E op)
  | batch ops => some (σ.transactAll E ops)
  | newSnapshot snapshotName => some (σ.newSnapshot E snapshotName)
  | revertToSnapshot snapshotName => some (σ.revertToSnapshot E snapshotName)
  | removeSnapshot snapshotName => σ.removeSnapshot E snapshotName

/-- The states of a collection, opened on an empty store, that are reached by
serving requests one after the other, each allowed by `ok` where it is served. -/
inductive Reachable (E : Env) (ok : Collection → Op → Prop) : Collection → Prop
  | opened : Reachable E ok (Collection.open E .empty)
  | served {σ σ' : Collection} {op : Op} {r : ResultEnum} :
    Reachable E ok σ → ok σ op → op.apply E σ = some (r, σ') → Reachable E ok σ'

namespace Reachable

variable {E : Env} {ok : Collection → Op → Prop} {σ : Collection}

/-- Reached by fewer kinds of requests, reached by more. -/
theorem mono {ok' : Collection → Op → Prop} (h : Reachable E ok σ)
    (hok : ∀ σ op, ok σ op → ok' σ op) : Reachable E ok' σ := by
  induction h with
  | opened => exact .opened
  | served _ hop happly ih => exact ih.served (hok _ _ hop) happly

theorem transact (h : Reachable E ok σ) {op : TxOp} (hok : ok σ (.transact op)) :
    Reachable E ok (σ.transact E op).2 :=
  h.served hok rfl

theorem newSnapshot (h : Reachable E ok σ) {snapshotName : QString}
    (hok : ok σ (.newSnapshot snapshotName)) : Reachable E ok (σ.newSnapshot E snapshotName).2 :=
  h.served hok rfl

end Reachable

/-- The insertion of the document `{"_id": id, key: value}`. -/
def TxOp.insertField (id key : String) (value : QJsonValue) : TxOp :=
  .insert (QJsonObject.insert [(qs "_id", .string (qs id))] (qs key) value) ⟨[], []⟩ false false

end Qdocdb
