import Qdocdb.Query

/-!
# Transactions

`QDocCollectionTransaction`: the operations that change a collection. They read
documents through iterators over the committed store and everything else through
the overlay of their own writes, and they keep a copy of the observers' replies up
to date as they go.

Every definition takes the committed store `db` of the moment of the call, because
it may change between two operations of one transaction. The key/value layer never
refuses a put or a deletion inside a transaction, so the error exits behind them
are left out.
-/

namespace Qdocdb

/-! ## Observers -/

/-- `td_s_observer`, without its `id`. -/
structure Observer where
  query : QJsonObject
  queryOptions : QJsonObject
  reply : List QJsonValue
  triggered : Bool

/-- `QHash<int, td_s_observer>`. -/
abbrev Observers : Type := AList fun _ : ℤ => Observer

namespace Observers

/-- Run the body of a loop over the observers on each of them. -/
def update (observers : Observers) (body : Observer → Observer) : Observers :=
  observers.keys.foldl (fun obs id =>
    match obs.lookup id with
    | some observer => obs.insert id (body observer)
    | none => obs) observers

end Observers

/-- `applyOptions(reply, NULL, options)`. -/
def applyOptionsReply (reply : List QJsonValue) (options : QJsonObject) : List QJsonValue :=
  (applyOptions (reply.map fun v => (v, ())) options).map Prod.fst

/-- `doc.value("_id") == v.toObject().value("_id")`. -/
def sameId (doc : QJsonObject) (v : QJsonValue) : Bool :=
  (QJsonObject.value doc (qs "_id")).eq (QJsonObject.value v.toObject (qs "_id"))

/-- The loop that replaces the first document with the `_id` of `doc`. -/
def replaceFirst (doc : QJsonObject) : List QJsonValue → List QJsonValue
  | [] => []
  | v :: reply => if sameId doc v then .object doc :: reply else v :: replaceFirst doc reply

/-- The body of the observer loop of `insert`. -/
def Observer.inserted (E : Env) (doc : QJsonObject) (isOld : Bool) (observer : Observer) :
    Observer :=
  if checkQuery E observer.query (.object doc) = some true then
    let reply := if isOld then replaceFirst doc observer.reply else observer.reply ++ [.object doc]
    { observer with reply := applyOptionsReply reply observer.queryOptions }
  else observer

/-- The body of the observer loop of `removeById`. -/
def Observer.removed (E : Env) (doc : QJsonObject) (observer : Observer) : Observer :=
  if checkQuery E observer.query (.object doc) = some true ∧ observer.reply.any (sameId doc) then
    { observer with
      reply := applyOptionsReply (observer.reply.eraseP (sameId doc)) observer.queryOptions }
  else observer

/-! ## The transaction -/

/-- `QDocCollectionTransaction`. -/
structure Transaction where
  kvdb : KVTransaction QByteArray Blob
  snapshotId : Byte
  observers : Observers
  lastError : String

namespace Transaction

/-- What the inherited reading methods work on. -/
def reader (E : Env) (db : Store) (tx : Transaction) : Reader where
  getValue := tx.kvdb.getValue E.backend db
  db := db
  snapshotId := tx.snapshotId

/-- Calls of `kvdb->putValue` and `kvdb->deleteValue`. -/
def writes (E : Env) (tx : Transaction) (ws : List (WriteOp QByteArray Blob)) : Transaction :=
  { tx with kvdb := tx.kvdb.writes E.backend ws }

/-! ### Values of the store -/

/-- The calls of `putJsonValue`. -/
def putJsonValue (id : QByteArray) (s : Byte) (jsonValue : QJsonObject) :
    List (WriteOp QByteArray Blob) :=
  [.put (constructDocumentStartKey id) .empty,
    .put (constructDocumentLinkKey id s) (.document jsonValue)]

/-- The call of `putIndexes`. -/
def putIndexes (indexes : List (QString × QString)) : List (WriteOp QByteArray Blob) :=
  [.put indexesKey (.indexes indexes)]

/-- The call of `putSnapshotsValue`. -/
def putSnapshotsValue (snapshots : List QString) : List (WriteOp QByteArray Blob) :=
  [.put snapshotsKey (.snapshots snapshots)]

/-- The key of an index entry for the transaction's snapshot. -/
def indexValueKey (E : Env) (tx : Transaction) (indexName : QString) (jsonValue : QJsonValue) :
    QByteArray :=
  constructIndexValueKey indexName tx.snapshotId (marshal E.toBinaryData jsonValue)

/-- `addIndexValue`. -/
def addIndexValue (E : Env) (db : Store) (tx : Transaction) (indexName : QString)
    (jsonValue : QJsonValue) (id : QByteArray) : Transaction :=
  let ivkey := tx.indexValueKey E indexName jsonValue
  let linkKeys :=
    match (tx.reader E db).getValue ivkey with
    | .ok linkKeysData => linkKeysData.unmarshalIndexValue
    | .error _ => []
  let linkKey := constructDocumentLinkKey id tx.snapshotId
  if linkKeys.contains linkKey then tx
  else tx.writes E [.put ivkey (.indexValue (linkKeys ++ [linkKey]))]

/-- `removeIndexValue`. -/
def removeIndexValue (E : Env) (db : Store) (tx : Transaction) (indexName : QString)
    (jsonValue : QJsonValue) (linkKey : QByteArray) : ResultEnum × Transaction :=
  let ivkey := tx.indexValueKey E indexName jsonValue
  match (tx.reader E db).getValue ivkey with
  | .error lastError => (.errorDatabase, { tx with lastError := lastError })
  | .ok linkKeysData =>
    let linkKeys := linkKeysData.unmarshalIndexValue
    if linkKeys.contains linkKey then
      let linkKeys := linkKeys.filter (· ≠ linkKey)
      (.success, tx.writes E
        [if linkKeys = [] then .delete ivkey else .put ivkey (.indexValue linkKeys)])
    else (.success, tx)

/-- Remove one link from the entries of several values, up to the first error. -/
def removeIndexValues (E : Env) (db : Store) (indexName : QString) (linkKey : QByteArray) :
    List QJsonValue → Transaction → ResultEnum × Transaction
  | [], tx => (.success, tx)
  | jsonValue :: values, tx =>
    match tx.removeIndexValue E db indexName jsonValue linkKey with
    | (.success, tx) => removeIndexValues E db indexName linkKey values tx
    | (_, tx) => (.errorDatabase, tx)

/-! ### createIndex -/

/-- The loop of `createIndex` over the documents. -/
def indexDocuments (E : Env) (db : Store) (fieldName indexName : QString) :
    List (QJsonValue × QByteArray) → Transaction → Transaction
  | [], tx => tx
  | (value, id) :: rest, tx =>
    indexDocuments E db fieldName indexName rest
      (if value.isObject then
        tx.addIndexValue E db indexName (getJsonValueByPath value fieldName) id
      else tx)

/-- `createIndex`. -/
def createIndex (E : Env) (db : Store) (tx : Transaction) (fieldName indexName : QString) :
    ResultEnum × Transaction :=
  let indexes := (tx.reader E db).getIndexes
  if (indexes.lookup fieldName).isSome then (.success, tx)
  else
    let tx := tx.writes E [.put (constructIndexValueKey indexName tx.snapshotId []) .empty]
    let tx := indexDocuments E db fieldName indexName
      (enumerate E.backend db tx.snapshotId) tx
    (.success, tx.writes E (putIndexes (indexes ++ [(fieldName, indexName)])))

/-! ### insert -/

/-- What the id generator returns when an operation asks it. -/
structure IdGen where
  /-- `getId` -/
  id : QByteArray
  /-- `getUUID` -/
  uuid : QByteArray

/-- The id of a document to insert, and the document with it; nothing when its `_id`
is not a string. -/
def documentId (doc : QJsonObject) (gen : IdGen) : Option (QByteArray × QJsonObject) :=
  if QJsonObject.contains doc (qs "_id") then
    match QJsonObject.value doc (qs "_id") with
    | .string s => some (toLatin1 s, doc)
    | _ => none
  else some (gen.id, QJsonObject.insert doc (qs "_id") (.string (fromLatin1 gen.id)))

/-- The read-only test on a stored document. -/
def isReadOnly (E : Env) (jsonValue : QJsonValue) : Bool :=
  let readOnlyValue := getJsonValueByPath jsonValue E.readOnlyKey
  !readOnlyValue.isUndefined && (readOnlyValue.toBool || readOnlyValue.toInt == 1)

/-- The guard of `insert` and `removeById`: a read-only key is configured, is not to
be ignored and protects the document. -/
def isProtected (E : Env) (jsonValue : QJsonValue) (ignoreReadOnlyValue : Bool) : Bool :=
  E.readOnlyKey ≠ [] && !ignoreReadOnlyValue && isReadOnly E jsonValue

/-- The document with a generated UUID, where one is configured and missing. -/
def withUUID (E : Env) (gen : IdGen) (doc : QJsonObject) : QJsonObject :=
  if E.UUIDPath ≠ [] ∧ QJsonObject.contains doc E.UUIDPath = false then
    QJsonObject.insert doc E.UUIDPath (.string (fromLatin1 gen.uuid))
  else doc

/-- The index loop of `insert`. -/
def addIndexValues (E : Env) (db : Store) (doc : QJsonObject) (id : QByteArray) :
    List (QString × QString) → Transaction → Transaction
  | [], tx => tx
  | (fieldName, indexName) :: indexes, tx =>
    addIndexValues E db doc id indexes
      (tx.addIndexValue E db indexName (getJsonValueByPath (.object doc) fieldName) id)

/-- `insert`: the result, the id and the transaction. -/
def insert (E : Env) (db : Store) (tx : Transaction) (doc : QJsonObject) (gen : IdGen)
    (overwrite ignoreReadOnlyValue : Bool) : ResultEnum × QByteArray × Transaction :=
  match documentId doc gen with
  | none => (.errorInvalidObject, [], { tx with lastError := "_id value is not string" })
  | some (id, doc) =>
    let docOld := (tx.reader E db).getJsonValue E id
    let isOld := !docOld.isUndefined
    if isOld && !overwrite then (.errorAlreadyExists, id, tx)
    else if isOld && isProtected E docOld ignoreReadOnlyValue then
      (.errorObjectIsReadOnly, id, tx)
    else
      let doc := if isOld then doc else withUUID E gen doc
      let tx := tx.writes E (putJsonValue id tx.snapshotId doc)
      let tx := addIndexValues E db doc id (tx.reader E db).getIndexes tx
      (.success, id, { tx with observers := tx.observers.update (.inserted E doc isOld) })

/-! ### removeById -/

/-- The writes of `removeById` on the versions: a tombstone, or the version and the
start key disappear when the version is the transaction's own and the scan saw no
other. -/
def removeVersion (id : QByteArray) (s : Byte) (r : ValueScan) :
    List (WriteOp QByteArray Blob) :=
  if r.snapshotId ≠ some s ∨ r.isNaked = false then
    [.put (constructDocumentLinkKey id s) .tombstone]
  else [.delete (constructDocumentLinkKey id s), .delete (constructDocumentStartKey id)]

/-- The values whose entries `removeById` looks into: the elements of an array, or the
value itself. -/
def indexedValues : QJsonValue → List QJsonValue
  | .array jsonArray => jsonArray
  | jsonValue => [jsonValue]

/-- The index loop of `removeById`. -/
def removeFromIndexes (E : Env) (db : Store) (doc : QJsonObject) (linkKey : QByteArray) :
    List (QString × QString) → Transaction → ResultEnum × Transaction
  | [], tx => (.success, tx)
  | (fieldName, indexName) :: indexes, tx =>
    let values := indexedValues (getJsonValueByPath (.object doc) fieldName)
    match removeIndexValues E db indexName linkKey values tx with
    | (.success, tx) => removeFromIndexes E db doc linkKey indexes tx
    | (r, tx) => (r, tx)

/-- `removeById`. -/
def removeById (E : Env) (db : Store) (tx : Transaction) (id : QByteArray)
    (ignoreReadOnlyValue : Bool) : ResultEnum × Transaction :=
  let scan := (seekValue E.backend db tx.snapshotId id).getD .init
  match scan.jsonValue with
  | .object doc =>
    if isProtected E (.object doc) ignoreReadOnlyValue then (.errorObjectIsReadOnly, tx)
    else
      let tx := tx.writes E (removeVersion id tx.snapshotId scan)
      let linkKey := constructDocumentLinkKey id (scan.snapshotId.getD 0)
      match removeFromIndexes E db doc linkKey (tx.reader E db).getIndexes tx with
      | (.success, tx) =>
        (.success, { tx with observers := tx.observers.update (.removed E doc) })
      | (r, tx) => (r, tx)
  | _ => (.errorDatabase, { tx with lastError := "value is not object" })

/-! ### remove and set -/

/-- `removeById` of one id after the other, up to the first failure. -/
def removeByIds (E : Env) (db : Store) : List QByteArray → Transaction → ResultEnum × Transaction
  | [], tx => (.success, tx)
  | id :: ids, tx =>
    match tx.removeById E db id false with
    | (.success, tx) => removeByIds E db ids tx
    | (r, tx) => (r, tx)

/-- `remove`. -/
def remove (E : Env) (db : Store) (tx : Transaction) (query : QJsonObject) :
    ResultEnum × Transaction :=
  match find E (tx.reader E db) query [] with
  | (.success, reply) => removeByIds E db (reply.map Prod.snd) tx
  | (r, _) => (r, tx)

/-- The loop of `set` over the documents: those that are in the reply already stay,
the others are inserted when they satisfy the query; the ids of both are not to be
removed. -/
def setDocuments (E : Env) (db : Store) (query : QJsonObject) (reply : List QJsonValue) :
    List (QJsonValue × IdGen) → List QByteArray → Transaction →
      ResultEnum × List QByteArray × Transaction
  | [], ids, tx => (.success, ids, tx)
  | (.object doc, gen) :: docs, ids, tx =>
    match reply.find? fun v => v.eq (.object doc) with
    | some v =>
      let id := toLatin1 (QJsonObject.value v.toObject (qs "_id")).toQString
      setDocuments E db query reply docs (ids.filter (· ≠ id)) tx
    | none =>
      match checkQuery E query (.object doc) with
      | none => (.errorQuery, ids, tx)
      | some false => setDocuments E db query reply docs (ids.filter (· ≠ [])) tx
      | some true =>
        match tx.insert E db doc gen true false with
        | (.success, id, tx) => setDocuments E db query reply docs (ids.filter (· ≠ id)) tx
        | (r, _, tx) => (r, ids, tx)
  | _ :: docs, ids, tx => setDocuments E db query reply docs ids tx

/-- `set`; the result of its `find` is ignored. -/
def set (E : Env) (db : Store) (tx : Transaction) (query : QJsonObject)
    (docs : List (QJsonValue × IdGen)) : ResultEnum × Transaction :=
  let reply := (find E (tx.reader E db) query []).2
  match setDocuments E db query (reply.map Prod.fst) docs (reply.map Prod.snd) tx with
  | (.success, ids, tx) => removeByIds E db ids tx
  | (r, _, tx) => (r, tx)

end Transaction

end Qdocdb
