import Mathlib.Logic.Function.Basic
import Qdocdb.Collection

/-!
# The server

`QDocdbServer` holds the open databases with their collections and serves the requests
of any number of clients. A request that names a database by a url waits in a queue of
its client while another client holds the exclusive lock of that database; the queue is
served again when an `unlocked` signal arrives. A transaction lives in a table of the
server under a number, and an observer under a number that leads to its client and to
its collection.

The server runs in one thread, driven by an event loop. Signals between objects are
either direct calls or queued events, so a state holds the events that are still
pending, and a run is any sequence of events (`Event`).

A database is told apart by its name and a collection by its name in the database. What
the file system finds under them is a parameter (`ServerEnv`). The LevelDB store of a
collection belongs to a directory, and collections of other names may have the same one.
-/

namespace Qdocdb

/-- An `int` after an increment: 32 bits, two's complement. -/
def int32 (n : ℤ) : ℤ := (n + 2 ^ 31) % 2 ^ 32 - 2 ^ 31

/-- An `int`. -/
def IsInt (n : ℤ) : Prop := -2 ^ 31 ≤ n ∧ n < 2 ^ 31

instance (n : ℤ) : Decidable (IsInt n) := inferInstanceAs (Decidable (_ ∧ _))

theorem isInt_int32 (n : ℤ) : IsInt (int32 n) := by
  rw [IsInt, int32]
  omega

theorem int32_of_lt {n : ℤ} (h : -2 ^ 31 ≤ n) (h' : n < 2 ^ 31) : int32 n = n := by
  rw [int32, Int.emod_eq_of_lt (by omega) (by omega)]
  omega

/-! ## Requests and replies -/

/-- What `QUrl` and `QUrlQuery` read from the url of a request. -/
structure Url where
  /-- `path` -/
  path : QString
  /-- the items of the query; nothing when the url has none -/
  query : Option (List (QString × QString))

namespace Url

/-- The database of a url: its path without the slash in front. -/
def dbName (url : Url) : QString := url.path.drop 1

/-- `queryItemValue` -/
def item (url : Url) (key : QString) : QString :=
  ((url.query.getD []).lookup key).getD []

/-- The collection of a url. -/
def collName (url : Url) : QString := url.item (qs "collection")

/-- Whether the collection is to be kept in memory. -/
def inMemory (url : Url) : Bool := decide (url.item (qs "persistent") = qs "false")

/-- The url of a persistent collection. -/
def of (dbName collName : QString) : Url := ⟨47 :: dbName, some [(qs "collection", collName)]⟩

end Url

/-- The type of a link object with the fields that its handler reads. -/
inductive LinkObjectType where
  | find (query queryOptions : QJsonObject)
  | findOne (query queryOptions : QJsonObject)
  | count (query queryOptions : QJsonObject)
  | getModified
  | createIndex (fieldName indexName : QString)
  | newTransaction
  | writeTransaction (transactionId : ℤ)
  | discardTransaction (transactionId : ℤ)
  | insert (transactionId : ℤ) (document : QJsonObject) (gen : Transaction.IdGen)
    (overwrite ignoreReadOnlyValue : Bool)
  | remove (transactionId : ℤ) (query : QJsonObject)
  | removeId (transactionId : ℤ) (documentId : QByteArray) (ignoreReadOnlyValue : Bool)
  | set (transactionId : ℤ) (query : QJsonObject)
    (documents : List (QJsonValue × Transaction.IdGen))
  | newSnapshot
  | revertToSnapshot
  | removeSnapshot
  | getSnapshotList
  | observe (query queryOptions : QJsonObject) (preferedId : ℤ)
  | unobserve (observeId : ℤ)
  | exclusiveLock
  | unlock
  | unknown

/-- `QDocdbLinkObject`, as a request. Requests are passed by pointer, so two of them are
told apart by their place in what the client sent. -/
structure QDocdbLinkObject where
  /-- `id`, chosen by the client to find the reply -/
  id : ℤ
  /-- which request of its client it is -/
  serial : ℕ
  /-- `url` -/
  url : Url
  /-- `snapshot` -/
  snapshot : QString
  /-- `func` with its fields -/
  type : LinkObjectType

/-- The collection that the url of a request names. -/
def QDocdbLinkObject.place (linkObject : QDocdbLinkObject) : QString × QString :=
  (linkObject.url.dbName, linkObject.url.collName)

namespace LinkObjectType

/-- `urlNeeded` -/
def urlNeeded : LinkObjectType → Bool
  | writeTransaction _ => false
  | discardTransaction _ => false
  | unobserve _ => false
  | _ => true

/-- The requests that change documents: the transaction number and the operation. -/
def document? : LinkObjectType → Option (ℤ × TxOp)
  | insert transactionId document gen overwrite ignoreReadOnlyValue =>
    some (transactionId, .insert document gen overwrite ignoreReadOnlyValue)
  | remove transactionId query => some (transactionId, .remove query)
  | removeId transactionId documentId ignoreReadOnlyValue =>
    some (transactionId, .removeById documentId ignoreReadOnlyValue)
  | set transactionId query documents => some (transactionId, .set query documents)
  | _ => none

/-- The transaction that a request names. -/
def transactionId? : LinkObjectType → Option ℤ
  | writeTransaction transactionId => some transactionId
  | discardTransaction transactionId => some transactionId
  | type => (type.document?.map Prod.fst).filter (· ≠ -1)

end LinkObjectType

/-- The value that a reply carries besides its error. -/
inductive ReplyValue where
  | unknown
  | findReply (reply : List QJsonValue)
  | findOneReply (reply : QJsonObject)
  | countReply (count : ℕ)
  | getModifiedReply (documentIds : List QByteArray)
  | newTransactionReply (transactionId : ℤ)
  | insertReply (documentId : QByteArray)
  | getSnapshotListReply (snapshotList : List QString)
  | observeReply (observeId : ℤ)

/-- `replyObject` with its `error`, which is empty when all went well. -/
structure Reply where
  error : QString
  value : ReplyValue

namespace Reply

/-- A reply without a value. -/
def ofError (error : QString) : Reply := ⟨error, .unknown⟩

/-- The database of the url cannot be opened. -/
def cannotOpenDatabase (dbName : QString) : Reply :=
  ofError (qs "Can't open database " ++ dbName)

/-- The url names no collection. -/
def emptyCollectionName : Reply := ofError (qs "Collection name is empty")

/-- The collection of the url cannot be opened. -/
def cannotOpenCollection (collName dbName : QString) : Reply :=
  ofError (qs "Can't open collection " ++ collName ++ qs " in database " ++ dbName)

/-- There is no transaction with that number. -/
def invalidTransaction (txId : ℤ) : Reply :=
  ofError (qs "Invalid transaction number " ++ qs (toString txId))

end Reply

/-- What the server sends to a client: the reply to a request, or new data of an observer. -/
inductive Message where
  | reply (linkObject : QDocdbLinkObject) (reply : Reply)
  | observeData (observeId : ℤ) (reply : List QJsonValue)

/-! ## Reading -/

/-- `QDocCollection::findOne` -/
def findOne (E : Env) (R : Reader) (query options : QJsonObject) : ResultEnum × QJsonObject :=
  let (r, replyArr) := find E R query options
  (r, match r, replyArr with
    | .success, (v, _) :: _ => v.toObject
    | _, _ => [])

/-- `QDocCollection::count` -/
def count (E : Env) (R : Reader) (query options : QJsonObject) : ResultEnum × ℕ :=
  let (r, reply) := find E R query options
  (r, if r = .success then reply.length else 0)

/-- The loop of `isModifiedLater`. The last byte of the key is a signed `char` there. -/
def modifiedLater (keyPrefix : QByteArray) (s : Byte) : List (QByteArray × Blob) → Bool
  | [] => false
  | e :: es =>
    if keyPrefix <+: e.1 then
      decide (keyPrefix.length + 1 < e.1.length ∧ s.val < (lastByte e.1).val ∧
        (lastByte e.1).val < 128) || modifiedLater keyPrefix s es
    else false

/-- `QDocCollection::getModified` -/
def getModified (E : Env) (R : Reader) : List QByteArray :=
  ((stops E.backend R.db R.snapshotId).filter fun it =>
    modifiedLater it.keyPrefix it.snapshotId (kvSeek E.backend R.db it.beginKey)).map Iterator.key

/-! ## Observers of a collection -/

namespace Collection

/-- `emitObserver` -/
def emitObserver (σ : Collection) (observerId : ℤ) : Collection :=
  match σ.observers.lookup observerId with
  | some o =>
    if o.triggered then
      { σ with
        observers := σ.observers.insert observerId { o with triggered := false }
        emitted := σ.emitted ++ [(observerId, o.reply)] }
    else σ
  | none => σ

/-- `observe`: the number of the observer and the next number of the generator. -/
def observe (E : Env) (σ : Collection) (query queryOptions : QJsonObject)
    (preferedId nextNumber : ℤ) : ℤ × ℤ × Collection :=
  let next := preferedId = -1 ∨ (σ.observers.lookup preferedId).isSome
  let id := if next then nextNumber else preferedId
  let reply := (find E (σ.reader E) query queryOptions).2.map Prod.fst
  let observer : Observer := ⟨query, queryOptions, reply, true⟩
  (id, if next then int32 (nextNumber + 1) else nextNumber,
    { σ with observers := σ.observers.insert id observer }.emitObserver id)

/-- `unobserve` -/
def unobserve (σ : Collection) (id : ℤ) : Collection :=
  { σ with observers := σ.observers.erase id }

end Collection

/-! ## The state -/

/-- `QDocdbLinkBase*`: a connected client. -/
abbrev ClientId : Type := ℕ

/-- A database and a collection in it. -/
abbrev Place : Type := QString × QString

/-- A collection with the store behind it. A map belongs to its collection, a LevelDB store
to its directory `path`. -/
structure OpenCollection where
  backend : Backend
  path : QString
  coll : Collection

/-- A transaction with its `parentColl`. -/
structure OpenTransaction where
  place : Place
  tx : Transaction

/-- What the event loop keeps for a client. -/
structure QDocdbLinkBase where
  /-- `unlockWait` -/
  unlockWait : List QDocdbLinkObject
  /-- `unlocked` signals that were not delivered yet -/
  unlocked : ℕ

/-- `QDocdbServer`. A `QMap` is a partial function; the one of the transactions is a
list of bindings, because the search for a free number goes through it. -/
structure QDocdbServer where
  transactionId : ℤ
  transactions : AList fun _ : ℤ => OpenTransaction
  /-- the open collections of each open database -/
  databases : QString → Option (QString → Option OpenCollection)
  /-- `dbMap`: what the open LevelDB stores hold, by their directories -/
  dbMap : QString → Option Store
  clients : List ClientId
  databaseLocks : QString → Option ClientId
  transactionClient : ℤ → Option ClientId
  /-- a `NULL` client comes from reading a missing entry -/
  observeClient : ℤ → Option (Option ClientId)
  observeCollection : ℤ → Option Place
  /-- `nextNumber` of the id generator that all collections share -/
  nextNumber : ℤ
  links : ClientId → QDocdbLinkBase
  /-- `observeQueryChanged` signals that were not delivered yet -/
  observeQueryChanged : List (ℤ × List QJsonValue)
  /-- all messages written to the clients' sockets so far -/
  sent : List (ClientId × Message)

/-- What a server is started in: the configuration of its collections, what opening a
database or a collection finds, and a variable that `getSnapshot` leaves unset. -/
structure ServerEnv where
  env : Env
  /-- `QDocDatabase::open` succeeds -/
  openDatabase : QString → Bool
  /-- the url of the map of a collection in memory is valid -/
  mapUrl : QString → QString → Bool
  /-- the canonical path of the directory of a collection; nothing when it cannot be made -/
  directory : QString → QString → Option QString
  /-- `leveldb::DB::Open`: what a directory holds; nothing when that fails -/
  openStore : QString → Option Store
  unsetSnapshotId : Byte

/-- The configuration for collections on the given store. -/
def Env.on (E : Env) (B : Backend) : Env := { E with backend := B }

namespace QDocdbServer

/-- A server without clients. -/
def init : QDocdbServer where
  transactionId := 0
  transactions := ∅
  databases := fun _ => none
  dbMap := fun _ => none
  clients := []
  databaseLocks := fun _ => none
  transactionClient := fun _ => none
  observeClient := fun _ => none
  observeCollection := fun _ => none
  nextNumber := 1
  links := fun _ => ⟨[], 0⟩
  observeQueryChanged := []
  sent := []

/-- A collection with what its store holds. -/
def attach (s : QDocdbServer) (c : OpenCollection) : OpenCollection :=
  match c.backend with
  | .map => c
  | .levelDB => { c with coll := { c.coll with db := (s.dbMap c.path).getD .empty } }

/-- An open collection. -/
def collection? (s : QDocdbServer) (place : Place) : Option OpenCollection :=
  ((s.databases place.1).bind fun collList => collList place.2).map s.attach

/-- Put a collection in its place, and what a LevelDB store holds in `dbMap`. The signals it
emitted become pending events. -/
def setCollection (s : QDocdbServer) (place : Place) (c : OpenCollection) : QDocdbServer :=
  { s with
    databases := Function.update s.databases place.1
      (some (Function.update ((s.databases place.1).getD fun _ => none) place.2
        (some { c with coll := { c.coll with emitted := [] } })))
    dbMap :=
      match c.backend with
      | .map => s.dbMap
      | .levelDB => Function.update s.dbMap c.path (some c.coll.db)
    observeQueryChanged := s.observeQueryChanged ++ c.coll.emitted }

/-- `client->send` -/
def send (s : QDocdbServer) (client : ClientId) (message : Message) : QDocdbServer :=
  { s with sent := s.sent ++ [(client, message)] }

/-- Change what the event loop keeps for a client. -/
def setLink (s : QDocdbServer) (client : ClientId) (link : QDocdbLinkBase) : QDocdbServer :=
  { s with links := Function.update s.links client link }

/-- `appendUnlockWait` -/
def appendUnlockWait (s : QDocdbServer) (client : ClientId) (linkObject : QDocdbLinkObject) :
    QDocdbServer :=
  let link := s.links client
  s.setLink client { link with unlockWait := link.unlockWait ++ [linkObject] }

/-- `unlockWait.dequeue()` -/
def dequeue (s : QDocdbServer) (client : ClientId) : QDocdbServer :=
  let link := s.links client
  s.setLink client { link with unlockWait := link.unlockWait.tail }

/-- Take a pending `unlocked` signal off the event queue. -/
def takeUnlocked (s : QDocdbServer) (client : ClientId) : QDocdbServer :=
  let link := s.links client
  s.setLink client { link with unlocked := link.unlocked - 1 }

/-- `getDatabase` -/
def getDatabase (E : ServerEnv) (s : QDocdbServer) (dbName : QString) : QDocdbServer :=
  if (s.databases dbName).isNone ∧ E.openDatabase dbName = true then
    { s with databases := Function.update s.databases dbName (some fun _ => none) }
  else s

/-- The constructor of `QDocKVMap` or of `QDocKVLevelDB`, which takes a store that is open
from `dbMap`: the directory and what the store holds; nothing when it is not valid. -/
def openKVDB (E : ServerEnv) (s : QDocdbServer) (place : Place) (inMemory : Bool) :
    Option (QString × Store) :=
  if inMemory then if E.mapUrl place.1 place.2 then some ([], .empty) else none
  else (E.directory place.1 place.2).bind fun path =>
    ((s.dbMap path).or (E.openStore path)).map fun db => (path, db)

/-- `QDocDatabase::collection`, for the collection that a request names. -/
def openCollectionOf (E : ServerEnv) (s : QDocdbServer) (linkObject : QDocdbLinkObject) :
    QDocdbServer :=
  let place := linkObject.place
  let inMemory := linkObject.url.inMemory
  match s.collection? place, s.openKVDB E place inMemory with
  | none, some (path, db) =>
    let B := if inMemory then Backend.map else Backend.levelDB
    s.setCollection place ⟨B, path, Collection.open (E.env.on B) db⟩
  | _, _ => s

/-! ## Transactions -/

/-- The loop of `getNextTransactionId`. A number is taken or negative at most once more
than there are transactions, which bounds the number of rounds. -/
def nextTransactionIdLoop (transactions : AList fun _ : ℤ => OpenTransaction) :
    ℕ → ℤ → ℤ → ℤ × ℤ
  | 0, id, transactionId => (id, transactionId)
  | fuel + 1, id, transactionId =>
    if id < 0 ∨ id ∈ transactions then
      nextTransactionIdLoop transactions fuel transactionId
        (if transactionId < 0 then 0 else int32 (transactionId + 1))
    else (id, transactionId)

/-- `getNextTransactionId`: the number, and the counter after it. -/
def getNextTransactionId (s : QDocdbServer) : ℤ × ℤ :=
  nextTransactionIdLoop s.transactions (s.transactions.keys.length + 3) (-1) s.transactionId

/-- `typeNewTransaction` -/
def newTransaction (s : QDocdbServer) (place : Place) (c : OpenCollection) :
    QDocdbServer × Reply :=
  let (txId, transactionId) := s.getNextTransactionId
  ({ s with
      transactionId := transactionId
      transactions := s.transactions.insert txId ⟨place, c.coll.newTransaction⟩ },
    ⟨[], .newTransactionReply txId⟩)

/-- The error text of an operation. -/
def errorText (r : ResultEnum) (lastError : String) : QString :=
  if r = .success then [] else qs lastError

/-- `typeWriteTransaction`. The only text a refused commit leaves is the map's. -/
def writeTransaction (E : ServerEnv) (s : QDocdbServer) (txId : ℤ) : QDocdbServer × Reply :=
  match s.transactions.lookup txId with
  | none => (s, .invalidTransaction txId)
  | some t =>
    let s := { s with transactions := s.transactions.erase txId }
    match s.collection? t.place with
    | none => (s, .ofError [])
    | some c =>
      let (r, coll) := c.coll.writeTransaction (E.env.on c.backend) t.tx
      (s.setCollection t.place { c with coll := coll }, .ofError (errorText r "Not found"))

/-- `typeDiscardTransaction` -/
def discardTransaction (s : QDocdbServer) (txId : ℤ) : QDocdbServer × Reply :=
  if txId ∈ s.transactions then
    ({ s with transactions := s.transactions.erase txId }, .ofError [])
  else (s, .invalidTransaction txId)

/-- What the reply to an operation carries. -/
def operationReply (E : Env) (db : Store) (tx : Transaction) (op : TxOp) : ReplyValue :=
  match op with
  | .insert doc gen overwrite ignoreReadOnlyValue =>
    let (r, id, _) := tx.insert E db doc gen overwrite ignoreReadOnlyValue
    if r = .success then .insertReply id else .unknown
  | _ => .unknown

/-- `typeInsert`, `typeRemove`, `typeRemoveId` and `typeSet` with the transaction number
`-1`: the operation runs in a transaction of its own, which is written whatever the
operation returned. -/
def autoCommit (E : ServerEnv) (s : QDocdbServer) (place : Place) (c : OpenCollection)
    (op : TxOp) : QDocdbServer × Reply :=
  let E := E.env.on c.backend
  let (r, tx) := op.run E c.coll.db c.coll.newTransaction
  let (r', coll) := c.coll.writeTransaction E tx
  (s.setCollection place { c with coll := coll },
    ⟨if r' = .success then errorText r tx.lastError else qs "Not found",
      operationReply E c.coll.db c.coll.newTransaction op⟩)

/-- The same requests with the number of an open transaction, which may belong to
another collection than the url. -/
def operation (E : ServerEnv) (s : QDocdbServer) (txId : ℤ) (op : TxOp) : QDocdbServer × Reply :=
  match s.transactions.lookup txId with
  | none => (s, .invalidTransaction txId)
  | some t =>
    match s.collection? t.place with
    | none => (s, .ofError [])
    | some c =>
      let E := E.env.on c.backend
      let (r, tx) := op.run E c.coll.db t.tx
      ({ s with transactions := s.transactions.insert txId { t with tx := tx } },
        ⟨errorText r tx.lastError, operationReply E c.coll.db t.tx op⟩)

/-! ## Observers -/

/-- `typeObserve` -/
def observe (E : ServerEnv) (s : QDocdbServer) (client : ClientId) (place : Place)
    (c : OpenCollection) (query queryOptions : QJsonObject) (preferedId : ℤ) :
    QDocdbServer × Reply :=
  let (observeId, nextNumber, coll) :=
    c.coll.observe (E.env.on c.backend) query queryOptions preferedId s.nextNumber
  let s := s.setCollection place { c with coll := coll }
  ({ s with
      nextNumber := nextNumber
      observeClient := Function.update s.observeClient observeId (some (some client))
      observeCollection := Function.update s.observeCollection observeId (some place) },
    ⟨[], .observeReply observeId⟩)

/-- `unobserve` of a collection, if it is open. -/
def unobserveAt (s : QDocdbServer) (place : Place) (observeId : ℤ) : QDocdbServer :=
  match s.collection? place with
  | some c => s.setCollection place { c with coll := c.coll.unobserve observeId }
  | none => s

/-- `typeUnobserve`. Reading a missing client leaves an entry without one. -/
def unobserve (s : QDocdbServer) (client : ClientId) (observeId : ℤ) : QDocdbServer × Reply :=
  match s.observeCollection observeId with
  | none => (s, .ofError [])
  | some place =>
    match s.observeClient observeId with
    | none =>
      ({ s with observeClient := Function.update s.observeClient observeId (some none) },
        .ofError [])
    | some owner =>
      if owner = some client then
        let s := s.unobserveAt place observeId
        ({ s with
            observeClient := Function.update s.observeClient observeId none
            observeCollection := Function.update s.observeCollection observeId none },
          .ofError [])
      else (s, .ofError [])

/-! ## Locks -/

/-- `typeExclusiveLock` -/
def exclusiveLock (s : QDocdbServer) (client : ClientId) (dbName : QString) :
    QDocdbServer × Reply :=
  if s.databaseLocks dbName = none ∨ s.databaseLocks dbName = some client then
    ({ s with databaseLocks := Function.update s.databaseLocks dbName (some client) },
      .ofError [])
  else (s, .ofError (qs "database " ++ dbName ++ qs " is already locked"))

/-- `emit unlocked`: an event for every client. -/
def emitUnlocked (s : QDocdbServer) : QDocdbServer :=
  { s with
    links := fun client =>
      if client ∈ s.clients then { s.links client with unlocked := (s.links client).unlocked + 1 }
      else s.links client }

/-- `typeUnlock` -/
def unlock (s : QDocdbServer) (client : ClientId) (dbName : QString) : QDocdbServer × Reply :=
  match s.databaseLocks dbName with
  | none => (s, .ofError (qs "database " ++ dbName ++ qs " is not locked"))
  | some owner =>
    if owner = client then
      ({ s with databaseLocks := Function.update s.databaseLocks dbName none }.emitUnlocked,
        .ofError [])
    else (s, .ofError (qs "You are not owner database " ++ dbName ++ qs " lock"))

/-! ## Requests to a collection -/

/-- The collection or the snapshot that a reading request is about. -/
def readerOf (E : ServerEnv) (c : OpenCollection) (snapshotName : QString) : Reader :=
  if snapshotName = currentName then c.coll.reader (E.env.on c.backend)
  else
    match c.coll.getSnapshotId (E.env.on c.backend) snapshotName with
    | .ok snapshotId => c.coll.getSnapshot (E.env.on c.backend) snapshotId
    | .error _ => c.coll.getSnapshot (E.env.on c.backend) E.unsetSnapshotId

/-- The collection after `readerOf`: looking up a name leaves the error text of a list that
cannot be read. -/
def afterReaderOf (E : ServerEnv) (c : OpenCollection) (snapshotName : QString) : OpenCollection :=
  if snapshotName = currentName then c
  else { c with coll := c.coll.noteSnapshotsError (E.env.on c.backend) }

/-- The reply to a reading request: its value, or the error text of the collection. -/
def readReply (c : OpenCollection) (r : ResultEnum) (value : ReplyValue) : Reply :=
  if r = .success then ⟨[], value⟩ else .ofError (qs c.coll.lastError)

/-- A snapshot operation: it may not return, and its error text is the collection's. -/
def snapshotReply (c : OpenCollection) (result : Option (ResultEnum × Collection)) :
    Option (OpenCollection × Reply) :=
  result.map fun p => ({ c with coll := p.2 }, .ofError (errorText p.1 p.2.lastError))

/-- The requests that concern nothing but their collection. -/
def onCollection (E : ServerEnv) (c : OpenCollection) (snapshotName : QString) :
    LinkObjectType → Option (OpenCollection × Reply)
  | .find query queryOptions =>
    let (r, reply) := find (E.env.on c.backend) (readerOf E c snapshotName) query queryOptions
    let c := afterReaderOf E c snapshotName
    some (c, readReply c r (.findReply (reply.map Prod.fst)))
  | .findOne query queryOptions =>
    let (r, reply) := findOne (E.env.on c.backend) (readerOf E c snapshotName) query queryOptions
    let c := afterReaderOf E c snapshotName
    some (c, readReply c r (.findOneReply reply))
  | .count query queryOptions =>
    let (r, reply) := count (E.env.on c.backend) (readerOf E c snapshotName) query queryOptions
    let c := afterReaderOf E c snapshotName
    some (c, readReply c r (.countReply reply))
  | .getModified =>
    some (afterReaderOf E c snapshotName, ⟨[], .getModifiedReply
      (getModified (E.env.on c.backend) (readerOf E c snapshotName))⟩)
  | .createIndex fieldName indexName =>
    let E := E.env.on c.backend
    let (r, tx) := c.coll.newTransaction.createIndex E c.coll.db fieldName indexName
    if r = .success then
      let (r', coll) := c.coll.writeTransaction E tx
      some ({ c with coll := coll }, .ofError (errorText r' "Not found"))
    else some (c, .ofError (qs tx.lastError))
  | .getSnapshotList =>
    match c.coll.getSnapshotsValue (E.env.on c.backend) with
    | .ok snapshotList =>
      some (c, ⟨[], .getSnapshotListReply (snapshotList.filter (· ≠ currentName))⟩)
    | .error e => some ({ c with coll := { c.coll with lastError := e } }, .ofError (qs e))
  | .newSnapshot =>
    if snapshotName = currentName then
      some (c, .ofError (qs "Invalid snapshot name: " ++ snapshotName))
    else snapshotReply c (some (c.coll.newSnapshot (E.env.on c.backend) snapshotName))
  | .revertToSnapshot =>
    if snapshotName = currentName then
      some (c, .ofError (qs "Invalid snapshot name: " ++ snapshotName))
    else snapshotReply c (some (c.coll.revertToSnapshot (E.env.on c.backend) snapshotName))
  | .removeSnapshot =>
    if snapshotName = currentName then
      some (c, .ofError (qs "Invalid snapshot name: " ++ snapshotName))
    else snapshotReply c (c.coll.removeSnapshot (E.env.on c.backend) snapshotName)
  | _ => some (c, .ofError [])

/-- The `switch` of `receive` for the requests to an open collection. -/
def serveCollection (E : ServerEnv) (s : QDocdbServer) (client : ClientId)
    (linkObject : QDocdbLinkObject) (place : Place) (c : OpenCollection) :
    Option (QDocdbServer × Reply) :=
  match linkObject.type.document? with
  | some (transactionId, op) =>
    some (if transactionId = -1 then s.autoCommit E place c op else s.operation E transactionId op)
  | none =>
    match linkObject.type with
    | .newTransaction => some (s.newTransaction place c)
    | .observe query queryOptions preferedId =>
      some (s.observe E client place c query queryOptions preferedId)
    | type =>
      let snapshotName := if linkObject.snapshot = [] then currentName else linkObject.snapshot
      (onCollection E c snapshotName type).map fun p => (s.setCollection place p.1, p.2)

/-- Serve a request that does not have to wait; nothing when the call does not return. -/
def serve (E : ServerEnv) (s : QDocdbServer) (client : ClientId)
    (linkObject : QDocdbLinkObject) : Option (QDocdbServer × Reply) :=
  let dbName := linkObject.url.dbName
  match linkObject.type with
  | .writeTransaction txId => some (s.writeTransaction E txId)
  | .discardTransaction txId => some (s.discardTransaction txId)
  | .unobserve observeId => some (s.unobserve client observeId)
  | type =>
    if (s.databases dbName).isNone then some (s, .cannotOpenDatabase dbName)
    else
      match type with
      | .exclusiveLock => some (s.exclusiveLock client dbName)
      | .unlock => some (s.unlock client dbName)
      | _ =>
        if linkObject.url.collName = [] then some (s, .emptyCollectionName)
        else
          let s := s.openCollectionOf E linkObject
          match s.collection? linkObject.place with
          | none => some (s, .cannotOpenCollection linkObject.url.collName dbName)
          | some c => s.serveCollection E client linkObject linkObject.place c

/-- The database of a request's url is opened before anything else. -/
def openDatabaseOf (E : ServerEnv) (s : QDocdbServer) (linkObject : QDocdbLinkObject) :
    QDocdbServer :=
  if linkObject.type.urlNeeded then s.getDatabase E linkObject.url.dbName else s

/-- Whether a request of the client has to wait for another client's lock. -/
def mustWait (s : QDocdbServer) (client : ClientId) (linkObject : QDocdbLinkObject) : Bool :=
  linkObject.type.urlNeeded &&
    ((s.databaseLocks linkObject.url.dbName).any fun owner => owner ≠ client)

/-- `QDocdbServer::receive`; nothing when it does not return. -/
def receive (E : ServerEnv) (s : QDocdbServer) (client : ClientId)
    (linkObject : QDocdbLinkObject) : Option QDocdbServer :=
  let s := s.openDatabaseOf E linkObject
  if s.mustWait client linkObject then some (s.appendUnlockWait client linkObject)
  else (s.serve E client linkObject).map fun p => p.1.send client (.reply linkObject p.2)

/-- `QDocdbLinkBase::onUnlocked`: the loop over the requests that were waiting. -/
def onUnlocked (E : ServerEnv) (client : ClientId) : ℕ → QDocdbServer → Option QDocdbServer
  | 0, s => some s
  | n + 1, s =>
    match (s.links client).unlockWait with
    | [] => some s
    | linkObject :: _ =>
      ((s.dequeue client).receive E client linkObject).bind (onUnlocked E client n)

/-! ## Events -/

/-- `newConnection` -/
def newConnection (s : QDocdbServer) (client : ClientId) : QDocdbServer :=
  { s with
    clients := s.clients ++ [client]
    links := Function.update s.links client ⟨[], 0⟩ }

/-- The collections after a client was removed: its observers are gone. -/
def unobserveClient (s : QDocdbServer) (client : ClientId) (place : Place)
    (c : OpenCollection) : OpenCollection :=
  { c with
    coll := { c.coll with
      observers := c.coll.observers.keys.foldl (fun obs id =>
        if s.observeClient id = some (some client) ∧ s.observeCollection id = some place then
          obs.erase id
        else obs) c.coll.observers } }

/-- `clientRemoved`. The entries of its observers stay in `observeCollection`, and no
`unlocked` signal is emitted for its locks. A transaction that `transactionClient` lists
is deleted but stays in `transactions`. -/
def clientRemoved (s : QDocdbServer) (client : ClientId) : QDocdbServer :=
  { s with
    clients := s.clients.filter (· ≠ client)
    databases := fun dbName => (s.databases dbName).map fun collList collName =>
      (collList collName).map (s.unobserveClient client (dbName, collName))
    observeClient := fun id =>
      if s.observeClient id = some (some client) then none else s.observeClient id
    transactionClient := fun id =>
      if s.transactionClient id = some client then none else s.transactionClient id
    databaseLocks := fun dbName =>
      if s.databaseLocks dbName = some client then none else s.databaseLocks dbName
    links := Function.update s.links client ⟨[], 0⟩ }

/-- `QDocdbServer::observeQueryChanged` -/
def observeChanged (s : QDocdbServer) (observeId : ℤ) (reply : List QJsonValue) :
    QDocdbServer :=
  match s.observeClient observeId with
  | some (some client) => s.send client (.observeData observeId reply)
  | _ => s

/-- What the event loop does next. -/
inductive Event where
  /-- a client connects -/
  | connected (client : ClientId)
  /-- `readyRead` has read a request of a client -/
  | received (client : ClientId) (linkObject : QDocdbLinkObject)
  /-- a pending `unlocked` signal reaches a client -/
  | unlocked (client : ClientId)
  /-- the oldest pending `observeQueryChanged` signal reaches the server -/
  | observeQueryChanged
  /-- a client's socket is gone -/
  | disconnected (client : ClientId)

/-- Handle an event; nothing when it cannot happen, or when the handler does not return. -/
def handle (E : ServerEnv) (s : QDocdbServer) : Event → Option QDocdbServer
  | .connected client => if client ∈ s.clients then none else some (s.newConnection client)
  | .received client linkObject =>
    if client ∈ s.clients then s.receive E client linkObject else none
  | .unlocked client =>
    if client ∈ s.clients ∧ 0 < (s.links client).unlocked then
      onUnlocked E client (s.links client).unlockWait.length (s.takeUnlocked client)
    else none
  | .observeQueryChanged =>
    match s.observeQueryChanged with
    | [] => none
    | (id, reply) :: pending =>
      some ({ s with observeQueryChanged := pending }.observeChanged id reply)
  | .disconnected client => if client ∈ s.clients then some (s.clientRemoved client) else none

end QDocdbServer

open QDocdbServer (Event)

/-- The states that a server reaches from its start when every event is allowed by `ok`
in the state where it happens. -/
inductive ServerReachable (E : ServerEnv) (ok : QDocdbServer → Event → Prop) :
    QDocdbServer → Prop
  | started : ServerReachable E ok .init
  | handled {s s' : QDocdbServer} {e : Event} :
    ServerReachable E ok s → ok s e → s.handle E e = some s' → ServerReachable E ok s'

end Qdocdb
