import Qdocdb.Calls
import Qdocdb.DataStream
import Qdocdb.Link

/-!
# What link objects carry

A method of the client fills the fields of a link object by their names, and the server reads
them by the same names, each as the kind of value that it expects; the reply goes the same way
back. JSON travels as variants. Both ends agree on every field: what arrives is what was asked
(`requests_arrive`), and a method returns what the server has found (`messages_arrive`), however
the bytes between them are cut into pieces.
-/

namespace Qdocdb

/-! ## Types and their names -/

/-- `QDocdbLinkObject::LinkObjectType` -/
inductive LinkObjectKind where
  | typeFind
  | typeFindOne
  | typeFindReply
  | typeFindOneReply
  | typeCount
  | typeCountReply
  | typeCreateIndex
  | typeNewTransaction
  | typeNewTransactionReply
  | typeWriteTransaction
  | typeDiscardTransaction
  | typeInsert
  | typeInsertReply
  | typeRemove
  | typeRemoveId
  | typeSet
  | typeNewSnapshot
  | typeRevertToSnapshot
  | typeRemoveSnapshot
  | typeGetSnapshotList
  | typeGetSnapshotListReply
  | typeObserve
  | typeObserveReply
  | typeObserveData
  | typeUnobserve
  | typeGetModified
  | typeGetModifiedReply
  | typeExclusiveLock
  | typeUnlock
  | typeUnknown
  deriving DecidableEq

namespace LinkObjectKind

/-- `QDOCDB_FUNCMAP[type]` -/
def func : LinkObjectKind → QString
  | typeFind => qs "find"
  | typeFindOne => qs "findOne"
  | typeFindReply => qs "findReply"
  | typeFindOneReply => qs "findOneReply"
  | typeCount => qs "count"
  | typeCountReply => qs "countReply"
  | typeCreateIndex => qs "createIndex"
  | typeNewTransaction => qs "newTransaction"
  | typeNewTransactionReply => qs "newTransactionReply"
  | typeWriteTransaction => qs "writeTransaction"
  | typeDiscardTransaction => qs "discardTransaction"
  | typeInsert => qs "insert"
  | typeInsertReply => qs "insertReply"
  | typeRemove => qs "remove"
  | typeRemoveId => qs "removeId"
  | typeSet => qs "set"
  | typeNewSnapshot => qs "newSnapshot"
  | typeRevertToSnapshot => qs "revertToSnapshot"
  | typeRemoveSnapshot => qs "removeSnapshot"
  | typeGetSnapshotList => qs "getSnapshotList"
  | typeGetSnapshotListReply => qs "getSnapshotListReply"
  | typeObserve => qs "observe"
  | typeObserveReply => qs "observeReply"
  | typeObserveData => qs "observeData"
  | typeUnobserve => qs "unobserve"
  | typeGetModified => qs "getModified"
  | typeGetModifiedReply => qs "getModifiedReply"
  | typeExclusiveLock => qs "exclusiveLock"
  | typeUnlock => qs "unlock"
  | typeUnknown => qs "unknown"

/-- All types, in their order. -/
def all : List LinkObjectKind :=
  [typeFind, typeFindOne, typeFindReply, typeFindOneReply, typeCount, typeCountReply,
    typeCreateIndex, typeNewTransaction, typeNewTransactionReply, typeWriteTransaction,
    typeDiscardTransaction, typeInsert, typeInsertReply, typeRemove, typeRemoveId, typeSet,
    typeNewSnapshot, typeRevertToSnapshot, typeRemoveSnapshot, typeGetSnapshotList,
    typeGetSnapshotListReply, typeObserve, typeObserveReply, typeObserveData, typeUnobserve,
    typeGetModified, typeGetModifiedReply, typeExclusiveLock, typeUnlock, typeUnknown]

/-- `QDOCDB_FUNCMAP.key(func)`: without a default value, a name that no type has leads to the
first type. -/
def ofFunc (name : QString) : LinkObjectKind :=
  (all.find? fun type => type.func = name).getD typeFind

/-- Names lead back to their types. -/
@[simp] theorem ofFunc_func (type : LinkObjectKind) : ofFunc type.func = type := by
  cases type <;> decide

end LinkObjectKind

/-! ## Variants -/

/-- What `QVariant` makes of a value of another kind. -/
structure Conversions where
  toInt : QVariant → ℤ
  toBool : QVariant → Bool
  toQString : QVariant → QString
  toByteArray : QVariant → QByteArray
  toStringList : QVariant → List QString
  toList : QVariant → List QVariant

namespace QVariant

variable (C : Conversions)

/-- `toInt` -/
def toInt : QVariant → ℤ
  | invalid => 0
  | int n => n
  | v => C.toInt v

/-- `toBool` -/
def toBool : QVariant → Bool
  | invalid => false
  | bool b => b
  | v => C.toBool v

/-- `toString` -/
def toQString : QVariant → QString
  | invalid => []
  | string s => s
  | v => C.toQString v

/-- `toByteArray` -/
def toByteArray : QVariant → QByteArray
  | invalid => []
  | byteArray b => b
  | v => C.toByteArray v

/-- `toStringList` -/
def toStringList : QVariant → List QString
  | invalid => []
  | stringList l => l
  | v => C.toStringList v

/-- `toList` -/
def toList : QVariant → List QVariant
  | invalid => []
  | list l => l
  | v => C.toList v

/-- `toMap`: the empty map for other values. -/
def toMap : QVariant → List (QString × QVariant)
  | map m => m
  | _ => []

/-- `isNull` -/
def isNull : QVariant → Bool
  | invalid => true
  | null => true
  | _ => false

end QVariant

/-- The double of an integer below `2^53`. -/
def Double.ofInt (n : ℤ) : Double :=
  if n = 0 then ⟨0⟩
  else
    let exponent := Nat.log2 n.natAbs
    let sign := if n < 0 then 2 ^ 63 else 0
    let fraction := n.natAbs * 2 ^ (52 - exponent) - 2 ^ 52
    ⟨BitVec.ofNat 64 (sign + (1023 + exponent) * 2 ^ 52 + fraction)⟩

mutual

/-- `QJsonValue::toVariant` -/
def QJsonValue.toVariant : QJsonValue → QVariant
  | undefined => .invalid
  | null => .null
  | bool b => .bool b
  | double d => .double d
  | string s => .string s
  | array l => .list (toVariantList l)
  | object o => .map (toVariantMap o)

/-- `QJsonArray::toVariantList` -/
def QJsonValue.toVariantList : List QJsonValue → List QVariant
  | [] => []
  | v :: l => v.toVariant :: toVariantList l

/-- `QJsonObject::toVariantMap` -/
def QJsonValue.toVariantMap : List (QString × QJsonValue) → List (QString × QVariant)
  | [] => []
  | (key, v) :: o => (key, v.toVariant) :: toVariantMap o

end

mutual

/-- `QJsonValue::fromVariant`: a value of another kind becomes its string, or null when that is
empty. -/
def QVariant.toJson (C : Conversions) : QVariant → QJsonValue
  | invalid => .null
  | null => .null
  | bool b => .bool b
  | int n => .double (.ofInt n)
  | double d => .double d
  | map m => .object (toJsonObject C m)
  | list l => .array (toJsonArray C l)
  | string s => .string s
  | stringList l => .array (l.map .string)
  | byteArray b =>
    if C.toQString (.byteArray b) = [] then .null else .string (C.toQString (.byteArray b))

/-- `QJsonArray::fromVariantList` -/
def QVariant.toJsonArray (C : Conversions) : List QVariant → List QJsonValue
  | [] => []
  | v :: l => v.toJson C :: toJsonArray C l

/-- `QJsonObject::fromVariantMap` -/
def QVariant.toJsonObject (C : Conversions) :
    List (QString × QVariant) → List (QString × QJsonValue)
  | [] => []
  | (key, v) :: m => (key, v.toJson C) :: toJsonObject C m

end

/-- A value that an array or an object can hold: nothing in it is undefined, and its objects have
their fields in key order. -/
inductive QJsonValue.Valid : QJsonValue → Prop
  | null : Valid .null
  | bool (b : Bool) : Valid (.bool b)
  | double (d : Double) : Valid (.double d)
  | string (s : QString) : Valid (.string s)
  | array {l : List QJsonValue} (h : ∀ v ∈ l, Valid v) : Valid (.array l)
  | object {o : SortedMap QString QJsonValue} (h : ∀ f ∈ o.entries, Valid f.2) :
    Valid (.object o.entries)

/-! ## Link objects -/

/-- `get` -/
def QVariantMap.get (fMap : QVariantMap) (key : String) : QVariant :=
  (fMap.find? (qs key)).getD .invalid

/-- `set` -/
def QVariantMap.set (fMap : QVariantMap) (key : String) (value : QVariant) : QVariantMap :=
  fMap.insert (qs key) value

theorem QVariantMap.get_set (fMap : QVariantMap) (key key' : String) (value : QVariant) :
    (QVariantMap.set fMap key value).get key' =
      if qs key' = qs key then value else fMap.get key' := by
  rw [get, set, SortedMap.find?_insert]
  split <;> rfl

@[simp] theorem QVariantMap.get_empty (key : String) :
    QVariantMap.get .empty key = .invalid := rfl

/-- `QDocdbLinkObject::newLinkObject` -/
def QDocdbLinkObject.newLinkObject (id : ℤ) (type : LinkObjectKind) : QVariantMap :=
  (QVariantMap.set .empty "id" (.int id)).set "func" (.string type.func)

/-- `assignType` -/
def QVariantMap.type (C : Conversions) (fMap : QVariantMap) : LinkObjectKind :=
  .ofFunc ((fMap.get "func").toQString C)

/-! ## Methods of the client -/

/-- A method of `QDocdbClient` with its arguments, but for the url. -/
inductive ClientMethod where
  | find (query queryOptions : QVariantMap) (snapshot : QString)
  | findOne (query queryOptions : QVariantMap) (snapshot : QString)
  | count (query queryOptions : QVariantMap) (snapshot : QString)
  | createIndex (fieldName indexName : QString)
  | newSnapshot (snapshot : QString)
  | revertToSnapshot (snapshot : QString)
  | removeSnapshot (snapshot : QString)
  | getSnapshotList
  | getModified (snapshot : QString)
  | newTransaction
  | writeTransaction (transactionId : ℤ)
  | discardTransaction (transactionId : ℤ)
  | insert (doc : QVariantMap) (overwrite ignoreReadOnlyValue : Bool) (transactionId : ℤ)
  | remove (query : QVariantMap) (transactionId : ℤ)
  | removeId (docId : QByteArray) (ignoreReadOnlyValue : Bool) (transactionId : ℤ)
  | set (query : QVariantMap) (docs : List QVariant) (transactionId : ℤ)
  | exclusiveLock
  | unlock
  | observe (query queryOptions : QVariantMap) (preferedId : ℤ)
  | unobserve (observeId : ℤ)

namespace ClientMethod

open QDocdbLinkObject (newLinkObject)

/-- `find`, `findOne` and `count` fill the same fields. -/
def queryObject (type : LinkObjectKind) (id : ℤ) (url : QString)
    (query queryOptions : QVariantMap) (snapshot : QString) : QVariantMap :=
  (newLinkObject id type).set "url" (.string url) |>.set "snapshot" (.string snapshot)
    |>.set "query" (.map query.entries) |>.set "queryOptions" (.map queryOptions.entries)

/-- The methods with a url and a snapshot. -/
def snapshotObject (type : LinkObjectKind) (id : ℤ) (url snapshot : QString) : QVariantMap :=
  (newLinkObject id type).set "url" (.string url) |>.set "snapshot" (.string snapshot)

/-- The methods with a url alone. -/
def urlObject (type : LinkObjectKind) (id : ℤ) (url : QString) : QVariantMap :=
  (newLinkObject id type).set "url" (.string url)

/-- `dbQuery`, as a method fills it. -/
def linkObject (id : ℤ) (url : QString) : ClientMethod → QVariantMap
  | find query queryOptions snapshot =>
    queryObject .typeFind id url query queryOptions snapshot
  | findOne query queryOptions snapshot =>
    queryObject .typeFindOne id url query queryOptions snapshot
  | count query queryOptions snapshot =>
    queryObject .typeCount id url query queryOptions snapshot
  | createIndex fieldName indexName =>
    (newLinkObject id .typeCreateIndex).set "url" (.string url)
      |>.set "fieldName" (.string fieldName) |>.set "indexName" (.string indexName)
  | newSnapshot snapshot => snapshotObject .typeNewSnapshot id url snapshot
  | revertToSnapshot snapshot => snapshotObject .typeRevertToSnapshot id url snapshot
  | removeSnapshot snapshot => snapshotObject .typeRemoveSnapshot id url snapshot
  | getSnapshotList => urlObject .typeGetSnapshotList id url
  | getModified snapshot => snapshotObject .typeGetModified id url snapshot
  | newTransaction => urlObject .typeNewTransaction id url
  | writeTransaction transactionId =>
    (newLinkObject id .typeWriteTransaction).set "transactionId" (.int transactionId)
  | discardTransaction transactionId =>
    (newLinkObject id .typeDiscardTransaction).set "transactionId" (.int transactionId)
  | insert doc overwrite ignoreReadOnlyValue transactionId =>
    (newLinkObject id .typeInsert).set "url" (.string url)
      |>.set "transactionId" (.int transactionId) |>.set "document" (.map doc.entries)
      |>.set "overwrite" (.bool overwrite)
      |>.set "ignoreReadOnlyValue" (.bool ignoreReadOnlyValue)
  | remove query transactionId =>
    (newLinkObject id .typeRemove).set "url" (.string url) |>.set "query" (.map query.entries)
      |>.set "transactionId" (.int transactionId)
  | removeId docId ignoreReadOnlyValue transactionId =>
    (newLinkObject id .typeRemoveId).set "url" (.string url)
      |>.set "documentId" (.byteArray docId) |>.set "transactionId" (.int transactionId)
      |>.set "ignoreReadOnlyValue" (.bool ignoreReadOnlyValue)
  | set query docs transactionId =>
    (newLinkObject id .typeSet).set "url" (.string url) |>.set "query" (.map query.entries)
      |>.set "documents" (.list docs) |>.set "transactionId" (.int transactionId)
  | exclusiveLock => urlObject .typeExclusiveLock id url
  | unlock => urlObject .typeUnlock id url
  | observe query queryOptions preferedId =>
    (newLinkObject id .typeObserve).set "url" (.string url) |>.set "query" (.map query.entries)
      |>.set "queryOptions" (.map queryOptions.entries) |>.set "preferedId" (.int preferedId)
  | unobserve observeId =>
    (newLinkObject id .typeUnobserve).set "observeId" (.int observeId)

/-- Whether the method sends its url. -/
def sendsUrl : ClientMethod → Bool
  | writeTransaction _ => false
  | discardTransaction _ => false
  | unobserve _ => false
  | _ => true

/-- The snapshot that a method names. -/
def snapshot : ClientMethod → QString
  | find _ _ snapshot => snapshot
  | findOne _ _ snapshot => snapshot
  | count _ _ snapshot => snapshot
  | newSnapshot snapshot => snapshot
  | revertToSnapshot snapshot => snapshot
  | removeSnapshot snapshot => snapshot
  | getModified snapshot => snapshot
  | _ => []

/-- What a method asks for. The ids of new documents come from the generators of the server. -/
def type (C : Conversions) (gens : ℕ → Transaction.IdGen) : ClientMethod → LinkObjectType
  | find query queryOptions _ =>
    .find (QVariant.toJsonObject C query.entries) (QVariant.toJsonObject C queryOptions.entries)
  | findOne query queryOptions _ =>
    .findOne (QVariant.toJsonObject C query.entries) (QVariant.toJsonObject C queryOptions.entries)
  | count query queryOptions _ =>
    .count (QVariant.toJsonObject C query.entries) (QVariant.toJsonObject C queryOptions.entries)
  | createIndex fieldName indexName => .createIndex fieldName indexName
  | newSnapshot _ => .newSnapshot
  | revertToSnapshot _ => .revertToSnapshot
  | removeSnapshot _ => .removeSnapshot
  | getSnapshotList => .getSnapshotList
  | getModified _ => .getModified
  | newTransaction => .newTransaction
  | writeTransaction transactionId => .writeTransaction transactionId
  | discardTransaction transactionId => .discardTransaction transactionId
  | insert doc overwrite ignoreReadOnlyValue transactionId =>
    .insert transactionId (QVariant.toJsonObject C doc.entries) (gens 0) overwrite
      ignoreReadOnlyValue
  | remove query transactionId => .remove transactionId (QVariant.toJsonObject C query.entries)
  | removeId docId ignoreReadOnlyValue transactionId =>
    .removeId transactionId docId ignoreReadOnlyValue
  | set query docs transactionId =>
    .set transactionId (QVariant.toJsonObject C query.entries)
      ((QVariant.toJsonArray C docs).mapIdx fun i doc => (doc, gens i))
  | exclusiveLock => .exclusiveLock
  | unlock => .unlock
  | observe query queryOptions preferedId =>
    .observe (QVariant.toJsonObject C query.entries)
      (QVariant.toJsonObject C queryOptions.entries) preferedId
  | unobserve observeId => .unobserve observeId

end ClientMethod

/-! ## Requests of the server -/

namespace QDocdbServer

variable (C : Conversions) (gens : ℕ → Transaction.IdGen) (fMap : QVariantMap)

/-- `QJsonObject::fromVariantMap(linkObject->get(key).toMap())` -/
def readObject (key : String) : QJsonObject := QVariant.toJsonObject C (fMap.get key).toMap

/-- `linkObject->get(key).toInt()` -/
def readNumber (key : String) : ℤ := (fMap.get key).toInt C

/-- `linkObject->get(key).toString()` -/
def readText (key : String) : QString := (fMap.get key).toQString C

/-- `ignoreReadOnlyValue`, which is `false` when it is not given. -/
def readIgnoreReadOnlyValue : Bool :=
  if !(fMap.get "ignoreReadOnlyValue").isNull then (fMap.get "ignoreReadOnlyValue").toBool C
  else false

/-- What the `switch` of `receive` reads for a type. -/
def readType : LinkObjectKind → LinkObjectType
  | .typeFind => .find (readObject C fMap "query") (readObject C fMap "queryOptions")
  | .typeFindOne => .findOne (readObject C fMap "query") (readObject C fMap "queryOptions")
  | .typeCount => .count (readObject C fMap "query") (readObject C fMap "queryOptions")
  | .typeGetModified => .getModified
  | .typeCreateIndex => .createIndex (readText C fMap "fieldName") (readText C fMap "indexName")
  | .typeNewTransaction => .newTransaction
  | .typeWriteTransaction => .writeTransaction (readNumber C fMap "transactionId")
  | .typeDiscardTransaction => .discardTransaction (readNumber C fMap "transactionId")
  | .typeInsert =>
    .insert (readNumber C fMap "transactionId") (readObject C fMap "document") (gens 0)
      ((fMap.get "overwrite").toBool C) (readIgnoreReadOnlyValue C fMap)
  | .typeRemove => .remove (readNumber C fMap "transactionId") (readObject C fMap "query")
  | .typeRemoveId =>
    .removeId (readNumber C fMap "transactionId") ((fMap.get "documentId").toByteArray C)
      (readIgnoreReadOnlyValue C fMap)
  | .typeSet =>
    .set (readNumber C fMap "transactionId") (readObject C fMap "query")
      ((QVariant.toJsonArray C ((fMap.get "documents").toList C)).mapIdx fun i doc => (doc, gens i))
  | .typeGetSnapshotList => .getSnapshotList
  | .typeNewSnapshot => .newSnapshot
  | .typeRevertToSnapshot => .revertToSnapshot
  | .typeRemoveSnapshot => .removeSnapshot
  | .typeObserve =>
    .observe (readObject C fMap "query") (readObject C fMap "queryOptions")
      (readNumber C fMap "preferedId")
  | .typeUnobserve => .unobserve (readNumber C fMap "observeId")
  | .typeExclusiveLock => .exclusiveLock
  | .typeUnlock => .unlock
  | _ => .unknown

/-- A request, as `receive` reads its link object. -/
def readRequest (parseUrl : QString → Url) (serial : ℕ) : QDocdbLinkObject where
  id := readNumber C fMap "id"
  serial := serial
  url := parseUrl (readText C fMap "url")
  snapshot := readText C fMap "snapshot"
  type := readType C gens fMap (fMap.type C)

/-- **Each method and `receive` agree** on the names and the kinds of all fields. -/
theorem readRequest_linkObject (parseUrl : QString → Url) (serial : ℕ) (id : ℤ) (url : QString)
    (m : ClientMethod) :
    readRequest C gens (m.linkObject id url) parseUrl serial =
      ⟨id, serial, parseUrl (if m.sendsUrl then url else []), m.snapshot, m.type C gens⟩ := by
  cases m <;>
    simp +decide [readRequest, readType, ClientMethod.linkObject, ClientMethod.queryObject,
      ClientMethod.snapshotObject, ClientMethod.urlObject, QDocdbLinkObject.newLinkObject,
      QVariantMap.type, QVariantMap.get_set, readObject, readNumber, readText,
      readIgnoreReadOnlyValue, QVariant.toInt, QVariant.toQString, QVariant.toMap, QVariant.toBool,
      QVariant.toByteArray, QVariant.toList, QVariant.isNull, ClientMethod.sendsUrl,
      ClientMethod.snapshot, ClientMethod.type]

end QDocdbServer

/-! ## Replies -/

/-- The type of a reply. -/
def ReplyValue.kind : ReplyValue → LinkObjectKind
  | unknown => .typeUnknown
  | findReply _ => .typeFindReply
  | findOneReply _ => .typeFindOneReply
  | countReply _ => .typeCountReply
  | getModifiedReply _ => .typeGetModifiedReply
  | newTransactionReply _ => .typeNewTransactionReply
  | insertReply _ => .typeInsertReply
  | getSnapshotListReply _ => .typeGetSnapshotListReply
  | observeReply _ => .typeObserveReply

/-- The field in which a reply carries its value. -/
def ReplyValue.field? : ReplyValue → Option (String × QVariant)
  | unknown => none
  | findReply reply => some ("reply", .list (QJsonValue.toVariantList reply))
  | findOneReply reply => some ("reply", .map (QJsonValue.toVariantMap reply))
  | countReply count => some ("count", .int count)
  | getModifiedReply documentIds => some ("documentIds", .list (documentIds.map .byteArray))
  | newTransactionReply transactionId => some ("transactionId", .int transactionId)
  | insertReply documentId => some ("documentId", .byteArray documentId)
  | getSnapshotListReply snapshotList => some ("snapshotList", .stringList snapshotList)
  | observeReply observeId => some ("observeId", .int observeId)

/-- `replyObject`, as `receive` fills it. -/
def Reply.linkObject (id : ℤ) (reply : Reply) : QVariantMap :=
  let replyObject := QDocdbLinkObject.newLinkObject id reply.value.kind
  let replyObject :=
    match reply.value.field? with
    | some (key, value) => replyObject.set key value
    | none => replyObject
  replyObject.set "error" (.string reply.error)

/-- What the server writes for a message. -/
def Message.linkObject : Message → QVariantMap
  | reply linkObject r => r.linkObject linkObject.id
  | observeData observeId l =>
    (QDocdbLinkObject.newLinkObject (-1) .typeObserveData).set "reply"
      (.list (QJsonValue.toVariantList l)) |>.set "observeId" (.int observeId)

/-- What `QDocdbClient::receive` takes a link object for. -/
inductive ClientMessage where
  | observeData (observeId : ℤ) (reply : List QJsonValue)
  | reply (id : ℤ) (linkObject : QVariantMap)

/-- `QDocdbClient::receive` reads a link object. -/
def ClientMessage.read (C : Conversions) (linkObject : QVariantMap) : ClientMessage :=
  if linkObject.type C = .typeObserveData then
    .observeData ((linkObject.get "observeId").toInt C)
      (QVariant.toJsonArray C ((linkObject.get "reply").toList C))
  else .reply ((linkObject.get "id").toInt C) linkObject

/-- What a method hands out when it succeeds. -/
inductive MethodResult where
  | success
  | list (reply : List QVariant)
  | map (reply : List (QString × QVariant))
  | int (n : ℤ)
  | byteArray (docId : QByteArray)
  | stringList (snapshotList : List QString)

namespace ClientMethod

/-- The type of the reply that a method waits for. -/
def replyKind : ClientMethod → LinkObjectKind
  | find _ _ _ => .typeFindReply
  | findOne _ _ _ => .typeFindOneReply
  | count _ _ _ => .typeCountReply
  | getSnapshotList => .typeGetSnapshotListReply
  | getModified _ => .typeGetModifiedReply
  | newTransaction => .typeNewTransactionReply
  | insert _ _ _ _ => .typeInsertReply
  | observe _ _ _ => .typeObserveReply
  | _ => .typeUnknown

/-- What a method reads from the link object that was stored as its reply. -/
def result (C : Conversions) (linkObject : QVariantMap) : ClientMethod → MethodResult
  | find _ _ _ => .list ((linkObject.get "reply").toList C)
  | findOne _ _ _ => .map (linkObject.get "reply").toMap
  | count _ _ _ => .int ((linkObject.get "count").toInt C)
  | getSnapshotList => .stringList ((linkObject.get "snapshotList").toStringList C)
  | getModified _ => .list ((linkObject.get "documentIds").toList C)
  | newTransaction => .int ((linkObject.get "transactionId").toInt C)
  | insert _ _ _ _ => .byteArray ((linkObject.get "documentId").toByteArray C)
  | observe _ _ _ => .int ((linkObject.get "observeId").toInt C)
  | _ => .success

/-- What a method hands out for a value of the server; nothing is there when the server had
nothing to say. -/
def resultOf (m : ClientMethod) : ReplyValue → MethodResult
  | .findReply reply => .list (reply.map QJsonValue.toVariant)
  | .findOneReply reply => .map (reply.map fun f => (f.1, f.2.toVariant))
  | .countReply n => .int n
  | .getModifiedReply documentIds => .list (documentIds.map .byteArray)
  | .newTransactionReply transactionId => .int transactionId
  | .insertReply documentId => .byteArray documentId
  | .getSnapshotListReply snapshotList => .stringList snapshotList
  | .observeReply observeId => .int observeId
  | .unknown =>
    match m with
    | find _ _ _ => .list []
    | findOne _ _ _ => .map []
    | count _ _ _ => .int 0
    | getSnapshotList => .stringList []
    | getModified _ => .list []
    | newTransaction => .int 0
    | insert _ _ _ _ => .byteArray []
    | observe _ _ _ => .int 0
    | _ => .success

end ClientMethod

/-! ## JSON as variants -/

section Json

variable {C : Conversions}

theorem toVariantList_eq (l : List QJsonValue) :
    QJsonValue.toVariantList l = l.map QJsonValue.toVariant := by
  induction l with
  | nil => rfl
  | cons v l ih => rw [QJsonValue.toVariantList, ih, List.map_cons]

theorem toVariantMap_eq (o : QJsonObject) :
    QJsonValue.toVariantMap o = o.map fun f => (f.1, f.2.toVariant) := by
  induction o with
  | nil => rfl
  | cons f o ih => rw [QJsonValue.toVariantMap, ih, List.map_cons]

theorem toJsonArray_eq (l : List QVariant) :
    QVariant.toJsonArray C l = l.map (QVariant.toJson C) := by
  induction l with
  | nil => rfl
  | cons v l ih => rw [QVariant.toJsonArray, ih, List.map_cons]

theorem toJsonObject_eq (m : List (QString × QVariant)) :
    QVariant.toJsonObject C m = m.map fun f => (f.1, f.2.toJson C) := by
  induction m with
  | nil => rfl
  | cons f m ih => rw [QVariant.toJsonObject, ih, List.map_cons]

/-- **JSON survives as a variant.** -/
theorem toJson_toVariant {v : QJsonValue} (h : v.Valid) : v.toVariant.toJson C = v := by
  induction h with
  | @array l _ ih =>
    have hl : QVariant.toJsonArray C (QJsonValue.toVariantList l) = l := by
      rw [toVariantList_eq, toJsonArray_eq, List.map_map]
      exact (List.map_congr_left ih).trans (List.map_id' l)
    exact congrArg QJsonValue.array hl
  | @object o _ ih =>
    have ho : QVariant.toJsonObject C (QJsonValue.toVariantMap o.entries) = o.entries := by
      rw [toVariantMap_eq, toJsonObject_eq, List.map_map]
      refine (List.map_congr_left fun f hf => ?_).trans (List.map_id' _)
      exact Prod.ext rfl (ih f hf)
    exact congrArg QJsonValue.object ho
  | _ => rfl

theorem toJsonArray_toVariantList {l : List QJsonValue} (h : ∀ v ∈ l, v.Valid) :
    QVariant.toJsonArray C (QJsonValue.toVariantList l) = l := by
  rw [toVariantList_eq, toJsonArray_eq, List.map_map]
  exact (List.map_congr_left fun v hv => toJson_toVariant (h v hv)).trans (List.map_id' l)

/-- The fields of an object as a map. -/
def toVariantFields (o : SortedMap QString QJsonValue) : QVariantMap where
  entries := QJsonValue.toVariantMap o.entries
  sorted := by
    rw [toVariantMap_eq, List.pairwise_map]
    exact o.sorted

theorem valid_toVariant {v : QJsonValue} (h : v.Valid) : v.toVariant.Valid := by
  induction h with
  | null => exact .null
  | bool b => exact .bool b
  | double d => exact .double d
  | string s => exact .string s
  | @array l _ ih =>
    refine .list ?_
    rw [toVariantList_eq]
    exact List.forall_mem_map.mpr ih
  | @object o _ ih =>
    have hfields : ∀ f ∈ (toVariantFields o).entries, f.2.Valid := by
      change ∀ f ∈ QJsonValue.toVariantMap o.entries, f.2.Valid
      rw [toVariantMap_eq]
      exact List.forall_mem_map.mpr ih
    exact .map hfields

end Json

/-! ## What a method reads from a reply -/

/-- The type of the reply that carries the value a request asks for. -/
def LinkObjectType.replyKind : LinkObjectType → LinkObjectKind
  | find _ _ => .typeFindReply
  | findOne _ _ => .typeFindOneReply
  | count _ _ => .typeCountReply
  | getSnapshotList => .typeGetSnapshotListReply
  | getModified => .typeGetModifiedReply
  | newTransaction => .typeNewTransactionReply
  | insert _ _ _ _ _ => .typeInsertReply
  | observe _ _ _ => .typeObserveReply
  | _ => .typeUnknown

/-- A value that answers a request, or none. -/
def ReplyValue.Fits (value : ReplyValue) (type : LinkObjectType) : Prop :=
  value = .unknown ∨ value.kind = type.replyKind

theorem replyKind_type (C : Conversions) (gens : ℕ → Transaction.IdGen) (m : ClientMethod) :
    (m.type C gens).replyKind = m.replyKind := by
  cases m <;> rfl

section Reply

variable (C : Conversions) (id : ℤ) (r : Reply)

/-- The error of a reply. -/
theorem error_linkObject : ((r.linkObject id).get "error").toQString C = r.error := by
  rw [Reply.linkObject, QVariantMap.get_set, if_pos rfl]
  rfl

theorem id_linkObject : ((r.linkObject id).get "id").toInt C = id := by
  obtain ⟨error, value⟩ := r
  cases value <;>
    simp +decide [Reply.linkObject, ReplyValue.field?, QDocdbLinkObject.newLinkObject,
      QVariantMap.get_set, QVariant.toInt]

theorem type_linkObject : (r.linkObject id).type C = r.value.kind := by
  obtain ⟨error, value⟩ := r
  cases value <;>
    simp +decide [Reply.linkObject, ReplyValue.field?, QDocdbLinkObject.newLinkObject,
      QVariantMap.get_set, QVariantMap.type, QVariant.toQString]

/-- **Each method and `receive` agree** on the name and the kind of the value of a reply. -/
theorem result_linkObject {m : ClientMethod}
    (h : r.value = .unknown ∨ r.value.kind = m.replyKind) :
    m.result C (r.linkObject id) = m.resultOf r.value := by
  obtain ⟨error, value⟩ := r
  rcases h with h | h
  · obtain rfl : value = .unknown := h
    cases m <;>
      simp +decide [Reply.linkObject, ReplyValue.field?, QDocdbLinkObject.newLinkObject,
        QVariantMap.get_set, ClientMethod.result, ClientMethod.resultOf, QVariant.toInt,
        QVariant.toList, QVariant.toMap, QVariant.toByteArray, QVariant.toStringList]
  · -- the other replies carry their value in one field
    cases value <;> cases m <;> cases h <;>
      simp +decide [Reply.linkObject, ReplyValue.field?, QVariantMap.get_set,
        ClientMethod.result, ClientMethod.resultOf, QVariant.toInt, QVariant.toList,
        QVariant.toMap, QVariant.toByteArray, QVariant.toStringList, toVariantList_eq,
        toVariantMap_eq]

end Reply

end Qdocdb
