import Qdocdb.Iterator
import Qdocdb.Multiply

/-!
# Queries

`checkValidR` decides whether a document satisfies a query object, `applyOptions`
orders and truncates a reply, and `find` puts them together. `find` has two
branches: when the query names an `_id` or a scalar value of an indexed field it
follows links to versions, otherwise it runs through all documents.

What a variable holds that the source does not initialise is a parameter of the model
(`Env.uninitialized`), and so is which elements `QList::erase` moves (`Env.movesUp`). When the
loop of `multiply` leaves its list `find` does not return (`find?`); for its callers `find`
has a result there too, from any list in place of the one that is missing
(`Env.afterErase`).
-/

namespace Qdocdb

/-- What the program gets from outside: its configuration, the code of Qt that is not
part of the repository, and what C++ leaves undefined. -/
structure Env where
  /-- which store a collection uses -/
  backend : Backend
  /-- `QJsonDocument::toBinaryData` -/
  toBinaryData : QJsonValue → QByteArray
  /-- the content of an uninitialised `bool`, by the document that a query is evaluated on and
  the place in the query -/
  uninitialized : QJsonValue → List ℕ → Bool
  /-- whether `QList::erase` moves the elements before the erased one, by how many they are and
  how many there are from it on -/
  movesUp : ℕ → ℕ → Bool
  /-- the list that stands for the result of a loop that leaves its list -/
  afterErase : List QByteArray → List QByteArray → List QByteArray
  /-- `QDocdbCommonConfig::getReadOnlyKey`; not valid when empty -/
  readOnlyKey : QString
  /-- `QDocdbCommonConfig::getUUIDPath`; not valid when empty -/
  UUIDPath : QString

/-- A configuration without a read-only key and without generated UUIDs. -/
def Env.plain (B : Backend) : Env where
  backend := B
  toBinaryData := fun _ => []
  uninitialized := fun _ _ => false
  movesUp := QDocUtils.shorterPart
  afterErase := fun a _ => a
  readOnlyKey := []
  UUIDPath := []

/-- `resultEnum` and `resultTransactionEnum`. -/
inductive ResultEnum where
  | success
  | errorQuery
  | errorInvalidObject
  | errorAlreadyExists
  | errorDatabase
  | errorSnapshotIsExists
  | errorType
  | errorObjectIsReadOnly
  | errorWriteTransaction
  deriving DecidableEq

/-! ## Evaluating a query -/

mutual

/-- `QDocCollection::checkValidR`; `none` is `errorQuery`. The last argument is what
`valid` holds before the call, which a query that is no object leaves there. -/
def checkValidR (junk : List ℕ → Bool) (queryPart docPart : QJsonValue) (pos : List ℕ)
    (valid : Bool) : Option Bool :=
  match queryPart with
  | .object fields => checkFields junk fields docPart pos true
  | _ => some valid

/-- The loop over the keys of a query object. -/
def checkFields (junk : List ℕ → Bool) (fields : List (QString × QJsonValue))
    (docPart : QJsonValue) (pos : List ℕ) (valid : Bool) : Option Bool :=
  match fields with
  | [] => some valid
  | (key, queryValue) :: rest =>
    let valid1 : Option Bool :=
      if key.head? = some 36 then
        if key = qs "$exists" then
          match queryValue with
          | .bool b => some (b == !docPart.isUndefined)
          | _ => none
        else if key = qs "$gt" ∨ key = qs "$gte" ∨ key = qs "$lt" ∨ key = qs "$lte" then
          some (compare docPart queryValue key)
        else if key = qs "$in" then
          match queryValue with
          | .array queryArray => some (queryArray.any fun v => docPart.eq v)
          | _ => none
        else if key = qs "$or" then
          match queryValue with
          | .array queryArray => checkOr junk queryArray docPart (1 :: pos) false
          | _ => none
        else if key = qs "$and" then
          match queryValue with
          | .array queryArray => checkAnd junk queryArray docPart (1 :: pos) true
          | _ => none
        else if key = qs "$not" then
          (checkValidR junk queryValue docPart (1 :: pos) true).map (!·)
        else none
      else
        let docValue := getJsonValueByPath docPart key
        if queryValue.isObject then checkValidR junk queryValue docValue (1 :: pos) true
        else
          match docValue with
          | .array docArray => some (docArray.any fun v => v.eq queryValue)
          | _ => some (docValue.eq queryValue)
    match valid1 with
    | none => none
    | some valid1 => checkFields junk rest docPart (0 :: pos) (valid && valid1)

/-- The loop of `$or`; each round declares a `valid2` without a value. -/
def checkOr (junk : List ℕ → Bool) (queryArray : List QJsonValue) (docPart : QJsonValue)
    (pos : List ℕ) (valid1 : Bool) : Option Bool :=
  match queryArray with
  | [] => some valid1
  | q :: rest =>
    if valid1 then some valid1
    else
      match checkValidR junk q docPart (1 :: pos) (junk pos) with
      | none => none
      | some valid2 => checkOr junk rest docPart (0 :: pos) (valid1 || valid2)

/-- The loop of `$and`. -/
def checkAnd (junk : List ℕ → Bool) (queryArray : List QJsonValue) (docPart : QJsonValue)
    (pos : List ℕ) (valid1 : Bool) : Option Bool :=
  match queryArray with
  | [] => some valid1
  | q :: rest =>
    if !valid1 then some valid1
    else
      match checkValidR junk q docPart (1 :: pos) (junk pos) with
      | none => none
      | some valid2 => checkAnd junk rest docPart (0 :: pos) (valid1 && valid2)

end

/-- `checkValidR(query, doc, "", valid)`. -/
def checkQuery (E : Env) (query : QJsonObject) (doc : QJsonValue) : Option Bool :=
  checkValidR (E.uninitialized doc) (.object query) doc [] true

/-- The query is found to be true of the value. -/
def Matches (E : Env) (query : QJsonObject) (v : QJsonValue) : Prop :=
  checkQuery E query v = some true

instance (E : Env) (query : QJsonObject) (v : QJsonValue) : Decidable (Matches E query v) :=
  inferInstanceAs (Decidable (_ = _))

/-! ## Options -/

/-- `valueByPathMap`: the order values read so far, by `_id`. -/
abbrev PathCache : Type := List (QString × QJsonValue)

/-- The order value of a document, read once for each `_id`. -/
def cachedValue (orderPath : QString) (doc : QJsonValue) (valueByPathMap : PathCache) :
    QJsonValue × PathCache :=
  let id := (QJsonObject.value doc.toObject (qs "_id")).toQString
  match valueByPathMap.lookup id with
  | some value => (value, valueByPathMap)
  | none =>
    let value := getJsonValueByPath doc orderPath
    (value, (id, value) :: valueByPathMap)

section Options

/-! The reply and the ids are walked in step, so the model keeps them as one list of
pairs; where the source passes no id list, `ι` is `Unit`. -/

variable {ι : Type}

/-- One round of the `while (swapped)` loop. -/
def orderPass (orderPath oper : QString) (it : QJsonValue × ι) :
    List (QJsonValue × ι) → PathCache → List (QJsonValue × ι) × PathCache × Bool
  | [], map => ([it], map, false)
  | it1 :: rest, map =>
    let (value, map) := cachedValue orderPath it.1 map
    let (value1, map) := cachedValue orderPath it1.1 map
    if compare value value1 oper then
      let (out, map, _) := orderPass orderPath oper it rest map
      (it1 :: out, map, true)
    else
      let (out, map, swapped) := orderPass orderPath oper it1 rest map
      (it :: out, map, swapped)

/-- The `while (swapped)` loop. -/
def orderLoop (orderPath oper : QString) :
    ℕ → List (QJsonValue × ι) → PathCache → List (QJsonValue × ι)
  | 0, reply, _ => reply
  | _ + 1, [], _ => []
  | fuel + 1, it :: rest, map =>
    let (out, map, swapped) := orderPass orderPath oper it rest map
    if swapped then orderLoop orderPath oper fuel out map else out

/-- The path and direction of `$orderBy`; no path when its first field is no number. -/
def orderBy (options : QJsonObject) : QString × Bool :=
  match (QJsonObject.value options (qs "$orderBy")).toObject with
  | (path, .double d) :: _ => (path, decide (d.toInt ≠ 0))
  | _ => ([], true)

/-- The `$orderBy` part of `applyOptions`. Every round that swaps removes an
inversion, so the square of the length bounds the number of rounds. -/
def applyOrderBy (reply : List (QJsonValue × ι)) (options : QJsonObject) :
    List (QJsonValue × ι) :=
  let (orderPath, orderUp) := orderBy options
  if orderPath = [] then reply
  else
    orderLoop orderPath (if orderUp then qs "$gt" else qs "$lt")
      (reply.length * reply.length + 1) reply []

/-- `QDocCollection::applyOptions`. -/
def applyOptions (reply : List (QJsonValue × ι)) (options : QJsonObject) :
    List (QJsonValue × ι) :=
  let reply :=
    if QJsonObject.contains options (qs "$orderBy") then applyOrderBy reply options else reply
  if QJsonObject.contains options (qs "$limit") then
    reply.take (QJsonObject.value options (qs "$limit")).toInt.toNat
  else reply

end Options

/-! ## Reading -/

/-- The parts of a `QDocCollection` that its reading methods use: a collection, a
snapshot of it, or a transaction, whose point reads go through its overlay while its
iterators run over the base. -/
structure Reader where
  /-- `kvdb->getValue` -/
  getValue : QByteArray → Except String Blob
  /-- what `kvdb->newIterator` runs over -/
  db : Store
  /-- `snapshotId` -/
  snapshotId : Byte

namespace Reader

/-- `QDocCollection::getIndexes`: `[fieldName] = indexName`. -/
def getIndexes (R : Reader) : List (QString × QString) :=
  match R.getValue indexesKey with
  | .ok indexesData => indexesData.unmarshalIndexes
  | .error _ => []

/-- `QDocCollection::getJsonValueByLinkKey`. -/
def getJsonValueByLinkKey (R : Reader) (linkKey : QByteArray) : QJsonValue :=
  match R.getValue linkKey with
  | .ok valueData => valueData.unmarshal
  | .error _ => .undefined

/-- `QDocCollection::getIndexValueLinkKeys`; `none` is `errorDatabase`. -/
def getIndexValueLinkKeys (E : Env) (R : Reader) (indexName : QString) (jsonValue : QJsonValue) :
    Option (List QByteArray) :=
  match R.getValue
    (constructIndexValueKey indexName R.snapshotId (marshal E.toBinaryData jsonValue)) with
  | .ok linkKeysData => some linkKeysData.unmarshalIndexValue
  | .error _ => none

/-- `QDocCollection::getJsonValue`. -/
def getJsonValue (E : Env) (R : Reader) (id : QByteArray) : QJsonValue :=
  Qdocdb.getJsonValue E.backend R.db R.snapshotId id

end Reader

/-- `QDocUtils::multiply`: the loop erases through its iterator and goes on with it; nothing
when it leaves the list, where it does not return. -/
def multiply (E : Env) (a b : List QByteArray) : Option (List QByteArray) :=
  QDocUtils.sweep E.movesUp b [] a

/-! ## find -/

/-- The link keys of an `_id` operand: a string, or the strings of an array. -/
def idLinkKeys (s : Byte) (operand : QJsonValue) : List QByteArray :=
  match operand with
  | .array arr => arr.filterMap fun v =>
      match v with
      | .string id => some (constructDocumentLinkKey (toLocal8Bit id) s)
      | _ => none
  | .string id => [constructDocumentLinkKey (toLocal8Bit id) s]
  | _ => []

/-- The index that `find` consults for a field of the query. -/
def consultedIndex (indexes : List (QString × QString)) (key : QString) (operand : QJsonValue) :
    Option QString :=
  if !operand.isArray && !operand.isObject then indexes.lookup key else none

/-- The loop of `find` over the keys of the query. The result is `none` as long as no
key helped (`firstFind`), otherwise the link keys; the error is a missing index entry. There is
none at all when an intersection does not return. -/
def findLinkKeys? (E : Env) (R : Reader) (indexes : List (QString × QString)) :
    QJsonObject → Option (List QByteArray) → Option (Except ResultEnum (Option (List QByteArray)))
  | [], linkKeys => some (.ok linkKeys)
  | (key, operand) :: query, linkKeys =>
    if key = qs "_id" then
      findLinkKeys? E R indexes query
        (some (linkKeys.getD [] ++ idLinkKeys R.snapshotId operand))
    else
      match consultedIndex indexes key operand with
      | none => findLinkKeys? E R indexes query linkKeys
      | some indexName =>
        match R.getIndexValueLinkKeys E indexName operand with
        | none => some (.error .errorDatabase)
        | some indexLinkKeys =>
          match linkKeys with
          | none => findLinkKeys? E R indexes query (some indexLinkKeys)
          | some linkKeys =>
            (multiply E linkKeys indexLinkKeys).bind fun linkKeys =>
              findLinkKeys? E R indexes query (some linkKeys)

/-- The loop with a list for each intersection. -/
def findLinkKeys (E : Env) (R : Reader) (indexes : List (QString × QString)) :
    QJsonObject → Option (List QByteArray) → Except ResultEnum (Option (List QByteArray))
  | [], linkKeys => .ok linkKeys
  | (key, operand) :: query, linkKeys =>
    if key = qs "_id" then
      findLinkKeys E R indexes query
        (some (linkKeys.getD [] ++ idLinkKeys R.snapshotId operand))
    else
      match consultedIndex indexes key operand with
      | none => findLinkKeys E R indexes query linkKeys
      | some indexName =>
        match R.getIndexValueLinkKeys E indexName operand with
        | none => .error .errorDatabase
        | some indexLinkKeys =>
          findLinkKeys E R indexes query
            (some (match linkKeys with
              | none => indexLinkKeys
              | some linkKeys =>
                (multiply E linkKeys indexLinkKeys).getD (E.afterErase linkKeys indexLinkKeys)))

/-- The loops of `find` over candidates: those that are documents and satisfy the query
are appended to the reply, and a malformed query ends the loop. -/
def collectValid (E : Env) (query : QJsonObject) :
    List (QJsonValue × QByteArray) → ResultEnum × List (QJsonValue × QByteArray)
  | [] => (.success, [])
  | (jsonValue, id) :: rest =>
    if jsonValue.isObject then
      match checkQuery E query jsonValue with
      | none => (.errorQuery, [])
      | some valid =>
        let (r, reply) := collectValid E query rest
        (r, if valid then (jsonValue, id) :: reply else reply)
    else collectValid E query rest

/-- The full search of `find`. -/
def fullSearch (E : Env) (R : Reader) (query options : QJsonObject) :
    ResultEnum × List (QJsonValue × QByteArray) :=
  match collectValid E query (enumerate E.backend R.db R.snapshotId) with
  | (.success, reply) => (.success, applyOptions reply options)
  | (r, reply) => (r, reply)

/-- `find` behind the loop over the keys. The reply of the first branch is not ordered or
truncated, and its ids are link keys. -/
def findFrom (E : Env) (R : Reader) (query options : QJsonObject) :
    Except ResultEnum (Option (List QByteArray)) → ResultEnum × List (QJsonValue × QByteArray)
  | .error r => (r, [])
  | .ok (some linkKeys) =>
    collectValid E query (linkKeys.map fun k => (R.getJsonValueByLinkKey k, k))
  | .ok none => fullSearch E R query options

/-- `QDocCollection::find`: the result, and `pReply` and `ids` as pairs; nothing when it does
not return. -/
def find? (E : Env) (R : Reader) (query options : QJsonObject) :
    Option (ResultEnum × List (QJsonValue × QByteArray)) :=
  (findLinkKeys? E R R.getIndexes query none).map (findFrom E R query options)

/-- `QDocCollection::find` as its callers use it, which do not return when it does not. -/
def find (E : Env) (R : Reader) (query options : QJsonObject) :
    ResultEnum × List (QJsonValue × QByteArray) :=
  findFrom E R query options (findLinkKeys E R R.getIndexes query none)

/-- When the loop over the keys returns, no list stood for another one. -/
theorem findLinkKeys_of_findLinkKeys? {E : Env} {R : Reader} {indexes : List (QString × QString)}
    {query : QJsonObject} {linkKeys : Option (List QByteArray)}
    {r : Except ResultEnum (Option (List QByteArray))}
    (h : findLinkKeys? E R indexes query linkKeys = some r) :
    findLinkKeys E R indexes query linkKeys = r := by
  induction query generalizing linkKeys with
  | nil => exact Option.some.inj h
  | cons f query ih =>
    obtain ⟨key, operand⟩ := f
    rw [findLinkKeys?] at h
    rw [findLinkKeys]
    split at h
    · rename_i hid
      rw [if_pos hid]
      exact ih h
    · rename_i hid
      rw [if_neg hid]
      split at h
      · exact ih h
      · split at h
        · exact Option.some.inj h
        · cases linkKeys with
          | none => exact ih h
          | some linkKeys =>
            obtain ⟨linkKeys', hmultiply, h⟩ := Option.bind_eq_some_iff.mp h
            simp only [hmultiply, Option.getD_some]
            exact ih h

/-- **When find returns** it returns what its callers use. -/
theorem find_of_find? {E : Env} {R : Reader} {query options : QJsonObject}
    {r : ResultEnum × List (QJsonValue × QByteArray)} (h : find? E R query options = some r) :
    find E R query options = r := by
  obtain ⟨linkKeys, hkeys, rfl⟩ := Option.map_eq_some_iff.mp h
  rw [find, findLinkKeys_of_findLinkKeys? hkeys]

end Qdocdb
