import Qdocdb.FailedRequests
import Qdocdb.IndexWrites

/-!
# A transaction as a batch

The operations of a transaction should do what each of them does in a transaction of its own,
with the earlier ones committed. They read in two ways: a point read sees the transaction's own
writes, a loop over the documents and the lookup of an id see the committed store only. So a
transaction is a batch of its operations as long as each of them comes to the same in the
committed store as in the one that the operations before would have left; on the map its commit
must also keep the order of its writes (`batchAgrees_of_undisturbed`).
-/

namespace Qdocdb

open Transaction

/-! ## The two ways of running operations -/

/-- The results of operations run in one transaction. -/
def TxOp.results (E : Env) (db : Store) : Transaction → List TxOp → List ResultEnum
  | _, [] => []
  | tx, op :: ops => (op.run E db tx).1 :: results E db (op.run E db tx).2 ops

/-- The results of operations run in a transaction each, committed before the next starts. -/
def Collection.results (E : Env) : Collection → List TxOp → List ResultEnum
  | _, [] => []
  | σ, op :: ops => (op.run E σ.db σ.newTransaction).1 :: results E (σ.transact E op).2 ops

/-- The collection after operations run in a transaction each. -/
def Collection.transactEach (E : Env) (σ : Collection) (ops : List TxOp) : Collection :=
  ops.foldl (fun σ op => (σ.transact E op).2) σ

/-- The results up to the first failure, with it. -/
def upToFailure : List ResultEnum → List ResultEnum
  | [] => []
  | r :: rs => if r = .success then r :: upToFailure rs else [r]

/-- Run in one transaction, the operations return the same up to the first failure, and leave
the same content if none fails. -/
structure BatchAgrees (E : Env) (σ : Collection) (ops : List TxOp) : Prop where
  results : upToFailure (TxOp.results E σ.db σ.newTransaction ops) =
    upToFailure (σ.results E ops)
  content : (∀ r ∈ TxOp.results E σ.db σ.newTransaction ops, r = .success) →
    (σ.transactAll E ops).2.db = (σ.transactEach E ops).db

/-! ## What an operation comes to -/

/-- What `removeById` finds: an error, or what it writes on the versions and the links that it
takes away. -/
def removal (E : Env) (db : Store) (s : Byte) (indexes : List (QString × QString))
    (ignoreReadOnlyValue : Bool) (id : QByteArray) :
    Except ResultEnum (List (WriteOp QByteArray Blob) × List (QByteArray × QByteArray)) :=
  let scan := (seekValue E.backend db s id).getD .init
  match scan.jsonValue with
  | .object doc =>
    if isProtected E (.object doc) ignoreReadOnlyValue then .error .errorObjectIsReadOnly
    else .ok (removeVersion id s scan,
      removedLinks E s indexes doc (constructDocumentLinkKey id (scan.snapshotId.getD 0)))
  | _ => .error .errorDatabase

/-- The removal of an id comes to the same over both stores. -/
def SameRemoval (E : Env) (db₁ db₂ : Store) (s : Byte) (indexes : List (QString × QString))
    (ignoreReadOnlyValue : Bool) (id : QByteArray) : Prop :=
  removal E db₁ s indexes ignoreReadOnlyValue id = removal E db₂ s indexes ignoreReadOnlyValue id

/-- What `find` returns when its loop runs over the documents of another store. -/
def findOver (E : Env) (db : Store) (σ : Collection) (query : QJsonObject) :
    ResultEnum × List (QJsonValue × QByteArray) :=
  find E { σ.reader E with db := db } query []

/-- The operation comes to the same whether its loops and lookups read the store `db` or the
content of the collection. -/
def ComesToSame (E : Env) (db : Store) (σ : Collection) : TxOp → Prop
  | .insert doc gen overwrite ignoreReadOnlyValue =>
    stored E db σ.snapshotId doc gen overwrite ignoreReadOnlyValue =
      stored E σ.db σ.snapshotId doc gen overwrite ignoreReadOnlyValue
  | .removeById id ignoreReadOnlyValue =>
    SameRemoval E db σ.db σ.snapshotId (storedIndexes σ.db) ignoreReadOnlyValue id
  | .remove query =>
    let result := findOver E σ.db σ query
    (findOver E db σ query).1 = result.1 ∧
      (result.1 = .success → (findOver E db σ query).2.map Prod.snd = result.2.map Prod.snd ∧
        ∀ id ∈ result.2.map Prod.snd,
          SameRemoval E db σ.db σ.snapshotId (storedIndexes σ.db) false id)
  | .set query docs =>
    let reply := (findOver E σ.db σ query).2
    let plan := setPlan E σ.db σ.snapshotId query (reply.map Prod.fst) docs (reply.map Prod.snd)
    (findOver E db σ query).2 = reply ∧
      setPlan E db σ.snapshotId query (reply.map Prod.fst) docs (reply.map Prod.snd) = plan ∧
      (plan.failed = false → ∀ id ∈ plan.ids,
        SameRemoval E db σ.db σ.snapshotId (storedIndexes σ.db) false id)
  | .createIndex _ _ => False

/-- On the map, the transaction deletes no key that it has put, or that is not stored. -/
def CommitsInOrder (E : Env) (db : Store) (tx : Transaction) : Prop :=
  E.backend = .map → ∀ k, tx.kvdb.isDeleted k = some true →
    db.find? k ≠ none ∧ k ∉ tx.kvdb.cache

/-- Each operation up to the first failure comes to the same in the store `db` as in the
collection at its turn, and its own transaction commits in order. -/
def Undisturbed (E : Env) (db : Store) : Collection → List TxOp → Prop
  | _, [] => True
  | σ, op :: ops => ComesToSame E db σ op ∧
      ((op.run E σ.db σ.newTransaction).1 = .success →
        CommitsInOrder E σ.db (op.run E σ.db σ.newTransaction).2 ∧
          Undisturbed E db (σ.transact E op).2 ops)

/-! ## Reading over another store -/

section Find

variable {E : Env} {R R' : Reader}

/-- **find** depends on what the point reads find, and on what its loop runs over. -/
theorem find_congr (hget : ∀ k, (R.getValue k).toOption = (R'.getValue k).toOption)
    (hdb : R.db = R'.db) (hs : R.snapshotId = R'.snapshotId) (query options : QJsonObject) :
    find E R query options = find E R' query options := by
  have hindexes : R.getIndexes = R'.getIndexes := Reader.getIndexes_congr (hget indexesKey)
  have hjson : ∀ k, R.getJsonValueByLinkKey k = R'.getJsonValueByLinkKey k := by
    intro k
    have heq : ∀ S : Reader, S.getJsonValueByLinkKey k =
        ((S.getValue k).toOption.map Blob.unmarshal).getD .undefined := by
      intro S
      rw [Reader.getJsonValueByLinkKey]
      rcases S.getValue k with e | b <;> rfl
    rw [heq, heq, hget]
  have hentry : ∀ n v, R.getIndexValueLinkKeys E n v = R'.getIndexValueLinkKeys E n v := by
    intro n v
    have heq : ∀ S : Reader, S.getIndexValueLinkKeys E n v = (S.getValue
        (constructIndexValueKey n S.snapshotId (marshal E.toBinaryData v))).toOption.map
          Blob.unmarshalIndexValue := by
      intro S
      rw [Reader.getIndexValueLinkKeys]
      rcases S.getValue _ with e | b <;> rfl
    rw [heq, heq, hs, hget]
  have hkeys : ∀ (indexes : List (QString × QString)) (query : QJsonObject)
      (linkKeys : Option (List QByteArray)),
      findLinkKeys E R indexes query linkKeys = findLinkKeys E R' indexes query linkKeys := by
    intro indexes query
    induction query with
    | nil => exact fun _ => rfl
    | cons f query ih =>
      intro linkKeys
      obtain ⟨key, operand⟩ := f
      rw [findLinkKeys, findLinkKeys, hs]
      simp only [ih, hentry]
  have hfull : fullSearch E R query options = fullSearch E R' query options := by
    rw [fullSearch, fullSearch, hdb, hs]
  have hfrom : findFrom E R query options = findFrom E R' query options := by
    funext linkKeys
    rcases linkKeys with r | _ | linkKeys
    · rfl
    · exact hfull
    · rw [findFrom, findFrom]
      simp only [hjson]
  rw [find, find, hindexes, hkeys, hfrom]

/-- A transaction over `db` that reads the content of a collection finds what is found over
`db`. -/
theorem find_sim {σ : Collection} {db : Store} {tx : Transaction}
    (h : Sim E db σ.db tx σ.newTransaction) (query : QJsonObject) :
    find E (tx.reader E db) query [] = findOver E db σ query :=
  @find_congr E _ { σ.reader E with db := db } h.getValue rfl h.snapshotId query []

end Find

/-! ## One operation, on both sides -/

section Sim

variable {E : Env} {db₁ db₂ : Store} {tx₁ tx₂ : Transaction}

/-- The operation returns the same in both transactions, and makes the same calls. -/
def RunsAlike (E : Env) (tx₁ tx₂ : Transaction) (result₁ result₂ : ResultEnum × Transaction) : Prop :=
  result₁.1 = result₂.1 ∧ ∃ ws, Wrote E ws tx₁ result₁.2 ∧ Wrote E ws tx₂ result₂.2

theorem RunsAlike.refl (r : ResultEnum) : RunsAlike E tx₁ tx₂ (r, tx₁) (r, tx₂) :=
  ⟨rfl, [], wrote_nil rfl rfl, wrote_nil rfl rfl⟩

theorem RunsAlike.of_lastError (r : ResultEnum) (e₁ e₂ : String) :
    RunsAlike E tx₁ tx₂ (r, { tx₁ with lastError := e₁ }) (r, { tx₂ with lastError := e₂ }) :=
  ⟨rfl, [], wrote_nil rfl rfl, wrote_nil rfl rfl⟩

theorem RunsAlike.sim {result₁ result₂ : ResultEnum × Transaction}
    (h : RunsAlike E tx₁ tx₂ result₁ result₂) (hsim : Sim E db₁ db₂ tx₁ tx₂) :
    Sim E db₁ db₂ result₁.2 result₂.2 := by
  obtain ⟨-, ws, h₁, h₂⟩ := h
  exact hsim.wrote h₁ h₂

/-- One operation after the other. -/
theorem RunsAlike.trans {tx₁' tx₂' : Transaction} {r₁ r₂ : ResultEnum}
    {result₁ result₂ : ResultEnum × Transaction}
    (h : RunsAlike E tx₁ tx₂ (r₁, tx₁') (r₂, tx₂')) (h' : RunsAlike E tx₁' tx₂' result₁ result₂) :
    RunsAlike E tx₁ tx₂ result₁ result₂ := by
  obtain ⟨-, ws, h₁, h₂⟩ := h
  obtain ⟨hr, ws', h₁', h₂'⟩ := h'
  exact ⟨hr, ws ++ ws', h₁.trans h₁', h₂.trans h₂'⟩

/-! ### insert -/

/-- Storing a document makes the same calls, wherever the same content is read. -/
theorem store_alike (h : Sim E db₁ db₂ tx₁ tx₂) (id : QByteArray) (o : QJsonObject)
    (isOld₁ isOld₂ : Bool) (r : ResultEnum) :
    RunsAlike E tx₁ tx₂ (r, tx₁.store E db₁ id o isOld₁) (r, tx₂.store E db₂ id o isOld₂) := by
  refine ⟨rfl, ?_⟩
  rw [store, store, h.snapshotId]
  have hw₁ := wrote_writes (E := E) tx₁ (putJsonValue id tx₂.snapshotId o)
  have hw₂ := wrote_writes (E := E) tx₂ (putJsonValue id tx₂.snapshotId o)
  have hsim := h.wrote hw₁ hw₂
  obtain ⟨iws, -, hi₁, hi₂⟩ := addIndexValues_sim hsim o id
    ((tx₂.writes E (putJsonValue id tx₂.snapshotId o)).reader E db₂).getIndexes
  dsimp only
  rw [hsim.getIndexes]
  exact ⟨_, (hw₁.trans hi₁).congr rfl rfl, (hw₂.trans hi₂).congr rfl rfl⟩

/-- The error of an insertion that is refused: of a missing id, else what `overwrite` says. -/
theorem insert_of_refused {db : Store} {tx : Transaction} {doc : QJsonObject} {gen : IdGen}
    {overwrite ignoreReadOnlyValue : Bool}
    (h : accepted E db tx.snapshotId doc gen overwrite ignoreReadOnlyValue = none) :
    ∃ id lastError, tx.insert E db doc gen overwrite ignoreReadOnlyValue =
      (if documentId doc gen = none then .errorInvalidObject
        else if overwrite then .errorObjectIsReadOnly else .errorAlreadyExists,
        id, { tx with lastError := lastError }) := by
  rw [accepted] at h
  rw [Transaction.insert]
  cases hid : documentId doc gen with
  | none => exact ⟨_, _, rfl⟩
  | some p =>
    obtain ⟨id, d⟩ := p
    rw [hid, Option.bind_some] at h
    dsimp only at h ⊢
    have hold : (tx.reader E db).getJsonValue E id =
        Qdocdb.getJsonValue E.backend db tx.snapshotId id := rfl
    rw [hold]
    generalize Qdocdb.getJsonValue E.backend db tx.snapshotId id = docOld at h ⊢
    cases hu : docOld.isUndefined with
    | true => simp [hu] at h
    | false =>
      cases overwrite with
      | false => exact ⟨id, tx.lastError, by simp⟩
      | true =>
        cases hp : isProtected E docOld ignoreReadOnlyValue with
        | false => simp [hu, hp] at h
        | true => exact ⟨id, tx.lastError, by simp⟩

/-- **insert**, when it takes the same document or none on both sides. -/
theorem insert_alike (h : Sim E db₁ db₂ tx₁ tx₂) {doc : QJsonObject} {gen : IdGen}
    {overwrite ignoreReadOnlyValue : Bool}
    (hstored : stored E db₁ tx₂.snapshotId doc gen overwrite ignoreReadOnlyValue =
      stored E db₂ tx₂.snapshotId doc gen overwrite ignoreReadOnlyValue) :
    RunsAlike E tx₁ tx₂
      ((TxOp.insert doc gen overwrite ignoreReadOnlyValue).run E db₁ tx₁)
      ((TxOp.insert doc gen overwrite ignoreReadOnlyValue).run E db₂ tx₂) := by
  rw [stored, stored] at hstored
  rw [TxOp.run, TxOp.run]
  cases h₁ : accepted E db₁ tx₂.snapshotId doc gen overwrite ignoreReadOnlyValue with
  | none =>
    rw [h₁, Option.map_none, eq_comm, Option.map_eq_none_iff] at hstored
    obtain ⟨id₁, e₁, heq₁⟩ := insert_of_refused (h.snapshotId ▸ h₁)
    obtain ⟨id₂, e₂, heq₂⟩ := insert_of_refused hstored
    rw [heq₁, heq₂]
    exact .of_lastError _ e₁ e₂
  | some p =>
    obtain ⟨id, o, isOld₁⟩ := p
    rw [h₁, Option.map_some, eq_comm, Option.map_eq_some_iff] at hstored
    obtain ⟨⟨id', o', isOld₂⟩, h₂, heq⟩ := hstored
    obtain ⟨rfl, rfl⟩ : id' = id ∧ o' = o := by simpa using heq
    rw [insert_of_accepted (h.snapshotId ▸ h₁), insert_of_accepted h₂]
    exact store_alike h id' o' isOld₁ isOld₂ .success

/-! ### removeById -/

/-- Observers and error texts do not matter. -/
theorem RunsAlike.congr {r₁ r₂ : ResultEnum} {tx₁' tx₂' : Transaction} {obs₁ obs₂ : Observers}
    {e₁ e₂ : String} (h : RunsAlike E tx₁ tx₂ (r₁, tx₁') (r₂, tx₂')) :
    RunsAlike E tx₁ tx₂ (r₁, { tx₁' with observers := obs₁, lastError := e₁ })
      (r₂, { tx₂' with observers := obs₂, lastError := e₂ }) := by
  obtain ⟨hr, ws, h₁, h₂⟩ := h
  exact ⟨hr, ws, h₁.congr rfl rfl, h₂.congr rfl rfl⟩

/-- `removeIndexValue` with the key of the entry at hand. -/
def removeLink (E : Env) (db : Store) (tx : Transaction) (key linkKey : QByteArray) :
    ResultEnum × Transaction :=
  match (tx.reader E db).getValue key with
  | .error lastError => (.errorDatabase, { tx with lastError := lastError })
  | .ok linkKeysData =>
    let linkKeys := linkKeysData.unmarshalIndexValue
    if linkKeys.contains linkKey then
      let linkKeys := linkKeys.filter (· ≠ linkKey)
      (.success, tx.writes E
        [if linkKeys = [] then .delete key else .put key (.indexValue linkKeys)])
    else (.success, tx)

/-- Links are removed one after the other, up to the first error. -/
def removeLinks (E : Env) (db : Store) :
    List (QByteArray × QByteArray) → Transaction → ResultEnum × Transaction
  | [], tx => (.success, tx)
  | (key, linkKey) :: links, tx =>
    match removeLink E db tx key linkKey with
    | (.success, tx) => removeLinks E db links tx
    | (_, tx) => (.errorDatabase, tx)

theorem removeLink_alike (h : Sim E db₁ db₂ tx₁ tx₂) (key linkKey : QByteArray) :
    RunsAlike E tx₁ tx₂ (removeLink E db₁ tx₁ key linkKey) (removeLink E db₂ tx₂ key linkKey) := by
  rw [removeLink, removeLink]
  rcases h.getValue_cases key with ⟨b, h₁, h₂⟩ | ⟨e₁, e₂, h₁, h₂⟩
  · rw [h₁, h₂]
    dsimp only
    split
    · exact ⟨rfl, _, wrote_writes _ _, wrote_writes _ _⟩
    · exact .refl .success
  · rw [h₁, h₂]
    exact .of_lastError .errorDatabase e₁ e₂

theorem removeLinks_alike (h : Sim E db₁ db₂ tx₁ tx₂) (links : List (QByteArray × QByteArray)) :
    RunsAlike E tx₁ tx₂ (removeLinks E db₁ links tx₁) (removeLinks E db₂ links tx₂) := by
  induction links generalizing tx₁ tx₂ with
  | nil => exact .refl .success
  | cons link links ih =>
    obtain ⟨key, linkKey⟩ := link
    have hfirst := removeLink_alike h key linkKey
    rw [removeLinks, removeLinks]
    generalize removeLink E db₁ tx₁ key linkKey = result₁ at hfirst ⊢
    generalize removeLink E db₂ tx₂ key linkKey = result₂ at hfirst ⊢
    obtain ⟨r, tx₁'⟩ := result₁
    obtain ⟨r', tx₂'⟩ := result₂
    obtain rfl : r = r' := hfirst.1
    cases r with
    | success => exact hfirst.trans (ih (hfirst.sim h))
    | _ => exact ⟨rfl, hfirst.2⟩

end Sim

section Links

variable {E : Env} {db : Store} {tx : Transaction}

theorem removeLinks_append (links links' : List (QByteArray × QByteArray)) :
    removeLinks E db (links ++ links') tx =
      match removeLinks E db links tx with
      | (.success, tx) => removeLinks E db links' tx
      | (r, tx) => (r, tx) := by
  induction links generalizing tx with
  | nil => rfl
  | cons link links ih =>
    obtain ⟨key, linkKey⟩ := link
    rw [List.cons_append, removeLinks, removeLinks]
    rcases removeLink E db tx key linkKey with ⟨r, tx'⟩
    cases r with
    | success => exact ih
    | _ => rfl

theorem removeIndexValues_eq (n : QString) (linkKey : QByteArray) (values : List QJsonValue) :
    removeIndexValues E db n linkKey values tx = removeLinks E db
      (values.map fun v =>
        (constructIndexValueKey n tx.snapshotId (marshal E.toBinaryData v), linkKey)) tx := by
  induction values generalizing tx with
  | nil => rfl
  | cons v values ih =>
    have hfirst : tx.removeIndexValue E db n v linkKey =
        removeLink E db tx (tx.indexValueKey E n v) linkKey := rfl
    have hs := (@extends_removeIndexValue E db tx n v linkKey).snapshotId
    rw [List.map_cons, removeIndexValues, removeLinks, ← indexValueKey, ← hfirst]
    generalize tx.removeIndexValue E db n v linkKey = result at hs ⊢
    obtain ⟨r, tx'⟩ := result
    cases r with
    | success =>
      dsimp only at hs ⊢
      rw [ih, hs]
    | _ => rfl

/-- The index loop of `removeById` takes the links of the document away, one after the other. -/
theorem removeFromIndexes_eq (doc : QJsonObject) (linkKey : QByteArray)
    (indexes : List (QString × QString)) :
    removeFromIndexes E db doc linkKey indexes tx =
      removeLinks E db (removedLinks E tx.snapshotId indexes doc linkKey) tx := by
  induction indexes generalizing tx with
  | nil => rfl
  | cons index indexes ih =>
    obtain ⟨fieldName, indexName⟩ := index
    have hs := (@extends_removeIndexValues E db tx indexName linkKey
      (indexedValues (getJsonValueByPath (.object doc) fieldName))).snapshotId
    rw [removedLinks, List.flatMap_cons, removeLinks_append, removeFromIndexes,
      ← removeIndexValues_eq]
    dsimp only
    generalize removeIndexValues E db indexName linkKey _ tx = result at hs ⊢
    obtain ⟨r, tx'⟩ := result
    cases r with
    | success =>
      dsimp only at hs ⊢
      rw [ih, hs, removedLinks]
    | _ => rfl

/-- Do what a removal found. -/
def carryOutRemoval (E : Env) (db : Store) (tx : Transaction) :
    Except ResultEnum (List (WriteOp QByteArray Blob) × List (QByteArray × QByteArray)) →
      ResultEnum × Transaction
  | .error r => (r, tx)
  | .ok (ws, links) => removeLinks E db links (tx.writes E ws)

/-- **removeById** does what it finds to do; observers and error text aside. -/
theorem removeById_eq_carryOutRemoval (id : QByteArray) (ignoreReadOnlyValue : Bool) :
    ∃ observers lastError, tx.removeById E db id ignoreReadOnlyValue =
      let result := carryOutRemoval E db tx (removal E db tx.snapshotId
        (tx.reader E db).getIndexes ignoreReadOnlyValue id)
      (result.1, { result.2 with observers := observers, lastError := lastError }) := by
  rw [Transaction.removeById, removal]
  generalize (seekValue E.backend db tx.snapshotId id).getD .init = scan
  dsimp only
  cases scan.jsonValue with
  | object doc =>
    dsimp only
    by_cases hp : isProtected E (.object doc) ignoreReadOnlyValue = true
    · rw [if_pos hp, if_pos hp]
      exact ⟨tx.observers, tx.lastError, rfl⟩
    · rw [if_neg hp, if_neg hp, getIndexes_writes removeVersion_key_ne_indexesKey,
        removeFromIndexes_eq, carryOutRemoval]
      rw [show (tx.writes E (removeVersion id tx.snapshotId scan)).snapshotId = tx.snapshotId
        from rfl]
      generalize removeLinks E db _ _ = result
      obtain ⟨r, tx'⟩ := result
      cases r with
      | success => exact ⟨tx'.observers.update (.removed E doc), tx'.lastError, rfl⟩
      | _ => exact ⟨tx'.observers, tx'.lastError, rfl⟩
  | _ => exact ⟨tx.observers, _, rfl⟩

end Links

section Sim

variable {E : Env} {db₁ db₂ : Store} {tx₁ tx₂ : Transaction}

/-- **removeById**, when it finds the same to do on both sides. -/
theorem removeById_alike (h : Sim E db₁ db₂ tx₁ tx₂) {id : QByteArray} {ignoreReadOnlyValue : Bool}
    (hid : SameRemoval E db₁ db₂ tx₂.snapshotId (tx₂.reader E db₂).getIndexes
      ignoreReadOnlyValue id) :
    RunsAlike E tx₁ tx₂ (tx₁.removeById E db₁ id ignoreReadOnlyValue)
      (tx₂.removeById E db₂ id ignoreReadOnlyValue) := by
  obtain ⟨obs₁, e₁, heq₁⟩ :=
    @removeById_eq_carryOutRemoval E db₁ tx₁ id ignoreReadOnlyValue
  obtain ⟨obs₂, e₂, heq₂⟩ :=
    @removeById_eq_carryOutRemoval E db₂ tx₂ id ignoreReadOnlyValue
  rw [heq₁, heq₂, h.snapshotId, h.getIndexes, hid]
  dsimp only
  refine RunsAlike.congr ?_
  cases removal E db₂ tx₂.snapshotId (tx₂.reader E db₂).getIndexes ignoreReadOnlyValue id with
  | error r => exact .refl r
  | ok p =>
    obtain ⟨ws, links⟩ := p
    have hw₁ := wrote_writes (E := E) tx₁ ws
    have hw₂ := wrote_writes (E := E) tx₂ ws
    have hwrites : RunsAlike E tx₁ tx₂ (.success, tx₁.writes E ws) (.success, tx₂.writes E ws) :=
      ⟨rfl, ws, hw₁, hw₂⟩
    exact hwrites.trans (removeLinks_alike (h.wrote hw₁ hw₂) links)

theorem removeByIds_alike (h : Sim E db₁ db₂ tx₁ tx₂) {ids : List QByteArray}
    (hids : ∀ id ∈ ids,
      SameRemoval E db₁ db₂ tx₂.snapshotId (tx₂.reader E db₂).getIndexes false id) :
    RunsAlike E tx₁ tx₂ (removeByIds E db₁ ids tx₁) (removeByIds E db₂ ids tx₂) := by
  induction ids generalizing tx₁ tx₂ with
  | nil => exact .refl .success
  | cons id ids ih =>
    have hfirst := removeById_alike h (hids id List.mem_cons_self)
    have hext := @extends_removeById E db₂ tx₂ id false
    rw [removeByIds, removeByIds]
    generalize tx₁.removeById E db₁ id false = result₁ at hfirst ⊢
    generalize tx₂.removeById E db₂ id false = result₂ at hfirst hext ⊢
    obtain ⟨r, tx₁'⟩ := result₁
    obtain ⟨r', tx₂'⟩ := result₂
    obtain rfl : r = r' := hfirst.1
    cases r with
    | success =>
      refine hfirst.trans (ih (hfirst.sim h) ?_)
      rw [hext.snapshotId, hext.indexes]
      exact fun id' hid' => hids id' (List.mem_cons_of_mem _ hid')
    | _ => exact hfirst

/-! ### remove and set -/

theorem SetPlan.eq_of_cons {plan plan' : SetPlan} {p p' : QByteArray × QJsonObject}
    (h : { plan with stored := p :: plan.stored } =
      { plan' with stored := p' :: plan'.stored }) : p = p' ∧ plan = plan' := by
  obtain ⟨ids, stored, failed⟩ := plan
  obtain ⟨ids', stored', failed'⟩ := plan'
  obtain ⟨rfl, hstored, rfl⟩ := SetPlan.mk.inj h
  obtain ⟨rfl, rfl⟩ := List.cons.inj hstored
  exact ⟨rfl, rfl⟩

/-- The document loop of `set`, when it comes to the same plan on both sides. -/
theorem setDocuments_alike (h : Sim E db₁ db₂ tx₁ tx₂) (query : QJsonObject)
    (reply : List QJsonValue) (docs : List (QJsonValue × IdGen)) (ids : List QByteArray)
    (hplan : setPlan E db₁ tx₂.snapshotId query reply docs ids =
      setPlan E db₂ tx₂.snapshotId query reply docs ids) :
    (setDocuments E db₁ query reply docs ids tx₁).2.1 =
        (setDocuments E db₂ query reply docs ids tx₂).2.1 ∧
      RunsAlike E tx₁ tx₂
        ((setDocuments E db₁ query reply docs ids tx₁).1,
          (setDocuments E db₁ query reply docs ids tx₁).2.2)
        ((setDocuments E db₂ query reply docs ids tx₂).1,
          (setDocuments E db₂ query reply docs ids tx₂).2.2) := by
  induction docs generalizing tx₁ tx₂ ids with
  | nil => exact ⟨rfl, .refl .success⟩
  | cons p docs ih =>
    obtain ⟨v, gen⟩ := p
    cases v with
    | object doc =>
      rw [setPlan, setPlan] at hplan
      rw [setDocuments, setDocuments]
      cases hreply : reply.find? fun v => v.eq (.object doc) with
      | some v =>
        rw [hreply] at hplan
        exact ih h _ hplan
      | none =>
        rw [hreply] at hplan
        dsimp only at hplan ⊢
        cases hquery : checkQuery E query (.object doc) with
        | none => exact ⟨rfl, .refl .errorQuery⟩
        | some valid =>
          rw [hquery] at hplan
          cases valid with
          | false => exact ih h _ hplan
          | true =>
            dsimp only at hplan ⊢
            cases hacc₁ : accepted E db₁ tx₂.snapshotId doc gen true false with
            | none =>
              cases hacc₂ : accepted E db₂ tx₂.snapshotId doc gen true false with
              | none =>
                obtain ⟨id₁, e₁, heq₁⟩ := insert_of_refused (h.snapshotId ▸ hacc₁)
                obtain ⟨id₂, e₂, heq₂⟩ := insert_of_refused hacc₂
                rw [heq₁, heq₂]
                by_cases hid : documentId doc gen = none
                · rw [if_pos hid]
                  exact ⟨rfl, .of_lastError _ e₁ e₂⟩
                · rw [if_neg hid]
                  exact ⟨rfl, .of_lastError _ e₁ e₂⟩
              | some p =>
                rw [hacc₁, hacc₂] at hplan
                cases congrArg SetPlan.stored hplan
            | some p =>
              obtain ⟨id, o, isOld₁⟩ := p
              cases hacc₂ : accepted E db₂ tx₂.snapshotId doc gen true false with
              | none =>
                rw [hacc₁, hacc₂] at hplan
                cases congrArg SetPlan.stored hplan
              | some p =>
                obtain ⟨id', o', isOld₂⟩ := p
                rw [hacc₁, hacc₂] at hplan
                obtain ⟨hhead, htail⟩ := SetPlan.eq_of_cons hplan
                obtain ⟨rfl, rfl⟩ := Prod.mk.inj hhead
                rw [insert_of_accepted (h.snapshotId ▸ hacc₁), insert_of_accepted hacc₂]
                have hstore := store_alike h id o isOld₁ isOld₂ .success
                have hs := (@extends_store E db₂ tx₂ id o isOld₂).snapshotId
                obtain ⟨hids, hrest⟩ := ih (hstore.sim h) (ids.filter (· ≠ id)) (by rw [hs, htail])
                exact ⟨hids, hstore.trans hrest⟩
    | _ => exact ih h _ hplan

/-- **set**, when it finds the same, comes to the same plan and the removals behind it are the
same on both sides. -/
theorem set_alike (h : Sim E db₁ db₂ tx₁ tx₂) {query : QJsonObject}
    {docs : List (QJsonValue × IdGen)} {reply : List (QJsonValue × QByteArray)} {plan : SetPlan}
    (hreply₁ : (find E (tx₁.reader E db₁) query []).2 = reply)
    (hreply₂ : (find E (tx₂.reader E db₂) query []).2 = reply)
    (hplan₁ : setPlan E db₁ tx₂.snapshotId query (reply.map Prod.fst) docs (reply.map Prod.snd) =
      plan)
    (hplan₂ : setPlan E db₂ tx₂.snapshotId query (reply.map Prod.fst) docs (reply.map Prod.snd) =
      plan)
    (hids : plan.failed = false → ∀ id ∈ plan.ids,
      SameRemoval E db₁ db₂ tx₂.snapshotId (tx₂.reader E db₂).getIndexes false id) :
    RunsAlike E tx₁ tx₂ (tx₁.set E db₁ query docs) (tx₂.set E db₂ query docs) := by
  obtain ⟨hsame, hloop⟩ := setDocuments_alike h query (reply.map Prod.fst) docs
    (reply.map Prod.snd) (hplan₁.trans hplan₂.symm)
  have hcarries := @setDocuments_carriesOut E db₂ tx₂ query (reply.map Prod.fst) docs
    (reply.map Prod.snd)
  rw [Transaction.set, Transaction.set, hreply₁, hreply₂]
  rw [hplan₂] at hcarries
  generalize setDocuments E db₁ query _ docs _ tx₁ = result₁ at hsame hloop ⊢
  generalize setDocuments E db₂ query _ docs _ tx₂ = result₂ at hsame hloop hcarries ⊢
  obtain ⟨r, ids, tx₁'⟩ := result₁
  obtain ⟨r', ids', tx₂'⟩ := result₂
  obtain rfl : ids = ids' := hsame
  obtain rfl : r = r' := hloop.1
  cases r with
  | success =>
    obtain rfl : ids = plan.ids := hcarries.ids rfl
    refine hloop.trans (removeByIds_alike (hloop.sim h) ?_)
    rw [hcarries.extends'.snapshotId, hcarries.extends'.indexes]
    exact hids (hcarries.success_iff.mp rfl)
  | _ => exact hloop

/-- **remove**, when it finds the same ids and each of them comes to the same. -/
theorem remove_alike (h : Sim E db₁ db₂ tx₁ tx₂) {query : QJsonObject}
    (hr : (find E (tx₁.reader E db₁) query []).1 = (find E (tx₂.reader E db₂) query []).1)
    (hids : (find E (tx₂.reader E db₂) query []).1 = .success →
      (find E (tx₁.reader E db₁) query []).2.map Prod.snd =
        (find E (tx₂.reader E db₂) query []).2.map Prod.snd ∧
      ∀ id ∈ (find E (tx₂.reader E db₂) query []).2.map Prod.snd,
        SameRemoval E db₁ db₂ tx₂.snapshotId (tx₂.reader E db₂).getIndexes false id) :
    RunsAlike E tx₁ tx₂ (tx₁.remove E db₁ query) (tx₂.remove E db₂ query) := by
  rw [Transaction.remove, Transaction.remove]
  generalize find E (tx₁.reader E db₁) query [] = result₁ at hr hids ⊢
  generalize find E (tx₂.reader E db₂) query [] = result₂ at hr hids ⊢
  obtain ⟨r, reply₁⟩ := result₁
  obtain ⟨r', reply₂⟩ := result₂
  obtain rfl : r = r' := hr
  cases r with
  | success =>
    obtain ⟨hsame, hremovals⟩ := hids rfl
    dsimp only at hsame hremovals ⊢
    rw [hsame]
    exact removeByIds_alike h hremovals
  | _ => exact .refl _

end Sim

/-! ## The run -/

section Run

variable {E : Env} {db : Store} {tx : Transaction} {σ : Collection}

/-- The transaction over `db` reads the content of the collection. -/
structure KeepsUp (E : Env) (db : Store) (tx : Transaction) (σ : Collection) : Prop where
  content : ∃ ws, tx.kvdb = KVTransaction.new.writes E.backend ws ∧ db.applyLog ws = σ.db
  snapshotId : tx.snapshotId = σ.snapshotId

theorem keepsUp_newTransaction : KeepsUp E σ.db σ.newTransaction σ :=
  ⟨⟨[], rfl, rfl⟩, rfl⟩

theorem KeepsUp.sim (h : KeepsUp E db tx σ) : Sim E db σ.db tx σ.newTransaction := by
  obtain ⟨ws, hk, hlog⟩ := h.content
  exact ⟨⟨ws, [], hk, rfl, hlog⟩, h.snapshotId⟩

/-- **One operation**: in a transaction that reads the content of the collection it does what
it does in one of its own, when it comes to the same. -/
theorem run_alike (hin : KeepsUp E db tx σ) {op : TxOp} (hop : ComesToSame E db σ op) :
    RunsAlike E tx σ.newTransaction (op.run E db tx) (op.run E σ.db σ.newTransaction) := by
  have h := hin.sim
  have hindexes : (σ.newTransaction.reader E σ.db).getIndexes = storedIndexes σ.db :=
    Collection.getIndexes_newTransaction.trans Collection.getIndexes_reader
  cases op with
  | insert doc gen overwrite ignoreReadOnlyValue => exact insert_alike h hop
  | removeById id ignoreReadOnlyValue =>
    refine removeById_alike h ?_
    rw [hindexes]
    exact hop
  | remove query =>
    obtain ⟨hr, hids⟩ := hop
    refine remove_alike h ?_ ?_
    · rw [find_sim h]
      exact hr
    · rw [find_sim h, hindexes]
      exact hids
  | set query docs =>
    obtain ⟨hreply, hplan, hids⟩ := hop
    refine set_alike h ((congrArg Prod.snd (find_sim h query)).trans hreply) rfl hplan rfl ?_
    rw [hindexes]
    exact hids
  | createIndex fieldName indexName => exact hop.elim

/-- Committing in order is what the transaction promises. -/
theorem CommitsInOrder.commitInOrder {ws : List (WriteOp QByteArray Blob)}
    (h : CommitsInOrder E db tx) (hw : tx.kvdb = KVTransaction.new.writes E.backend ws) :
    CommitInOrder E.backend db ws := by
  refine commitInOrder_of_forall fun hB k hk => ?_
  obtain ⟨hthere, hput⟩ := h hB k (by rw [hw, KVTransaction.isDeleted_writes, hk]; rfl)
  exact ⟨hthere, KVTransaction.notMem_cache_writes_iff.mp (hw ▸ hput)⟩

theorem CommitsInOrder.db_writeTransaction {ws : List (WriteOp QByteArray Blob)}
    (h : CommitsInOrder E σ.db tx) (hw : tx.kvdb = KVTransaction.new.writes E.backend ws) :
    (σ.writeTransaction E tx).2.db = σ.db.applyLog ws := by
  rw [(Collection.writeTransaction_spec hw).1.db]
  exact (h.commitInOrder hw).content

/-- **Step**: after an operation that comes to the same, and that is committed in order when it
has a transaction of its own, the transaction reads the content of the collection again. -/
theorem KeepsUp.transact (h : KeepsUp E db tx σ) {op : TxOp} (hop : ComesToSame E db σ op)
    (hcommit : CommitsInOrder E σ.db (op.run E σ.db σ.newTransaction).2) :
    KeepsUp E db (op.run E db tx).2 (σ.transact E op).2 := by
  obtain ⟨-, ws, hw, hw'⟩ := run_alike h hop
  obtain ⟨ws₀, hk, hlog⟩ := h.content
  refine ⟨⟨ws₀ ++ ws, hw.kvdb_eq hk, ?_⟩, ?_⟩
  · rw [SortedMap.applyLog_append, hlog]
    exact (hcommit.db_writeTransaction hw'.kvdb).symm
  · rw [hw.snapshotId, h.snapshotId, Collection.snapshotId_transact]

/-- **The results** agree up to the first failure. -/
theorem upToFailure_results (h : KeepsUp E db tx σ) {ops : List TxOp}
    (hops : Undisturbed E db σ ops) :
    upToFailure (TxOp.results E db tx ops) = upToFailure (σ.results E ops) := by
  induction ops generalizing tx σ with
  | nil => rfl
  | cons op ops ih =>
    obtain ⟨hop, hrest⟩ := hops
    rw [TxOp.results, Collection.results, upToFailure, upToFailure, (run_alike h hop).1]
    by_cases hr : (op.run E σ.db σ.newTransaction).1 = .success
    · obtain ⟨hcommit, hrest⟩ := hrest hr
      rw [if_pos hr, if_pos hr, ih (h.transact hop hcommit) hrest]
    · rw [if_neg hr, if_neg hr]

/-- **The content** that the transaction reads is that of the collection, if none fails. -/
theorem KeepsUp.runAll (h : KeepsUp E db tx σ) {ops : List TxOp} (hops : Undisturbed E db σ ops)
    (hall : ∀ r ∈ TxOp.results E db tx ops, r = .success) :
    KeepsUp E db (TxOp.runAll E db ops tx) (σ.transactEach E ops) := by
  induction ops generalizing tx σ with
  | nil => exact h
  | cons op ops ih =>
    obtain ⟨hop, hrest⟩ := hops
    rw [TxOp.results, List.forall_mem_cons] at hall
    obtain ⟨hr, hall⟩ := hall
    obtain ⟨hcommit, hrest⟩ := hrest ((run_alike h hop).1 ▸ hr)
    exact ih (h.transact hop hcommit) hrest hall

end Run

/-- **A transaction is a batch** of operations that come to the same in the committed store as
after the operations before them, when it commits in order. -/
theorem batchAgrees_of_undisturbed {E : Env} {σ : Collection} {ops : List TxOp}
    (h : Undisturbed E σ.db σ ops)
    (hcommit : CommitsInOrder E σ.db (TxOp.runAll E σ.db ops σ.newTransaction)) :
    BatchAgrees E σ ops where
  results := upToFailure_results keepsUp_newTransaction h
  content hall := by
    obtain ⟨ws, hk, hlog⟩ := (keepsUp_newTransaction.runAll h hall).content
    rw [← hlog]
    exact hcommit.db_writeTransaction hk

/-- `b` is inserted and `a` removed in one transaction. -/
theorem batchAgrees_insertB_removeA : BatchAgrees (Env.plain .levelDB) (insertedA .levelDB)
    [.insertField "b" "n" .null, .removeById (bytes "a") false] := by
  have hcommits : ∀ db tx, CommitsInOrder (Env.plain .levelDB) db tx := fun _ _ h => by cases h
  refine batchAgrees_of_undisturbed ⟨rfl, fun _ => ⟨hcommits _ _, ?_, fun _ =>
    ⟨hcommits _ _, trivial⟩⟩⟩ (hcommits _ _)
  exact show SameRemoval _ _ _ _ _ _ _ from rfl

/-- Inserting a document twice goes through in one transaction, because the second insertion
does not see the first. -/
theorem not_batchAgrees :
    ¬ ∀ (E : Env) (σ : Collection) (ops : List TxOp), Reachable E (fun _ _ => True) σ →
      (∀ op ∈ ops, ∀ f n, op ≠ .createIndex f n) → BatchAgrees E σ ops := by
  intro h
  have hagrees := (h (Env.plain .levelDB) _ [.insertField "a" "n" .null, .insertField "a" "n" .null]
    .opened (by simp [TxOp.insertField])).results
  revert hagrees
  decide

end Qdocdb
