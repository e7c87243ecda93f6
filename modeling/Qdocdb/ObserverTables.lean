import Qdocdb.ObserverIds
import Qdocdb.Operations
import Qdocdb.Replies

/-!
# Observer tables

An observer stands in three tables: the server's `observeClient` and `observeCollection`,
and the table of its collection. Two handlers bring them apart. `clientRemoved` leaves the
entries of the client's observers in `observeCollection`, and a commit puts an observer that
was taken back since the transaction was opened into its collection again, because the
transaction has a copy of the table. Without these two, the tables name the same observers
in every state, each with a connected client (`observerTables_of_reachable`).
-/

namespace Qdocdb

/-! ## Loops over the observers -/

@[simp] theorem Observers.mem_update {observers : Observers} {body : Observer → Observer} {id : ℤ} :
    id ∈ observers.update body ↔ id ∈ observers := by
  rw [← AList.lookup_isSome, Observers.lookup_update, Option.isSome_map, AList.lookup_isSome]

namespace Transaction

variable {E : Env} {db : Store} {tx : Transaction}

/-- The transactions have copies of the same observers. -/
def SameObservers (tx tx' : Transaction) : Prop := ∀ id, id ∈ tx'.observers ↔ id ∈ tx.observers

theorem SameObservers.of_eq {tx' : Transaction} (h : tx'.observers = tx.observers) :
    SameObservers tx tx' :=
  fun id => by rw [h]

theorem SameObservers.refl (tx : Transaction) : SameObservers tx tx := .of_eq rfl

theorem SameObservers.trans {tx' tx'' : Transaction} (h : SameObservers tx tx')
    (h' : SameObservers tx' tx'') : SameObservers tx tx'' :=
  fun id => (h' id).trans (h id)

theorem sameObservers_insert (doc : QJsonObject) (gen : IdGen)
    (overwrite ignoreReadOnlyValue : Bool) :
    SameObservers tx (tx.insert E db doc gen overwrite ignoreReadOnlyValue).2.2 := by
  cases h : accepted E db tx.snapshotId doc gen overwrite ignoreReadOnlyValue with
  | none =>
    obtain ⟨r, id, lastError, -, heq⟩ := insert_of_accepted_eq_none h
    rw [heq]
    exact .of_eq rfl
  | some p =>
    rw [insert_of_accepted h]
    intro id
    rw [observers_store, Observers.mem_update]

theorem sameObservers_removeById (id : QByteArray) (ignoreReadOnlyValue : Bool) :
    SameObservers tx (tx.removeById E db id ignoreReadOnlyValue).2 := by
  cases h : removable E db tx.snapshotId id ignoreReadOnlyValue with
  | none =>
    obtain ⟨r, lastError, -, heq⟩ := removeById_of_removable_eq_none h
    rw [heq]
    exact .of_eq rfl
  | some p =>
    have hobservers := @observers_removeFromIndexes E db
      (tx.writes E (removeVersion id tx.snapshotId p.2)) p.1
      (constructDocumentLinkKey id (p.2.snapshotId.getD 0)) (tx.reader E db).getIndexes
    rw [removeById_eq h]
    split
    · rename_i tx' heq
      rw [heq] at hobservers
      intro id
      rw [Observers.mem_update]
      exact SameObservers.of_eq hobservers id
    · rename_i r tx' _ heq
      rw [heq] at hobservers
      exact .of_eq hobservers

theorem sameObservers_removeByIds (ids : List QByteArray) :
    SameObservers tx (removeByIds E db ids tx).2 := by
  induction ids generalizing tx with
  | nil => exact .refl tx
  | cons id ids ih =>
    have hfirst := @sameObservers_removeById E db tx id false
    rw [removeByIds]
    split
    · rename_i tx' heq
      rw [heq] at hfirst
      exact hfirst.trans ih
    · rename_i r tx' _ heq
      rw [heq] at hfirst
      exact hfirst

theorem sameObservers_setDocuments (query : QJsonObject) (reply : List QJsonValue)
    (docs : List (QJsonValue × IdGen)) (ids : List QByteArray) :
    SameObservers tx (setDocuments E db query reply docs ids tx).2.2 := by
  induction docs generalizing ids tx with
  | nil => exact .refl tx
  | cons doc docs ih =>
    obtain ⟨v, gen⟩ := doc
    cases v with
    | object doc =>
      have hfirst := @sameObservers_insert E db tx doc gen true false
      rw [setDocuments]
      split
      · exact ih _
      · split
        · exact .refl tx
        · exact ih _
        · split
          · rename_i heq
            rw [heq] at hfirst
            exact hfirst.trans (ih _)
          · rename_i heq
            rw [heq] at hfirst
            exact hfirst
    | _ => exact ih ids

theorem observers_addIndexValue (indexName : QString) (v : QJsonValue) (id : QByteArray) :
    (tx.addIndexValue E db indexName v id).observers = tx.observers := by
  rw [addIndexValue_eq]
  split <;> rfl

theorem observers_indexDocuments (fieldName indexName : QString)
    (docs : List (QJsonValue × QByteArray)) :
    (indexDocuments E db fieldName indexName docs tx).observers = tx.observers := by
  induction docs generalizing tx with
  | nil => rfl
  | cons doc docs ih =>
    rw [indexDocuments, ih]
    split
    · exact observers_addIndexValue _ _ _
    · rfl

theorem sameObservers_createIndex (fieldName indexName : QString) :
    SameObservers tx (tx.createIndex E db fieldName indexName).2 := by
  rw [createIndex]
  dsimp only
  split
  · exact .refl tx
  · exact .of_eq (observers_indexDocuments _ _ _)

/-- **An operation** changes the replies of the observers, never which observers there are. -/
theorem sameObservers_run (op : TxOp) : SameObservers tx (op.run E db tx).2 := by
  cases op with
  | insert doc gen overwrite ignoreReadOnlyValue => exact sameObservers_insert _ _ _ _
  | removeById id ignoreReadOnlyValue => exact sameObservers_removeById _ _
  | remove query =>
    rw [TxOp.run, remove]
    split
    · exact sameObservers_removeByIds _
    · exact .refl tx
  | set query docs =>
    have hdocs := @sameObservers_setDocuments E db tx query
      ((find E (tx.reader E db) query []).2.map Prod.fst) docs
      ((find E (tx.reader E db) query []).2.map Prod.snd)
    rw [TxOp.run, Transaction.set]
    split
    · rename_i heq
      rw [heq] at hdocs
      exact hdocs.trans (sameObservers_removeByIds _)
    · rename_i heq
      rw [heq] at hdocs
      exact hdocs
  | createIndex fieldName indexName => exact sameObservers_createIndex _ _

end Transaction

namespace Collection

variable {E : Env} {σ : Collection}

@[simp] theorem mem_observers_emitObservers {id : ℤ} :
    id ∈ σ.emitObservers.observers ↔ id ∈ σ.observers :=
  Observers.mem_update

@[simp] theorem mem_observers_reloadObservers {id : ℤ} :
    id ∈ (σ.reloadObservers E).observers ↔ id ∈ σ.observers := by
  rw [reloadObservers, mem_observers_emitObservers]
  exact Observers.mem_update

/-- A commit adds the observers of the transaction. -/
theorem mem_observers_writeTransaction {tx : Transaction} {id : ℤ}
    (hsuccess : (σ.writeTransaction E tx).1 = .success) :
    id ∈ (σ.writeTransaction E tx).2.observers ↔ id ∈ tx.observers ∨ id ∈ σ.observers := by
  rw [← AList.lookup_isSome, lookup_writeTransaction hsuccess, Option.isSome_map]
  split
  · simp [*]
  · simp [*, AList.lookup_isSome]

/-- A commit that fails leaves the observers alone. -/
theorem observers_writeTransaction_of_failed {tx : Transaction}
    (hfailed : (σ.writeTransaction E tx).1 ≠ .success) :
    (σ.writeTransaction E tx).2.observers = σ.observers := by
  rw [writeTransaction] at hfailed ⊢
  split
  · rename_i heq
    rw [heq] at hfailed
    exact absurd rfl hfailed
  · rfl

/-- A commit of a transaction whose observers are all still there. -/
theorem mem_observers_writeTransaction_of_subset {tx : Transaction} {id : ℤ}
    (hknown : ∀ id ∈ tx.observers, id ∈ σ.observers) :
    id ∈ (σ.writeTransaction E tx).2.observers ↔ id ∈ σ.observers := by
  by_cases hsuccess : (σ.writeTransaction E tx).1 = .success
  · rw [mem_observers_writeTransaction hsuccess]
    exact ⟨fun h => h.elim (hknown id) fun h => h, .inr⟩
  · rw [observers_writeTransaction_of_failed hsuccess]

/-- The transaction was opened on the collection as it is. -/
theorem mem_observers_writeTransaction_of_same {tx : Transaction} {id : ℤ}
    (h : Transaction.SameObservers σ.newTransaction tx) :
    id ∈ (σ.writeTransaction E tx).2.observers ↔ id ∈ σ.observers :=
  mem_observers_writeTransaction_of_subset fun id hid => (h id).mp hid

/-- The result of a commit, for a transaction with the observers of the collection. -/
theorem mem_observers_of_writeTransaction {tx : Transaction} {r : ResultEnum} {σ' : Collection}
    (hobservers : tx.observers = σ.observers) (h : σ.writeTransaction E tx = (r, σ')) {id : ℤ} :
    id ∈ σ'.observers ↔ id ∈ σ.observers := by
  have hmem := @mem_observers_writeTransaction_of_same E σ tx id (.of_eq hobservers)
  rwa [h] at hmem

@[simp] theorem observers_noteSnapshotsError : (σ.noteSnapshotsError E).observers = σ.observers := by
  rw [noteSnapshotsError]
  split <;> rfl

theorem mem_observers_newSnapshot (snapshotName : QString) {id : ℤ} :
    id ∈ (σ.newSnapshot E snapshotName).2.observers ↔ id ∈ σ.observers := by
  rw [newSnapshot]
  split
  · rfl
  · split
    · rfl
    · dsimp only
      split
      · rename_i heq
        exact mem_observers_of_writeTransaction (by rfl) heq
      · rename_i heq
        exact mem_observers_of_writeTransaction (by rfl) heq

theorem mem_observers_revertToSnapshot (snapshotName : QString) {id : ℤ} :
    id ∈ (σ.revertToSnapshot E snapshotName).2.observers ↔ id ∈ σ.observers := by
  rw [revertToSnapshot]
  split
  · simp
  · split
    · rfl
    · dsimp only
      split
      · rename_i heq
        rw [mem_observers_reloadObservers]
        exact mem_observers_of_writeTransaction (by rfl) heq
      · rename_i heq
        exact mem_observers_of_writeTransaction (by rfl) heq

theorem mem_observers_removeSnapshot {snapshotName : QString} {p : ResultEnum × Collection}
    (h : σ.removeSnapshot E snapshotName = some p) {id : ℤ} :
    id ∈ p.2.observers ↔ id ∈ σ.observers := by
  rw [removeSnapshot] at h
  split at h
  · obtain rfl := Option.some.inj h
    simp
  · split at h
    · obtain rfl := Option.some.inj h
      rfl
    · obtain ⟨sIds, -, rfl⟩ := Option.map_eq_some_iff.mp h
      dsimp only
      split
      · rename_i heq
        rw [mem_observers_reloadObservers]
        exact mem_observers_of_writeTransaction (by rfl) heq
      · rename_i heq
        exact mem_observers_of_writeTransaction (by rfl) heq

end Collection

namespace QDocdbServer

variable {E : ServerEnv} {s s' : QDocdbServer} {client : ClientId} {o : QDocdbLinkObject}

theorem observers_afterReaderOf (c : OpenCollection) (snapshotName : QString) :
    (afterReaderOf E c snapshotName).coll.observers = c.coll.observers := by
  rw [afterReaderOf]
  split <;> simp

/-- A snapshot operation that returned. -/
theorem coll_of_snapshotReply {c c' : OpenCollection} {r : Reply}
    {result : Option (ResultEnum × Collection)} (h : snapshotReply c result = some (c', r)) :
    ∃ p, result = some p ∧ c'.coll = p.2 := by
  obtain ⟨p, hp, heq⟩ := Option.map_eq_some_iff.mp h
  exact ⟨p, hp, by rw [← (Prod.mk.inj heq).1]⟩

/-- The requests that concern only a collection keep its observers. -/
theorem mem_observers_onCollection {c c' : OpenCollection} {snapshotName : QString}
    {type : LinkObjectType} {r : Reply}
    (h : onCollection E c snapshotName type = some (c', r)) {id : ℤ} :
    id ∈ c'.coll.observers ↔ id ∈ c.coll.observers := by
  have hreads : ∀ r', some (afterReaderOf E c snapshotName, r') = some (c', r) →
      (id ∈ c'.coll.observers ↔ id ∈ c.coll.observers) := by
    intro r' h
    rw [← (Prod.mk.inj (Option.some.inj h)).1, observers_afterReaderOf]
  have hsame : ∀ r', some (c, r') = some (c', r) →
      (id ∈ c'.coll.observers ↔ id ∈ c.coll.observers) := by
    intro r' h
    rw [← (Prod.mk.inj (Option.some.inj h)).1]
  cases type with
  | find query queryOptions => exact hreads _ h
  | findOne query queryOptions => exact hreads _ h
  | count query queryOptions => exact hreads _ h
  | getModified => exact hreads _ h
  | createIndex fieldName indexName =>
    rw [onCollection] at h
    dsimp only at h
    split at h
    · rw [← (Prod.mk.inj (Option.some.inj h)).1]
      exact Collection.mem_observers_writeTransaction_of_same
        (Transaction.sameObservers_createIndex _ _)
    · exact hsame _ h
  | getSnapshotList =>
    rw [onCollection] at h
    split at h
    · exact hsame _ h
    · rw [← (Prod.mk.inj (Option.some.inj h)).1]
  | newSnapshot =>
    rw [onCollection] at h
    split at h
    · exact hsame _ h
    · obtain ⟨p, hp, hcoll⟩ := coll_of_snapshotReply h
      rw [hcoll, ← Option.some.inj hp]
      exact Collection.mem_observers_newSnapshot _
  | revertToSnapshot =>
    rw [onCollection] at h
    split at h
    · exact hsame _ h
    · obtain ⟨p, hp, hcoll⟩ := coll_of_snapshotReply h
      rw [hcoll, ← Option.some.inj hp]
      exact Collection.mem_observers_revertToSnapshot _
  | removeSnapshot =>
    rw [onCollection] at h
    split at h
    · exact hsame _ h
    · obtain ⟨p, hp, hcoll⟩ := coll_of_snapshotReply h
      rw [hcoll]
      exact Collection.mem_observers_removeSnapshot hp
  | _ => exact hsame _ h

/-! ## The property -/

/-- An observe request asks for no particular id. -/
def PrefersNothing (o : QDocdbLinkObject) : Prop :=
  ∀ query queryOptions preferedId, o.type = .observe query queryOptions preferedId → preferedId = -1

/-- The events of a run in which observers get their ids from the counter. -/
def WithoutPreference : QDocdbServer → Event → Prop
  | _, .received _ o => PrefersNothing o
  | _, _ => True

/-- The three tables name the same observers, each with a connected client; and a commit
does not bring back an observer that has no client any more. -/
structure ObserverTables (E : ServerEnv) (ok : QDocdbServer → Event → Prop) (s : QDocdbServer) :
    Prop where
  collection : ∀ id, (s.observeClient id).isSome ↔ (s.observeCollection id).isSome
  active : ∀ id, (s.observeClient id).isSome ↔ ∃ place, s.Active place id
  connected : ∀ id owner, s.observeClient id = some owner → ∃ client ∈ s.clients, owner = some client
  gone : ∀ client o txId s', o.type = .writeTransaction txId → ok s (.received client o) →
    s.handle E (.received client o) = some s' →
    ∀ id, s.observeClient id = none → ∀ place, ¬ s'.Active place id

/-- The observers that a transaction copied when it was opened are all still there. -/
def KnowsObservers (s : QDocdbServer) (txId : ℤ) : Prop :=
  ∀ t c, s.transactions.lookup txId = some t → s.collection? t.place = some c →
    ∀ id ∈ t.tx.observers, id ∈ c.coll.observers

/-- Nothing brings the tables apart: the counter of the ids does not overflow, no observer
was taken back since the transaction to commit was opened, and a client that disconnects
has no observers. -/
def Undisturbed (s : QDocdbServer) : Event → Prop
  | .received _ o =>
    (∀ query queryOptions preferedId, o.type = .observe query queryOptions preferedId →
      s.nextNumber + 1 < 2 ^ 31) ∧
    ∀ txId, o.type = .writeTransaction txId → s.KnowsObservers txId
  | .unlocked client => s.nextNumber + (s.links client).unlockWait.length < 2 ^ 31
  | .disconnected client => ∀ id, s.observeClient id ≠ some (some client)
  | _ => True

/-! ## Invariant -/

/-- What holds of the tables in every state. -/
structure TablesInvariant (s : QDocdbServer) : Prop where
  counter : 1 ≤ s.nextNumber ∧ s.nextNumber < 2 ^ 31
  bounded : ∀ id, (s.observeClient id).isSome → id < s.nextNumber
  active : ∀ place id, s.Active place id ↔ s.observeCollection id = some place
  collection : ∀ id, (s.observeClient id).isSome ↔ (s.observeCollection id).isSome
  connected : ∀ id owner, s.observeClient id = some owner → ∃ client ∈ s.clients, owner = some client
  waiting : ∀ client, ∀ o ∈ (s.links client).unlockWait,
    PrefersNothing o ∧ o.type.urlNeeded = true

/-- `s'` has the observers of `s`, the same clients and the same waiting requests. -/
structure SameTables (s s' : QDocdbServer) : Prop where
  active : ∀ place id, s'.Active place id ↔ s.Active place id
  observeClient : s'.observeClient = s.observeClient
  observeCollection : s'.observeCollection = s.observeCollection
  nextNumber : s'.nextNumber = s.nextNumber
  clients : s'.clients = s.clients
  unlockWait : ∀ client, (s'.links client).unlockWait = (s.links client).unlockWait

/-- The same collections have the same observers. -/
theorem SameTables.of_collections
    (hcollections : ∀ place, s'.collection? place = s.collection? place)
    (hclient : s'.observeClient = s.observeClient)
    (hcollection : s'.observeCollection = s.observeCollection)
    (hnumber : s'.nextNumber = s.nextNumber) (hclients : s'.clients = s.clients)
    (hlinks : ∀ client, (s'.links client).unlockWait = (s.links client).unlockWait) :
    SameTables s s' :=
  ⟨fun place id => by rw [Active, Active, hcollections], hclient, hcollection, hnumber,
    hclients, hlinks⟩

theorem SameTables.refl (s : QDocdbServer) : SameTables s s :=
  .of_collections (fun _ => rfl) rfl rfl rfl rfl fun _ => rfl

theorem SameTables.trans {s'' : QDocdbServer} (h : SameTables s s') (h' : SameTables s' s'') :
    SameTables s s'' where
  active place id := (h'.active place id).trans (h.active place id)
  observeClient := h'.observeClient.trans h.observeClient
  observeCollection := h'.observeCollection.trans h.observeCollection
  nextNumber := h'.nextNumber.trans h.nextNumber
  clients := h'.clients.trans h.clients
  unlockWait client := (h'.unlockWait client).trans (h.unlockWait client)

theorem TablesInvariant.of_sameTables (hI : TablesInvariant s) (h : SameTables s s') :
    TablesInvariant s' where
  counter := by simpa [h.nextNumber] using hI.counter
  bounded := by simpa [h.observeClient, h.nextNumber] using hI.bounded
  active := by simpa [h.active, h.observeCollection] using hI.active
  collection := by simpa [h.observeClient, h.observeCollection] using hI.collection
  connected := by simpa [h.observeClient, h.clients] using hI.connected
  waiting := by simpa [h.unlockWait] using hI.waiting

/-! ## Requests that keep the tables -/

/-- A collection that was put back with its observers. -/
theorem sameTables_setCollection {place : Place} {c c' : OpenCollection}
    (hc : s.collection? place = some c)
    (hobservers : ∀ id, id ∈ c'.coll.observers ↔ id ∈ c.coll.observers) :
    SameTables s (s.setCollection place c') where
  active place' id := by
    rw [active_setCollection]
    split
    · rename_i h
      subst h
      rw [hobservers, Active, hc]
      simp
    · rfl
  observeClient := rfl
  observeCollection := rfl
  nextNumber := rfl
  clients := rfl
  unlockWait _ := rfl

theorem sameTables_openCollectionOf : SameTables s (s.openCollectionOf E o) where
  active _ _ := active_openCollectionOf
  observeClient := observeClient_openCollectionOf
  observeCollection := observeCollection_openCollectionOf
  nextNumber := nextNumber_openCollectionOf
  clients := clients_openCollectionOf
  unlockWait client := by rw [links_openCollectionOf]

theorem sameTables_openDatabaseOf : SameTables s (s.openDatabaseOf E o) := by
  obtain ⟨databases, heq, hsame⟩ := openDatabaseOf_eq E s o
  refine ⟨fun place id => by rw [Active, Active, hsame place], ?_, ?_, ?_, ?_, ?_⟩ <;> simp [heq]

theorem sameTables_send {message : Message} : SameTables s (s.send client message) :=
  .of_collections (fun _ => rfl) rfl rfl rfl rfl fun _ => rfl

theorem sameTables_writeTransaction {txId : ℤ} (h : s.KnowsObservers txId) :
    SameTables s (s.writeTransaction E txId).1 := by
  rw [writeTransaction]
  split
  · exact .refl s
  · rename_i t ht
    dsimp only
    have herase : SameTables s { s with transactions := s.transactions.erase txId } :=
      .of_collections (fun _ => rfl) rfl rfl rfl rfl fun _ => rfl
    split
    · exact herase
    · rename_i c hc
      refine herase.trans (sameTables_setCollection hc fun id => ?_)
      exact Collection.mem_observers_writeTransaction_of_subset (h t c ht hc)

theorem sameTables_discardTransaction (txId : ℤ) : SameTables s (s.discardTransaction txId).1 := by
  rw [discardTransaction]
  split <;> exact .of_collections (fun _ => rfl) rfl rfl rfl rfl fun _ => rfl

theorem sameTables_operation (txId : ℤ) (op : TxOp) : SameTables s (s.operation E txId op).1 := by
  rw [operation]
  split
  · exact .refl s
  · split <;> exact .of_collections (fun _ => rfl) rfl rfl rfl rfl fun _ => rfl

theorem sameTables_autoCommit {place : Place} {c : OpenCollection}
    (hc : s.collection? place = some c) (op : TxOp) :
    SameTables s (s.autoCommit E place c op).1 :=
  sameTables_setCollection hc fun _ =>
    Collection.mem_observers_writeTransaction_of_same (Transaction.sameObservers_run op)

theorem sameTables_exclusiveLock (dbName : QString) :
    SameTables s (s.exclusiveLock client dbName).1 := by
  rw [exclusiveLock]
  split <;> exact .of_collections (fun _ => rfl) rfl rfl rfl rfl fun _ => rfl

theorem sameTables_unlock (dbName : QString) : SameTables s (s.unlock client dbName).1 := by
  rw [unlock]
  split
  · exact .refl s
  · split
    · refine .of_collections (fun _ => rfl) rfl rfl rfl rfl fun c => ?_
      rw [emitUnlocked]
      dsimp only
      split <;> rfl
    · exact .refl s

/-! ## Requests that change the tables -/

/-- An observer that is gone from all three tables. -/
theorem TablesInvariant.of_erased (hI : TablesInvariant s) {observeId : ℤ}
    (hactive : ∀ place id, s'.Active place id ↔ s.Active place id ∧ id ≠ observeId)
    (hclient : s'.observeClient = Function.update s.observeClient observeId none)
    (hcollection : s'.observeCollection = Function.update s.observeCollection observeId none)
    (hnumber : s'.nextNumber = s.nextNumber) (hclients : s'.clients = s.clients)
    (hlinks : s'.links = s.links) : TablesInvariant s' where
  counter := by simpa [hnumber] using hI.counter
  bounded id := by
    by_cases hid : id = observeId
    · simp [hclient, hid]
    · simpa [hclient, hid, hnumber] using hI.bounded id
  active place id := by
    rw [hactive, hcollection, hI.active]
    by_cases hid : id = observeId
    · simp [hid]
    · simp [hid]
  collection id := by
    by_cases hid : id = observeId
    · simp [hclient, hcollection, hid]
    · simpa [hclient, hcollection, hid] using hI.collection id
  connected id owner := by
    by_cases hid : id = observeId
    · simp [hclient, hid]
    · simpa [hclient, hid, hclients] using hI.connected id owner
  waiting := by simpa [hlinks] using hI.waiting

/-- An observer with the next id of the counter, in all three tables. -/
theorem TablesInvariant.of_added (hI : TablesInvariant s) {place : Place}
    (hactive : ∀ place' id, s'.Active place' id ↔
      place' = place ∧ id = s.nextNumber ∨ s.Active place' id)
    (hclient : s'.observeClient =
      Function.update s.observeClient s.nextNumber (some (some client)))
    (hcollection : s'.observeCollection =
      Function.update s.observeCollection s.nextNumber (some place))
    (hnumber : s'.nextNumber = s.nextNumber + 1) (hbound : s.nextNumber + 1 < 2 ^ 31)
    (hclients : s'.clients = s.clients) (hmem : client ∈ s.clients)
    (hlinks : s'.links = s.links) : TablesInvariant s' where
  counter := by
    have := hI.counter
    omega
  bounded id := by
    by_cases hid : id = s.nextNumber
    · intro _
      omega
    · intro h
      rw [hclient, Function.update_of_ne hid] at h
      have := hI.bounded id h
      omega
  active place' id := by
    rw [hactive, hcollection, hI.active]
    by_cases hid : id = s.nextNumber
    · -- the next id is not in use
      have hfree : s.observeCollection id = none := by
        cases h : s.observeCollection id with
        | none => rfl
        | some p =>
          have := hI.bounded id ((hI.collection id).mpr (by rw [h]; rfl))
          omega
      simp [hid, hid ▸ hfree, eq_comm]
    · simp [hid]
  collection id := by
    by_cases hid : id = s.nextNumber
    · simp [hclient, hcollection, hid]
    · simpa [hclient, hcollection, hid] using hI.collection id
  connected id owner := by
    by_cases hid : id = s.nextNumber
    · rw [hclient, hid, Function.update_self]
      rintro h
      exact ⟨client, hclients ▸ hmem, (Option.some.inj h).symm⟩
    · simpa [hclient, hid, hclients] using hI.connected id owner
  waiting := by simpa [hlinks] using hI.waiting

theorem TablesInvariant.unobserve (hI : TablesInvariant s) (observeId : ℤ) :
    TablesInvariant (s.unobserve client observeId).1 ∧
      (s.unobserve client observeId).1.nextNumber = s.nextNumber := by
  rw [QDocdbServer.unobserve]
  split
  · exact ⟨hI, rfl⟩
  · rename_i place hplace
    split
    · -- an id with a collection has a client
      rename_i hnone
      have h := (hI.collection observeId).mpr (by rw [hplace]; rfl)
      rw [hnone] at h
      cases h
    · split
      · obtain ⟨databases, dbMap, pending, heq⟩ : ∃ databases dbMap pending,
            s.unobserveAt place observeId =
              { s with databases := databases, dbMap := dbMap, observeQueryChanged := pending } := by
          rw [unobserveAt]
          split <;> exact ⟨_, _, _, rfl⟩
        have hactive : ∀ place' id, (s.unobserveAt place observeId).Active place' id ↔
            s.Active place' id ∧ id ≠ observeId := by
          intro place' id
          rw [active_unobserveAt]
          refine and_congr_right fun h => ⟨fun hne hid => ?_, fun hne _ => hne⟩
          -- the observer is active where the table says
          rw [hI.active, hid, hplace] at h
          exact hne (Option.some.inj h).symm hid
        rw [heq] at hactive
        dsimp only
        rw [heq]
        exact ⟨hI.of_erased hactive rfl rfl rfl rfl rfl, rfl⟩
      · exact ⟨hI, rfl⟩

theorem TablesInvariant.observe (hI : TablesInvariant s) (hclient : client ∈ s.clients)
    {c : OpenCollection} (hc : s.collection? o.place = some c) (query queryOptions : QJsonObject)
    (hnumber : s.nextNumber + 1 < 2 ^ 31) :
    TablesInvariant (s.observe E client o.place c query queryOptions (-1)).1 ∧
      (s.observe E client o.place c query queryOptions (-1)).1.nextNumber = s.nextNumber + 1 := by
  have hids : observeIds c.coll (-1) s.nextNumber = (s.nextNumber, s.nextNumber + 1) := by
    have := hI.counter
    rw [observeIds, if_pos (.inl rfl), int32_of_lt (by omega) hnumber]
  obtain ⟨σ, reply, hobserve, -, hmem⟩ :=
    exists_observe (E.env.on c.backend) c.coll query queryOptions (-1) s.nextNumber
  rw [hids] at hobserve hmem
  rw [QDocdbServer.observe, hobserve]
  refine ⟨hI.of_added ?_ rfl rfl rfl hnumber rfl hclient rfl, rfl⟩
  intro place' id
  have hset : Active (s.setCollection o.place { c with coll := σ }) place' id ↔ _ :=
    active_setCollection
  refine hset.trans ?_
  split
  · rename_i hplace
    subst hplace
    simp [hmem, Active, hc]
  · rename_i hplace
    simp [hplace]

/-! ## Runs -/

/-- What can be said of a request when it is received, while `n` other ones are waiting. -/
def FitRequest (n : ℕ) (s : QDocdbServer) (o : QDocdbLinkObject) : Prop :=
  PrefersNothing o ∧
    (∀ query queryOptions preferedId, o.type = .observe query queryOptions preferedId →
      s.nextNumber + n + 1 < 2 ^ 31) ∧
    ∀ txId, o.type = .writeTransaction txId → s.KnowsObservers txId

/-- **Step** of a request. -/
theorem TablesInvariant.served (hI : TablesInvariant s) {n : ℕ} (hfit : FitRequest n s o)
    (hclient : client ∈ s.clients) (hbound : s.nextNumber + n < 2 ^ 31)
    {p : QDocdbServer × Reply} (h : Served E s client o p) :
    TablesInvariant p.1 ∧ p.1.nextNumber + n < 2 ^ 31 := by
  have hkeeps : ∀ {s'}, SameTables s s' → TablesInvariant s' ∧ s'.nextNumber + n < 2 ^ 31 :=
    fun h => ⟨hI.of_sameTables h, by rwa [h.nextNumber]⟩
  have hopen := @sameTables_openCollectionOf E s o
  cases h with
  | writeTransaction ht => exact hkeeps (sameTables_writeTransaction (hfit.2.2 _ ht))
  | discardTransaction ht => exact hkeeps (sameTables_discardTransaction _)
  | unobserve ht =>
    obtain ⟨hI', hnumber⟩ := hI.unobserve _
    exact ⟨hI', by rwa [hnumber]⟩
  | cannotOpenDatabase hurl => exact hkeeps (.refl s)
  | exclusiveLock ht => exact hkeeps (sameTables_exclusiveLock _)
  | unlock ht => exact hkeeps (sameTables_unlock _)
  | emptyCollectionName hurl => exact hkeeps (.refl s)
  | cannotOpenCollection hurl => exact hkeeps hopen
  | autoCommit ht hc => exact hkeeps (hopen.trans (sameTables_autoCommit hc _))
  | operation ht hne => exact hkeeps (hopen.trans (sameTables_operation _ _))
  | newTransaction ht hc =>
    exact hkeeps (hopen.trans (.of_collections (fun _ => rfl) rfl rfl rfl rfl fun _ => rfl))
  | observe ht hc =>
    obtain rfl := hfit.1 _ _ _ ht
    have hlt := hfit.2.1 _ _ _ ht
    obtain ⟨hI', hnumber⟩ := (hI.of_sameTables hopen).observe (hopen.clients ▸ hclient) hc _ _
      (by rw [hopen.nextNumber]; omega)
    refine ⟨hI', ?_⟩
    rw [hnumber, hopen.nextNumber]
    omega
  | onCollection hurl hdoc hnew hobserve hc hr =>
    exact hkeeps (hopen.trans (sameTables_setCollection hc fun _ => mem_observers_onCollection hr))

/-- A request that waits needs a url, so it does not commit. -/
theorem FitRequest.of_urlNeeded {n : ℕ} (hprefers : PrefersNothing o)
    (hurl : o.type.urlNeeded = true) (hbound : s.nextNumber + n + 1 < 2 ^ 31) :
    FitRequest n s o :=
  ⟨hprefers, fun _ _ _ _ => hbound, fun txId ht => by rw [ht] at hurl; cases hurl⟩

theorem FitRequest.openDatabaseOf {n : ℕ} (h : FitRequest n s o) :
    FitRequest n (s.openDatabaseOf E o) o := by
  refine ⟨h.1, fun q qo i ht => ?_, fun txId ht => ?_⟩
  · rw [sameTables_openDatabaseOf.nextNumber]
    exact h.2.1 q qo i ht
  · have heq : s.openDatabaseOf E o = s := by
      rw [QDocdbServer.openDatabaseOf, ht]
      rfl
    rw [heq]
    exact h.2.2 txId ht

theorem TablesInvariant.newConnection (hI : TablesInvariant s) :
    TablesInvariant (s.newConnection client) where
  counter := hI.counter
  bounded := hI.bounded
  active := hI.active
  collection := hI.collection
  connected id owner h := by
    obtain ⟨c, hc, rfl⟩ := hI.connected id owner h
    exact ⟨c, List.mem_append_left _ hc, rfl⟩
  waiting c := by
    rw [links_newConnection, Function.update_apply]
    split
    · exact fun o ho => by cases ho
    · exact hI.waiting c

/-- A client without observers leaves the tables as they are. -/
theorem TablesInvariant.clientRemoved (hI : TablesInvariant s)
    (hnone : ∀ id, s.observeClient id ≠ some (some client)) :
    TablesInvariant (s.clientRemoved client) := by
  have hclient : (s.clientRemoved client).observeClient = s.observeClient := by
    funext id
    exact if_neg (hnone id)
  refine ⟨hI.counter, ?_, fun place id => ?_, ?_, fun id owner h => ?_, fun c => ?_⟩
  · rw [hclient]
    exact hI.bounded
  · rw [active_clientRemoved]
    simp only [hnone id, false_and, not_false_eq_true, and_true]
    exact hI.active place id
  · rw [hclient]
    exact hI.collection
  · rw [hclient] at h
    obtain ⟨c, hc, rfl⟩ := hI.connected id owner h
    refine ⟨c, List.mem_filter.mpr ⟨hc, ?_⟩, rfl⟩
    have hne : c ≠ client := by
      rintro rfl
      exact hnone id h
    simpa using hne
  · rw [links_clientRemoved, Function.update_apply]
    split
    · exact fun o ho => by cases ho
    · exact hI.waiting c

/-- A client that disconnects brings the tables apart exactly when it has an observer. -/
theorem TablesInvariant.clientRemoved_iff (hI : TablesInvariant s) :
    TablesInvariant (s.clientRemoved client) ↔ ∀ id, s.observeClient id ≠ some (some client) := by
  refine ⟨fun hI' id hid => ?_, hI.clientRemoved⟩
  have hsome : ((s.clientRemoved client).observeCollection id).isSome :=
    (hI.collection id).mp (by rw [hid]; rfl)
  rw [← hI'.collection id] at hsome
  simp [QDocdbServer.clientRemoved, hid] at hsome

/-- A commit that goes through brings the tables apart exactly when an observer of the
transaction is gone. -/
theorem TablesInvariant.writeTransaction_iff (hI : TablesInvariant s) {txId : ℤ}
    {t : OpenTransaction} {c : OpenCollection} (ht : s.transactions.lookup txId = some t)
    (hc : s.collection? t.place = some c)
    (hsuccess : (c.coll.writeTransaction (E.env.on c.backend) t.tx).1 = .success) :
    TablesInvariant (s.writeTransaction E txId).1 ↔ s.KnowsObservers txId := by
  refine ⟨fun hI' t' c' ht' hc' id hid => ?_,
    fun h => hI.of_sameTables (sameTables_writeTransaction h)⟩
  obtain rfl := Option.some.inj (ht.symm.trans ht')
  obtain rfl := Option.some.inj (hc.symm.trans hc')
  have hwrite : (s.writeTransaction E txId).1 =
      { s with transactions := s.transactions.erase txId }.setCollection t.place
        { c with coll := (c.coll.writeTransaction (E.env.on c.backend) t.tx).2 } := by
    rw [writeTransaction, ht]
    have hc₁ : { s with transactions := s.transactions.erase txId }.collection? t.place = some c := hc
    simp only [hc₁]
  rw [hwrite] at hI'
  have hactive := (hI'.active t.place id).mp (active_setCollection.mpr (by
    rw [if_pos rfl]
    exact (Collection.mem_observers_writeTransaction hsuccess).mpr (.inl hid)))
  obtain ⟨c', hc', hmem⟩ := (hI.active t.place id).mpr hactive
  obtain rfl := Option.some.inj (hc.symm.trans hc')
  exact hmem

/-- What is allowed: ids from the counter, and nothing that brings the tables apart. -/
def KeepsTables (s : QDocdbServer) (e : Event) : Prop := WithoutPreference s e ∧ Undisturbed s e

theorem unlockWait_setLink {link : QDocdbLinkBase} (hI : TablesInvariant s)
    (h : ∀ o ∈ link.unlockWait, PrefersNothing o ∧ o.type.urlNeeded = true) :
    TablesInvariant (s.setLink client link) := by
  refine { hI with waiting := fun c o ho => ?_ }
  rcases mem_unlockWait_setLink ho with ⟨-, ho⟩ | ⟨-, ho⟩
  · exact h o ho
  · exact hI.waiting c o ho

theorem serverInvariant_tables :
    ServerInvariant E KeepsTables TablesInvariant
      (fun _ n s => TablesInvariant s ∧ s.nextNumber + n < 2 ^ 31)
      (fun n s _ o => FitRequest n s o) where
  started := {
    counter := by decide
    bounded := fun _ h => by cases h
    active := fun place id => ⟨fun ⟨_, h, _⟩ => (by cases h), fun h => (by cases h)⟩
    collection := fun _ => .rfl
    connected := fun _ _ h => by cases h
    waiting := fun _ _ h => by cases h }
  connected hI _ := hI.newConnection
  disconnected hI hok _ := hI.clientRemoved hok.2
  notified hI _ := by
    rw [observeChanged]
    split <;> exact { hI with }
  arrived hI hok _ := by
    refine ⟨⟨hI, by simpa using hI.counter.2⟩, hok.1, fun q qo i ht => ?_, hok.2.2⟩
    simpa using hok.2.1 q qo i ht
  taken hI hok _ := ⟨unlockWait_setLink hI (hI.waiting _), hok.2⟩
  dequeued {s client n o rest} hJ _ hq := by
    obtain ⟨hI, hbound⟩ := hJ
    have hhead := hI.waiting client o (hq ▸ List.mem_cons_self)
    have hnumber : (s.dequeue client).nextNumber = s.nextNumber := rfl
    refine ⟨⟨unlockWait_setLink hI fun o ho => ?_, ?_⟩, .of_urlNeeded hhead.1 hhead.2 ?_⟩
    · exact hI.waiting client o (List.mem_of_mem_tail ho)
    · omega
    · omega
  done hJ _ := hJ.1
  opened hJ hfit := by
    have hsame := @sameTables_openDatabaseOf E
    exact ⟨⟨hJ.1.of_sameTables hsame, by rw [hsame.nextNumber]; exact hJ.2⟩, hfit.openDatabaseOf⟩
  waits hJ hfit _ hw := by
    refine ⟨unlockWait_setLink hJ.1 fun o ho => ?_, hJ.2⟩
    rcases List.mem_append.mp ho with ho | ho
    · exact hJ.1.waiting _ o ho
    · rw [List.mem_singleton.mp ho]
      exact ⟨hfit.1, (mustWait_iff.mp hw).1⟩
  served hJ hfit hc _ h := by
    obtain ⟨hI, hbound⟩ := hJ.1.served hfit hc hJ.2 h
    exact ⟨hI.of_sameTables sameTables_send, hbound⟩

/-- A commit leaves the server's own tables alone. -/
theorem observeClient_of_writeTransaction {txId : ℤ} (ht : o.type = .writeTransaction txId)
    (h : s.receive E client o = some s') : s'.observeClient = s.observeClient := by
  have hopen : s.openDatabaseOf E o = s := by
    rw [openDatabaseOf, ht]
    rfl
  have hwait : s.mustWait client o = false := by
    rw [mustWait, ht]
    rfl
  rw [receive, hopen] at h
  simp only [hwait, Bool.false_eq_true, if_false] at h
  rw [serve, ht] at h
  obtain rfl := Option.some.inj h
  rw [writeTransaction]
  split
  · rfl
  · dsimp only
    split <;> rfl

/-- **The tables of the observers agree** in any run in which nothing brings them apart. -/
theorem observerTables_of_reachable (h : ServerReachable E KeepsTables s) :
    ObserverTables E KeepsTables s := by
  have hI := serverInvariant_tables.reachable h
  have hactive : ∀ {s : QDocdbServer}, TablesInvariant s →
      ∀ id, (s.observeClient id).isSome ↔ ∃ place, s.Active place id := by
    intro s hI id
    rw [hI.collection, Option.isSome_iff_exists]
    simp only [hI.active]
  refine ⟨hI.collection, hactive hI, hI.connected, ?_⟩
  intro client o txId s' ht hok hs id hnone place ha
  have hI' := serverInvariant_tables.handle hI hok hs
  rw [handle] at hs
  split at hs
  · have hsome := (hactive hI' id).mpr ⟨place, ha⟩
    rw [observeClient_of_writeTransaction ht hs, hnone] at hsome
    cases hsome
  · cases hs

/-- A client observes a collection. -/
theorem observerTables_observedC :
    ∃ s, handleAll emptyServerEnv .init observedC = some s ∧
      ObserverTables emptyServerEnv KeepsTables s := by
  have hconnected : ServerReachable emptyServerEnv KeepsTables
      ((init.newConnection 1).newConnection 2) :=
    .handled (e := .connected 2) (.handled (e := .connected 1) .started ⟨trivial, trivial⟩ rfl)
      ⟨trivial, trivial⟩ rfl
  have hkeeps : KeepsTables ((init.newConnection 1).newConnection 2)
      (.received 1 (observeIn 0 (qs "c") (-1))) := by
    refine ⟨?_, ?_, ?_⟩
    · rintro query queryOptions preferedId ht
      cases ht
      rfl
    · intro _ _ _ _
      decide
    · rintro txId ht
      cases ht
  obtain ⟨s, hs⟩ := Option.isSome_iff_exists.mp
    (show (handleAll emptyServerEnv .init observedC).isSome = true by decide)
  have hobserved : ((init.newConnection 1).newConnection 2).handle emptyServerEnv
      (.received 1 (observeIn 0 (qs "c") (-1))) = some s := by
    have heq : handleAll emptyServerEnv .init observedC =
        (((init.newConnection 1).newConnection 2).handle emptyServerEnv
          (.received 1 (observeIn 0 (qs "c") (-1)))).bind some := rfl
    rw [← hs, heq, Option.bind_fun_some]
  exact ⟨s, hs, observerTables_of_reachable (.handled hconnected hkeeps hobserved)⟩

/-- An observer is taken back after a transaction was opened and before it is committed. -/
theorem not_observerTables :
    ¬ ∀ (E : ServerEnv) (s : QDocdbServer), ServerReachable E WithoutPreference s →
      ObserverTables E WithoutPreference s := by
  intro h
  let events : List Event := [.connected 1, .received 1 (observeIn 0 (qs "c") (-1)),
    .received 1 (requestD 1 .newTransaction), .received 1 (requestD 2 (.unobserve 1)),
    .received 1 (requestD 3 (.writeTransaction 0))]
  have hevents : ∀ s, ∀ e ∈ events, WithoutPreference s e := by
    intro s
    simp [events, WithoutPreference, PrefersNothing, observeIn, requestD]
  obtain ⟨s, hs, hp⟩ := exists_of_handleAll (E := emptyServerEnv)
    (p := fun s => (s.observeClient 1).isNone &&
      (s.collection? (qs "D", qs "c")).any fun c => (c.coll.observers.lookup 1).isSome)
    hevents (by decide)
  simp only [Bool.and_eq_true, Option.isNone_iff_eq_none, Option.any_eq_true] at hp
  obtain ⟨hnone, c, hc, hlookup⟩ := hp
  have hsome := ((h _ s hs).active 1).mpr ⟨_, c, hc, AList.lookup_isSome.mp hlookup⟩
  rw [hnone] at hsome
  cases hsome

end QDocdbServer

end Qdocdb
