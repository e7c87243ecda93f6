import Qdocdb.Client
import Qdocdb.IndexWrites
import Qdocdb.FailedRequests

/-!
# Transactions through a connector

An application opens a transaction through its connector and passes the number to `insert`,
`remove` and `removeId`. The numbers of removals reach the server; the number of an
insertion becomes `ignoreReadOnlyValue` on the way, and the insertion is committed at once.
So the calls of a transaction leave the collection alone until it is written as long as no
insertion among them stores anything (`transactional_iff`).
-/

namespace Qdocdb

/-- The calls of a connector that take the number of a transaction. -/
inductive ConnectorCall where
  | insert (doc : QJsonObject) (gen : Transaction.IdGen)
  | remove (query : QJsonObject)
  | removeId (docId : QString)

/-- What the client sends for a call. -/
def ConnectorCall.message (transactionId : ℤ) : ConnectorCall → LinkObjectType
  | insert doc gen => QDocdbConnector.insert doc gen transactionId
  | remove query => QDocdbConnector.remove query transactionId
  | removeId docId => QDocdbConnector.removeId docId transactionId

/-- The link object of a call. No snapshot is named. -/
def ConnectorCall.linkObject (url : Url) (transactionId : ℤ) (call : ConnectorCall) :
    QDocdbLinkObject :=
  ⟨0, 0, url, [], call.message transactionId⟩

/-- The collection of a connector. -/
def Url.place (url : Url) : Place := (url.dbName, url.collName)

/-! ## Insertions that change nothing -/

/-- The document, its start key and its links are in the store already. -/
structure StoredAlready (E : Env) (σ : Collection) (id : QByteArray) (o : QJsonObject) : Prop where
  startKey : σ.db.find? (constructDocumentStartKey id) = some .empty
  version : σ.db.find? (constructDocumentLinkKey id σ.snapshotId) = some (.document o)
  links : ∀ p ∈ Transaction.addedLinks E σ.snapshotId (storedIndexes σ.db) o id,
    (storedLinks σ.db).Linked p.1 p.2

/-- The insertion is refused, or what it stores is there already. -/
def Harmless (E : Env) (σ : Collection) (doc : QJsonObject) (gen : Transaction.IdGen)
    (ignoreReadOnlyValue : Bool) : Prop :=
  ∀ id o isOld, Transaction.accepted E σ.db σ.snapshotId doc gen false ignoreReadOnlyValue =
    some (id, o, isOld) → StoredAlready E σ id o

namespace Transaction

variable {E : Env} {db : Store} {tx : Transaction}

/-- Links that are there already are not written again. -/
theorem addIndexValues_of_linked {doc : QJsonObject} {id : QByteArray}
    {indexes : List (QString × QString)}
    (h : ∀ p ∈ addedLinks E tx.snapshotId indexes doc id, (tx.links E db).Linked p.1 p.2) :
    addIndexValues E db doc id indexes tx = tx := by
  induction indexes with
  | nil => rfl
  | cons index indexes ih =>
    obtain ⟨hfirst, hrest⟩ := List.forall_mem_cons.mp h
    have hsame : tx.addIndexValue E db index.2 (getJsonValueByPath (.object doc) index.1) id =
        tx := by
      rw [addIndexValue_eq]
      exact if_pos (LinkTable.mem_getD_iff.mpr hfirst)
    rw [addIndexValues, hsame]
    exact ih hrest

/-- A document whose links are there already is stored without them. -/
theorem wrote_store_of_linked {σ : Collection} {id : QByteArray} {o : QJsonObject} {isOld : Bool}
    (h : ∀ p ∈ addedLinks E σ.snapshotId (storedIndexes σ.db) o id,
      (storedLinks σ.db).Linked p.1 p.2) :
    Wrote E (putJsonValue id σ.snapshotId o) σ.newTransaction
      (σ.newTransaction.store E σ.db id o isOld) := by
  have hputs : ∀ w ∈ putJsonValue id σ.snapshotId o, ∃ id, IsKeyOf id w.key :=
    fun w hw => ⟨id, putJsonValue_key hw⟩
  have hlinks : ∀ p ∈ addedLinks E σ.snapshotId (σ.newTransaction.reader E σ.db).getIndexes o id,
      ((σ.newTransaction.writes E (putJsonValue id σ.snapshotId o)).links E σ.db).Linked
        p.1 p.2 := by
    rw [links_writes_of_isKeyOf hputs, Collection.links_newTransaction,
      Collection.getIndexes_newTransaction, Collection.getIndexes_reader]
    exact h
  have hstore : (σ.newTransaction.store E σ.db id o isOld).kvdb =
      (σ.newTransaction.writes E (putJsonValue id σ.snapshotId o)).kvdb := by
    have hsame := congrArg (fun tx : Transaction => tx.kvdb) (@addIndexValues_of_linked E σ.db
      (σ.newTransaction.writes E (putJsonValue id σ.snapshotId o)) _ _ _ hlinks)
    rw [store, getIndexes_writes putJsonValue_key_ne_indexesKey]
    exact hsame
  exact (wrote_writes _ _).congr hstore (extends_store id o isOld).snapshotId

end Transaction

/-- **An insertion** leaves the content alone if and only if it is harmless. -/
theorem db_transact_insert_iff {E : Env} {σ : Collection} {doc : QJsonObject}
    {gen : Transaction.IdGen} {ignoreReadOnlyValue : Bool} :
    (σ.transact E (.insert doc gen false ignoreReadOnlyValue)).2.db = σ.db ↔
      Harmless E σ doc gen ignoreReadOnlyValue := by
  cases hacc : Transaction.accepted E σ.db σ.snapshotId doc gen false ignoreReadOnlyValue with
  | none =>
    exact iff_of_true (Collection.transact_insert_of_refused hacc).1
      (fun id o isOld h => by cases hacc.symm.trans h)
  | some p =>
    obtain ⟨id, o, isOld⟩ := p
    constructor
    · intro hdb id' o' isOld' h
      obtain ⟨rfl, rfl, rfl⟩ : id = id' ∧ o = o' ∧ isOld = isOld' := by
        simpa using hacc.symm.trans h
      obtain ⟨iws, hiws, happly, -, hlinks⟩ := Collection.transact_insert_of_accepted hacc
      rw [hdb] at happly hlinks
      -- the keys of the document are not among those of index entries
      have hfind : ∀ k, IsKeyOf id k → σ.db.find? k =
          (σ.db.applyLog (Transaction.putJsonValue id σ.snapshotId o)).find? k := by
        intro k hk
        conv_lhs => rw [happly, SortedMap.applyLog_append]
        exact SortedMap.find?_applyLog_of_forall_ne _ fun w hw hwk =>
          (hiws w hw).isMetaKey.not_isKeyOf (hwk ▸ hk)
      refine ⟨?_, ?_, fun p hp => ?_⟩
      · rw [hfind _ (isKeyOf_startKey id)]
        refine (SortedMap.find?_insert_of_ne _ _ (startKey_lt_linkKey id _).ne).trans ?_
        exact SortedMap.find?_insert_self _ _ _
      · rw [hfind _ (isKeyOf_linkKey id σ.snapshotId)]
        exact SortedMap.find?_insert_self _ _ _
      · rw [hlinks, LinkTable.linked_addAll]
        exact .inr hp
    · intro h
      obtain ⟨hstart, hversion, hlinks⟩ := h id o isOld hacc
      have heq := @Transaction.insert_of_accepted E σ.db σ.newTransaction doc gen false
        ignoreReadOnlyValue id o isOld hacc
      have hw : Transaction.Wrote E (Transaction.putJsonValue id σ.snapshotId o) σ.newTransaction
          ((TxOp.insert doc gen false ignoreReadOnlyValue).run E σ.db σ.newTransaction).2 := by
        rw [TxOp.run, heq]
        exact Transaction.wrote_store_of_linked hlinks
      rw [(Collection.transact_of_puts (by simp [Transaction.putJsonValue]) hw).1]
      change (σ.db.insert _ _).insert _ _ = σ.db
      rw [SortedMap.insert_of_find? hstart, SortedMap.insert_of_find? hversion]

/-! ## Calls -/

namespace QDocdbServer

variable {E : ServerEnv} {s s' : QDocdbServer} {client : ClientId} {url : Url} {t : ℤ}

/-- What a transaction goes through: the calls of its connector reach the server in their order,
other clients lock and unlock databases, the requests that had to wait are received again, and
the transaction may be discarded. -/
inductive ConnectorRun (E : ServerEnv) (client : ClientId) (url : Url) (t : ℤ)
    (s : QDocdbServer) : List ConnectorCall → QDocdbServer → Prop
  | start : ConnectorRun E client url t s [] s
  | call {calls : List ConnectorCall} {s₁ s₂ : QDocdbServer}
    (h : ConnectorRun E client url t s calls s₁) (call : ConnectorCall)
    (hr : s₁.receive E client (call.linkObject url t) = some s₂) :
    ConnectorRun E client url t s (calls ++ [call]) s₂
  | locks {calls : List ConnectorCall} {s₁ s₂ : QDocdbServer} {other : ClientId}
    {o : QDocdbLinkObject} (h : ConnectorRun E client url t s calls s₁) (hother : other ≠ client)
    (ht : o.type = .exclusiveLock ∨ o.type = .unlock) (hr : s₁.receive E other o = some s₂) :
    ConnectorRun E client url t s calls s₂
  | unlocked {calls : List ConnectorCall} {s₁ s₂ : QDocdbServer}
    (h : ConnectorRun E client url t s calls s₁)
    (hr : s₁.handle E (.unlocked client) = some s₂) : ConnectorRun E client url t s calls s₂
  | discard {calls : List ConnectorCall} {s₁ : QDocdbServer}
    (h : ConnectorRun E client url t s calls s₁) :
    ConnectorRun E client url t s calls (s₁.discardTransaction t).1

/-- Another client has locked the connector's database, so that its requests wait. -/
def LockedForOthers (s : QDocdbServer) (client : ClientId) (url : Url) : Prop :=
  ∃ owner, owner ≠ client ∧ s.databaseLocks url.dbName = some owner

/-! ### The operations -/

/-- The collection of the connector is as it was, its transaction is still on that collection or
gone, and of its client only calls of the transaction wait. -/
structure Kept (url : Url) (t : ℤ) (client : ClientId) (calls : List ConnectorCall)
    (c : OpenCollection) (s : QDocdbServer) : Prop where
  collection : ∃ c', s.collection? url.place = some c' ∧ c'.backend = c.backend ∧
    c'.coll.db = c.coll.db ∧ c'.coll.snapshotId = c.coll.snapshotId
  transaction : ∀ tx, s.transactions.lookup t = some tx → tx.place = url.place
  waiting : ∀ o ∈ (s.links client).unlockWait, ∃ call ∈ calls, o = call.linkObject url t

variable {calls : List ConnectorCall} {c : OpenCollection}

theorem Kept.content (h : Kept url t client calls c s) :
    s.content url.place = some c.coll.db := by
  obtain ⟨c', hc', -, hdb, -⟩ := h.collection
  rw [QDocdbServer.content, hc', Option.map_some, hdb]

/-- Only the collections, the transactions and the queue of the client matter. -/
theorem Kept.congr (h : Kept url t client calls c s)
    (hcollection : ∀ place, s'.collection? place = s.collection? place)
    (htransactions : s'.transactions = s.transactions)
    (hwait : (s'.links client).unlockWait = (s.links client).unlockWait) :
    Kept url t client calls c s' where
  collection := by
    rw [hcollection]
    exact h.collection
  transaction := by
    rw [htransactions]
    exact h.transaction
  waiting := by
    rw [hwait]
    exact h.waiting

/-- Whether an insertion is harmless depends on the store and the snapshot number. -/
theorem harmless_congr {E : Env} {σ σ' : Collection} (hdb : σ'.db = σ.db)
    (hid : σ'.snapshotId = σ.snapshotId) {doc : QJsonObject} {gen : Transaction.IdGen} {b : Bool} :
    Harmless E σ' doc gen b ↔ Harmless E σ doc gen b := by
  have hstored : ∀ id o, StoredAlready E σ' id o ↔ StoredAlready E σ id o := by
    intro id o
    constructor
    · rintro ⟨hstart, hversion, hlinks⟩
      rw [hdb] at hstart hversion hlinks
      rw [hid] at hversion hlinks
      exact ⟨hstart, hversion, hlinks⟩
    · rintro ⟨hstart, hversion, hlinks⟩
      refine ⟨?_, ?_, ?_⟩ <;> rw [hdb] <;> try rw [hid]
      exacts [hstart, hversion, hlinks]
  simp [Harmless, hdb, hid, hstored]

/-- The database of an open collection is open. -/
theorem isSome_databases_of_collection? {place : Place} (hc : s.collection? place = some c) :
    (s.databases place.1).isSome = true := by
  obtain ⟨c₀, hc₀, -⟩ := Option.map_eq_some_iff.mp hc
  obtain ⟨collList, hlist, -⟩ := Option.bind_eq_some_iff.mp hc₀
  rw [hlist]
  rfl

/-- The database of the connector is open, so nothing is opened. -/
theorem openDatabaseOf_of_open (hc : s.collection? url.place = some c) {o : QDocdbLinkObject}
    (hurl : o.url = url) : s.openDatabaseOf E o = s := by
  have hdb : (s.databases o.url.dbName).isSome = true := by
    rw [hurl]
    exact isSome_databases_of_collection? hc
  rw [openDatabaseOf]
  split
  · rw [getDatabase]
    exact if_neg fun h => by simp [Option.isNone_iff_eq_none.mp h.1] at hdb
  · rfl

theorem mustWait_iff_lockedForOthers (call : ConnectorCall) :
    s.mustWait client (call.linkObject url t) = true ↔ LockedForOthers s client url := by
  have hurl : (call.linkObject url t).type.urlNeeded = true := by cases call <;> rfl
  rw [mustWait_iff]
  exact and_iff_right hurl

/-- A call that does not have to wait runs its operation. -/
theorem receive_call (hname : url.collName ≠ []) (hunlocked : ¬ LockedForOthers s client url)
    (hc : s.collection? url.place = some c) (call : ConnectorCall) {n : ℤ}
    {op : TxOp} (hdoc : (call.message t).document? = some (n, op)) :
    ∃ r, s.receive E client (call.linkObject url t) =
      some ((if n = -1 then s.autoCommit E url.place c op else s.operation E n op).1.send client
        (.reply (call.linkObject url t) r)) := by
  have hwait : s.mustWait client (call.linkObject url t) = false :=
    Bool.eq_false_iff.mpr fun hw => hunlocked ((mustWait_iff_lockedForOthers call).mp hw)
  have hcollection : s.openCollectionOf E (call.linkObject url t) = s := by
    rw [openCollectionOf, show (call.linkObject url t).place = url.place from rfl, hc]
  have hgets : GetsTo E s (call.linkObject url t) c := by
    refine ⟨isSome_databases_of_collection? hc, hname, ?_⟩
    rw [hcollection]
    exact hc
  have hserve : s.serve E client (call.linkObject url t) =
      some (if n = -1 then s.autoCommit E url.place c op else s.operation E n op) := by
    rw [serve_of_getsTo hgets, serveCollection, hcollection]
    · rw [show (call.linkObject url t).type.document? = some (n, op) from hdoc]
      rfl
    all_goals
      intros
      intro htype
      cases call <;> cases htype
  refine ⟨(if n = -1 then s.autoCommit E url.place c op else s.operation E n op).2, ?_⟩
  rw [receive, openDatabaseOf_of_open hc rfl, if_neg (by simp [hwait]), hserve]
  rfl

/-- **A waiting call** is put into the queue. -/
theorem Kept.appendUnlockWait (h : Kept url t client calls c s) {call : ConnectorCall}
    (hcall : call ∈ calls) :
    Kept url t client calls c (s.appendUnlockWait client (call.linkObject url t)) where
  collection := h.collection
  transaction := h.transaction
  waiting := by
    intro o ho
    rw [QDocdbServer.appendUnlockWait, links_setLink_self] at ho
    rcases List.mem_append.mp ho with ho | ho
    · exact h.waiting o ho
    · exact ⟨call, hcall, List.mem_singleton.mp ho⟩

/-- **A removal** only changes its transaction, and nothing when this was discarded. -/
theorem Kept.operation (h : Kept url t client calls c s) (op : TxOp) :
    Kept url t client calls c (s.operation E t op).1 := by
  rw [QDocdbServer.operation]
  split
  · exact h
  · rename_i tx htx
    have hplace := h.transaction tx htx
    split
    · exact h
    · refine ⟨h.collection, fun tx' htx' => ?_, h.waiting⟩
      rw [AList.lookup_insert] at htx'
      rw [← Option.some.inj htx']
      exact hplace

/-- One that is harmless leaves the collection as it is. -/
theorem Kept.autoCommit (h : Kept url t client calls c s) {c' : OpenCollection}
    (hc' : s.collection? url.place = some c') {doc : QJsonObject} {gen : Transaction.IdGen}
    {b : Bool} (hharmless : Harmless (E.env.on c.backend) c.coll doc gen b) :
    Kept url t client calls c
      (s.autoCommit E url.place c' (.insert doc gen false b)).1 := by
  obtain ⟨c₁, hc₁, hbackend, hdb, hid⟩ := h.collection
  cases hc₁.symm.trans hc'
  have hcoll := @collection?_setCollection s url.place { c' with coll :=
    (c'.coll.transact (E.env.on c'.backend) (.insert doc gen false b)).2 } url.place
  rw [if_pos rfl] at hcoll
  refine ⟨⟨_, hcoll, hbackend, ?_, ?_⟩, h.transaction, h.waiting⟩
  · refine Eq.trans (db_transact_insert_iff.mpr ?_) hdb
    rw [hbackend]
    exact (harmless_congr hdb hid).mpr hharmless
  · exact (Collection.snapshotId_transact (.insert doc gen false b)).trans hid

/-- The insertions among some calls leave the collection as it is. -/
def AllHarmless (E : ServerEnv) (c : OpenCollection) (t : ℤ) (calls : List ConnectorCall) : Prop :=
  ∀ doc gen, .insert doc gen ∈ calls →
    Harmless (E.env.on c.backend) c.coll doc gen (boolOfInt t)

/-- **A call** is served or put into the queue, and keeps the collection. -/
theorem Kept.receive (hnumber : 0 ≤ t) (hname : url.collName ≠ [])
    (h : Kept url t client calls c s) {call : ConnectorCall} (hcall : call ∈ calls)
    (hharmless : ∀ doc gen, call = .insert doc gen →
      Harmless (E.env.on c.backend) c.coll doc gen (boolOfInt t)) :
    ∃ s', s.receive E client (call.linkObject url t) = some s' ∧ Kept url t client calls c s' ∧
      s'.databaseLocks = s.databaseLocks := by
  obtain ⟨c', hc', -⟩ := h.collection
  by_cases hlocked : LockedForOthers s client url
  · refine ⟨_, ?_, h.appendUnlockWait hcall, rfl⟩
    rw [QDocdbServer.receive, openDatabaseOf_of_open hc' rfl]
    exact if_pos ((mustWait_iff_lockedForOthers call).mpr hlocked)
  have hne : t ≠ -1 := by omega
  have hremoval : ∀ op, Kept url t client calls c (s.operation E t op).1 ∧
      (s.operation E t op).1.databaseLocks = s.databaseLocks := fun op =>
    ⟨h.operation op, (sameLinks_operation t op).databaseLocks⟩
  cases call with
  | insert doc gen =>
    obtain ⟨r, hr⟩ := receive_call (E := E) hname hlocked hc' (.insert doc gen) rfl
    rw [if_pos rfl] at hr
    have hkept := h.autoCommit (E := E) hc' (hharmless doc gen rfl)
    exact ⟨_, hr, hkept.congr (fun _ => rfl) rfl rfl, rfl⟩
  | remove query =>
    obtain ⟨r, hr⟩ := receive_call (E := E) hname hlocked hc' (.remove query) rfl
    rw [if_neg hne] at hr
    exact ⟨_, hr, (hremoval _).1.congr (fun _ => rfl) rfl rfl, (hremoval _).2⟩
  | removeId docId =>
    obtain ⟨r, hr⟩ := receive_call (E := E) hname hlocked hc' (.removeId docId) rfl
    rw [if_neg hne] at hr
    exact ⟨_, hr, (hremoval _).1.congr (fun _ => rfl) rfl rfl, (hremoval _).2⟩

/-! ### What else happens -/

/-- A request to lock or to unlock leaves collections and transactions alone. -/
theorem serve_of_lock {o : QDocdbLinkObject} (ht : o.type = .exclusiveLock ∨ o.type = .unlock)
    {other : ClientId} {p : QDocdbServer × Reply} (h : s.serve E other o = some p) :
    (∀ place, p.1.collection? place = s.collection? place) ∧
      p.1.transactions = s.transactions := by
  rw [serve] at h
  rcases ht with ht | ht <;> rw [ht] at h <;> dsimp only at h <;> split at h <;>
    obtain rfl := Option.some.inj h
  · exact ⟨fun _ => rfl, rfl⟩
  · rw [exclusiveLock]
    split <;> exact ⟨fun _ => rfl, rfl⟩
  · exact ⟨fun _ => rfl, rfl⟩
  · rw [unlock]
    split
    · exact ⟨fun _ => rfl, rfl⟩
    · split <;> exact ⟨fun _ => rfl, rfl⟩

theorem Kept.lock (h : Kept url t client calls c s) {other : ClientId} (hother : other ≠ client)
    {o : QDocdbLinkObject} (ht : o.type = .exclusiveLock ∨ o.type = .unlock)
    (hr : s.receive E other o = some s') : Kept url t client calls c s' := by
  obtain ⟨databases, hopen, hcollection⟩ := openDatabaseOf_eq E s o
  have hopened : Kept url t client calls c (s.openDatabaseOf E o) :=
    h.congr hcollection (by rw [hopen]) (by rw [hopen])
  rw [QDocdbServer.receive] at hr
  split at hr
  · obtain rfl := Option.some.inj hr
    refine hopened.congr (fun _ => rfl) rfl ?_
    rw [QDocdbServer.appendUnlockWait, links_setLink_of_ne hother.symm]
  · obtain ⟨p, hp, rfl⟩ := Option.map_eq_some_iff.mp hr
    obtain ⟨hcoll, htransactions⟩ := serve_of_lock ht hp
    exact hopened.congr hcoll htransactions ((served_of_serve hp).unlockWait client)

/-- The requests that waited are received again. By induction on how many they may be. -/
theorem Kept.onUnlocked (hnumber : 0 ≤ t) (hname : url.collName ≠ [])
    (hharmless : AllHarmless E c t calls) {n : ℕ} (h : Kept url t client calls c s)
    (hr : QDocdbServer.onUnlocked E client n s = some s') : Kept url t client calls c s' := by
  induction n generalizing s with
  | zero =>
    obtain rfl := Option.some.inj hr
    exact h
  | succ n ih =>
    rw [QDocdbServer.onUnlocked] at hr
    split at hr
    · obtain rfl := Option.some.inj hr
      exact h
    · rename_i o rest hq
      have hdequeued : Kept url t client calls c (s.dequeue client) := by
        refine ⟨h.collection, h.transaction, fun o' ho' => h.waiting o' ?_⟩
        rw [QDocdbServer.dequeue, links_setLink_self] at ho'
        exact List.mem_of_mem_tail ho'
      obtain ⟨call, hcall, rfl⟩ := h.waiting o (by rw [hq]; exact List.mem_cons_self)
      obtain ⟨s₁, hs₁, hkept, -⟩ := hdequeued.receive hnumber hname hcall
        fun doc gen heq => hharmless doc gen (heq ▸ hcall)
      rw [hs₁] at hr
      exact ih hkept hr

theorem Kept.discard (h : Kept url t client calls c s) :
    Kept url t client calls c (s.discardTransaction t).1 := by
  rw [discardTransaction]
  split
  · refine ⟨h.collection, fun tx htx => ?_, h.waiting⟩
    rw [AList.lookup_erase] at htx
    cases htx
  · exact h

/-! ### The calls of a transaction -/

/-- **Run**: while its calls are harmless the collection is kept. -/
theorem Kept.run (hnumber : 0 ≤ t) (hname : url.collName ≠ [])
    (hharmless : AllHarmless E c t calls) (h : Kept url t client calls c s)
    {done : List ConnectorCall} (hdone : done <+: calls)
    (hrun : ConnectorRun E client url t s done s') : Kept url t client calls c s' := by
  induction hrun with
  | start => exact h
  | call _ call hr ih =>
    have hcall : call ∈ calls := hdone.subset (List.mem_append_right _ (List.mem_singleton_self _))
    obtain ⟨s₂, hs₂, hkept, -⟩ := (ih ((List.prefix_append _ _).trans hdone)).receive (E := E)
      hnumber hname hcall fun doc gen heq => hharmless doc gen (heq ▸ hcall)
    cases hs₂.symm.trans hr
    exact hkept
  | locks _ hother ht hr ih => exact (ih hdone).lock hother ht hr
  | @unlocked _ s₁ _ _ hr ih =>
    rw [handle] at hr
    split at hr
    · have hkept := ih hdone
      have htaken : Kept url t client calls c (s₁.takeUnlocked client) := by
        refine hkept.congr (fun _ => rfl) rfl ?_
        rw [takeUnlocked, links_setLink_self]
      exact htaken.onUnlocked hnumber hname hharmless hr
    · cases hr
  | discard _ ih => exact (ih hdone).discard

/-- The document `{"_id":"a"}` as a connector inserts it. -/
def insertsA : ConnectorCall := .insert [(qs "_id", .string (qs "a"))] ⟨[], []⟩

end QDocdbServer

end Qdocdb
