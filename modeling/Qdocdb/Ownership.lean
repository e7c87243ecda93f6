import Qdocdb.ServerSteps

/-!
# Owners of transactions

The server keeps a transaction under a number, and nothing with it that tells who opened
it: `transactionClient` is read when a client is removed, but no request fills it. So a
request acts on whatever transaction it names, and a transaction stays when its client is
lost. As long as clients name their own transactions only, and close them before they
disconnect, transactions are owned by their clients (`transactionsOwned_of_reachable`).
-/

namespace Qdocdb

/-- The transaction that a reply announces. -/
def Reply.opened? : Reply → Option ℤ
  | ⟨_, .newTransactionReply txId⟩ => some txId
  | _ => none

namespace QDocdbServer

variable {E : ServerEnv} {s s' : QDocdbServer} {client : ClientId} {o : QDocdbLinkObject}

/-! ## Owners -/

/-- What a message says about owners: a transaction was opened for a client. -/
def opened? : ClientId × Message → Option (ℤ × ClientId)
  | (client, .reply _ r) => r.opened?.map fun txId => (txId, client)
  | _ => none

/-- The client that opened a transaction: the last one that was told its number. -/
def ownerOf (s : QDocdbServer) (txId : ℤ) : Option ClientId :=
  ((s.sent.filterMap opened?).reverse.find? fun p => p.1 = txId).map Prod.snd

/-- Every open transaction belongs to a connected client, and a request that names a
transaction changes or closes it only for the client that opened it. -/
structure TransactionsOwned (E : ServerEnv) (s : QDocdbServer) (e : Event) : Prop where
  connected : ∀ txId ∈ s.transactions, ∃ client ∈ s.clients, s.ownerOf txId = some client
  owned : ∀ s₁ client o p txId, Call E s e s₁ client o → s₁.serve E client o = some p →
    o.type.transactionId? = some txId → txId ∈ s₁.transactions →
    p.1.transactions.lookup txId ≠ s₁.transactions.lookup txId → s₁.ownerOf txId = some client

/-- A request that does not have to wait names no open transaction of another client. -/
def NamesOwn (s : QDocdbServer) (client : ClientId) (o : QDocdbLinkObject) : Prop :=
  s.mustWait client o = false → ∀ txId ∈ s.transactions, o.type.transactionId? = some txId →
    s.ownerOf txId = some client

/-- Requests name transactions of their own client, when they arrive and when they waited;
and a client that is lost has no open transaction. -/
def OwnTransactions (s : QDocdbServer) : Event → Prop
  | .received client o => NamesOwn s client o
  | .unlocked client => ∀ o ∈ (s.links client).unlockWait, NamesOwn s client o
  | .disconnected client => ∀ txId ∈ s.transactions, s.ownerOf txId ≠ some client
  | _ => True

theorem ownerOf_send_reply (r : Reply) (txId : ℤ) :
    (s.send client (.reply o r)).ownerOf txId =
      if r.opened? = some txId then some client else s.ownerOf txId := by
  rw [ownerOf, send, List.filterMap_append, List.reverse_append]
  cases h : r.opened? with
  | none => simp [opened?, h, ownerOf]
  | some txId' =>
    by_cases hid : txId' = txId <;> simp [opened?, h, hid, ownerOf]

theorem ownerOf_send_observeData (id : ℤ) (reply : List QJsonValue) (txId : ℤ) :
    (s.send client (.observeData id reply)).ownerOf txId = s.ownerOf txId := by
  rw [ownerOf, send, List.filterMap_append, List.filterMap_cons_none rfl, List.filterMap_nil,
    List.append_nil, ownerOf]

/-! ## What a request does to the transactions -/

theorem opened?_readReply (c : OpenCollection) (r : ResultEnum) {value : ReplyValue}
    (h : ∀ txId, value ≠ .newTransactionReply txId) : (readReply c r value).opened? = none := by
  rw [readReply]
  split
  · cases value <;> first | rfl | exact absurd rfl (h _)
  · rfl

theorem opened?_snapshotReply {c c' : OpenCollection} {result : Option (ResultEnum × Collection)}
    {r : Reply} (h : snapshotReply c result = some (c', r)) : r.opened? = none := by
  obtain ⟨p, -, heq⟩ := Option.map_eq_some_iff.mp h
  cases heq
  rfl

/-- The requests to a collection alone open no transaction. -/
theorem opened?_onCollection {c c' : OpenCollection} {snapshotName : QString}
    {type : LinkObjectType} {r : Reply} (h : onCollection E c snapshotName type = some (c', r)) :
    r.opened? = none := by
  cases type with
  | find query queryOptions =>
    cases h
    exact opened?_readReply _ _ (by simp)
  | findOne query queryOptions =>
    cases h
    exact opened?_readReply _ _ (by simp)
  | count query queryOptions =>
    cases h
    exact opened?_readReply _ _ (by simp)
  | createIndex fieldName indexName =>
    rw [onCollection] at h
    dsimp only at h
    split at h <;> cases h <;> rfl
  | getSnapshotList =>
    rw [onCollection] at h
    split at h <;> cases h <;> rfl
  | newSnapshot =>
    rw [onCollection] at h
    split at h
    · cases h
      rfl
    · exact opened?_snapshotReply h
  | revertToSnapshot =>
    rw [onCollection] at h
    split at h
    · cases h
      rfl
    · exact opened?_snapshotReply h
  | removeSnapshot =>
    rw [onCollection] at h
    split at h
    · cases h
      rfl
    · exact opened?_snapshotReply h
  | _ =>
    cases h
    rfl

/-- An operation opens no transaction. -/
theorem opened?_operationReply (E : Env) (db : Store) (tx : Transaction) (op : TxOp)
    (error : QString) : Reply.opened? ⟨error, operationReply E db tx op⟩ = none := by
  cases op with
  | insert doc gen overwrite ignoreReadOnlyValue =>
    rw [operationReply]
    dsimp only
    split <;> rfl
  | _ => rfl

theorem transactions_writeTransaction (txId : ℤ) :
    (s.writeTransaction E txId).2.opened? = none ∧
      ∀ txId' ∈ (s.writeTransaction E txId).1.transactions, txId' ∈ s.transactions := by
  rw [writeTransaction]
  split
  · exact ⟨rfl, fun _ h => h⟩
  · dsimp only
    split
    · exact ⟨rfl, fun txId' h => (AList.mem_erase.mp h).2⟩
    · exact ⟨rfl, fun txId' h => (AList.mem_erase.mp h).2⟩

theorem transactions_discardTransaction (txId : ℤ) :
    (s.discardTransaction txId).2.opened? = none ∧
      ∀ txId' ∈ (s.discardTransaction txId).1.transactions, txId' ∈ s.transactions := by
  rw [discardTransaction]
  split
  · exact ⟨rfl, fun txId' h => (AList.mem_erase.mp h).2⟩
  · exact ⟨rfl, fun _ h => h⟩

theorem transactions_operation (txId : ℤ) (op : TxOp) :
    (s.operation E txId op).2.opened? = none ∧
      ∀ txId' ∈ (s.operation E txId op).1.transactions, txId' ∈ s.transactions := by
  rw [operation]
  split
  · exact ⟨rfl, fun _ h => h⟩
  · rename_i t ht
    split
    · exact ⟨rfl, fun _ h => h⟩
    · refine ⟨opened?_operationReply _ _ _ _ _, fun txId' h => ?_⟩
      rcases (AList.mem_insert _).mp h with rfl | h
      · exact AList.lookup_isSome.mp (by rw [ht]; rfl)
      · exact h

theorem transactions_unobserveAt (place : Place) (observeId : ℤ) :
    (s.unobserveAt place observeId).transactions = s.transactions := by
  rw [unobserveAt]
  split <;> rfl

theorem transactions_unobserve (observeId : ℤ) :
    (s.unobserve client observeId).2.opened? = none ∧
      (s.unobserve client observeId).1.transactions = s.transactions := by
  rw [unobserve]
  split
  · exact ⟨rfl, rfl⟩
  · split
    · exact ⟨rfl, rfl⟩
    · split
      · exact ⟨rfl, transactions_unobserveAt _ _⟩
      · exact ⟨rfl, rfl⟩

theorem transactions_exclusiveLock (dbName : QString) :
    (s.exclusiveLock client dbName).2.opened? = none ∧
      (s.exclusiveLock client dbName).1.transactions = s.transactions := by
  rw [exclusiveLock]
  split <;> exact ⟨rfl, rfl⟩

theorem transactions_unlock (dbName : QString) :
    (s.unlock client dbName).2.opened? = none ∧
      (s.unlock client dbName).1.transactions = s.transactions := by
  rw [unlock]
  split
  · exact ⟨rfl, rfl⟩
  · split <;> exact ⟨rfl, rfl⟩

/-- **What a request does to the transactions**: it opens one and tells its number, or
every transaction after it was open before. -/
theorem Served.transactions {p : QDocdbServer × Reply} (h : Served E s client o p) :
    (∃ txId, p.2.opened? = some txId ∧
        ∀ txId' ∈ p.1.transactions, txId' = txId ∨ txId' ∈ s.transactions) ∨
      p.2.opened? = none ∧ ∀ txId ∈ p.1.transactions, txId ∈ s.transactions := by
  have hopen := transactions_openCollectionOf (E := E) (s := s) (o := o)
  cases h with
  | writeTransaction ht => exact .inr (transactions_writeTransaction _)
  | discardTransaction ht => exact .inr (transactions_discardTransaction _)
  | unobserve ht =>
    obtain ⟨hreply, heq⟩ := @transactions_unobserve s client _
    exact .inr ⟨hreply, fun txId hid => heq ▸ hid⟩
  | cannotOpenDatabase _ => exact .inr ⟨rfl, fun _ h => h⟩
  | exclusiveLock ht =>
    obtain ⟨hreply, heq⟩ := @transactions_exclusiveLock s client o.url.dbName
    exact .inr ⟨hreply, fun txId hid => heq ▸ hid⟩
  | unlock ht =>
    obtain ⟨hreply, heq⟩ := @transactions_unlock s client o.url.dbName
    exact .inr ⟨hreply, fun txId hid => heq ▸ hid⟩
  | emptyCollectionName _ => exact .inr ⟨rfl, fun _ h => h⟩
  | cannotOpenCollection _ => exact .inr ⟨rfl, fun txId hid => hopen ▸ hid⟩
  | autoCommit ht hc =>
    exact .inr ⟨opened?_operationReply _ _ _ _ _, fun txId hid => hopen ▸ hid⟩
  | operation ht hne =>
    obtain ⟨hreply, hsub⟩ := transactions_operation (E := E) (s := s.openCollectionOf E o) _ _
    exact .inr ⟨hreply, fun txId hid => hopen ▸ hsub txId hid⟩
  | newTransaction ht hc =>
    refine .inl ⟨_, rfl, fun txId hid => ?_⟩
    rw [← hopen]
    exact (AList.mem_insert _).mp hid
  | observe ht hc => exact .inr ⟨rfl, fun txId hid => hopen ▸ hid⟩
  | onCollection hurl hdoc hnew hobserve hc hr =>
    exact .inr ⟨opened?_onCollection hr, fun txId hid => hopen ▸ hid⟩

/-- Only its own locks change when a request of a client is served. -/
theorem Served.mustWait {p : QDocdbServer × Reply} (h : Served E s client o p)
    (o' : QDocdbLinkObject) : p.1.mustWait client o' = s.mustWait client o' := by
  rcases h.locks with h | ⟨-, hown, h⟩ | ⟨-, hown, h⟩
  · rw [QDocdbServer.mustWait, h.databaseLocks, QDocdbServer.mustWait]
  · rw [h, QDocdbServer.mustWait, QDocdbServer.mustWait]
    by_cases hdb : o'.url.dbName = o.url.dbName
    · rcases hown with hown | hown <;> simp [hdb, hown]
    · simp [Function.update_of_ne hdb]
  · rw [h, QDocdbServer.mustWait, QDocdbServer.mustWait]
    by_cases hdb : o'.url.dbName = o.url.dbName
    · simp [emitUnlocked, hdb, hown]
    · simp [emitUnlocked, Function.update_of_ne hdb]

/-! ## Runs -/

/-- Every open transaction belongs to a connected client. -/
def AllOwned (s : QDocdbServer) : Prop :=
  ∀ txId ∈ s.transactions, ∃ client ∈ s.clients, s.ownerOf txId = some client

/-- The first `n` waiting requests of a client, which are being received again, name their
own transactions. -/
def WaitingNameOwn (client : ClientId) (n : ℕ) (s : QDocdbServer) : Prop :=
  AllOwned s ∧ ∀ o ∈ (s.links client).unlockWait.take n, NamesOwn s client o

/-- A request names its own transactions after another request of its client as well. -/
theorem Served.namesOwn {p : QDocdbServer × Reply} (h : Served E s client o p)
    {o' : QDocdbLinkObject} (ho : NamesOwn s client o') :
    NamesOwn (p.1.send client (.reply o p.2)) client o' := by
  intro hw txId htx hid
  have hw' : s.mustWait client o' = false := (h.mustWait o').symm.trans hw
  have hsent : p.1.ownerOf txId = s.ownerOf txId := by
    rw [QDocdbServer.ownerOf, h.sent, QDocdbServer.ownerOf]
  rw [ownerOf_send_reply, hsent]
  split
  · rfl
  · rename_i hne
    rcases h.transactions with ⟨txId', hr, hsub⟩ | ⟨-, hsub⟩
    · rcases hsub txId htx with rfl | hmem
      · exact absurd hr hne
      · exact ho hw' txId hmem hid
    · exact ho hw' txId (hsub txId htx) hid

/-- Transactions stay owned when a request is served. -/
theorem Served.allOwned {p : QDocdbServer × Reply} (h : Served E s client o p)
    (hc : client ∈ s.clients) (hI : AllOwned s) : AllOwned (p.1.send client (.reply o p.2)) := by
  intro txId htx
  have hclients : (p.1.send client (.reply o p.2)).clients = s.clients := h.clients
  have hsent : p.1.ownerOf txId = s.ownerOf txId := by
    rw [QDocdbServer.ownerOf, h.sent, QDocdbServer.ownerOf]
  rw [ownerOf_send_reply, hsent, hclients]
  split
  · exact ⟨client, hc, rfl⟩
  · rename_i hne
    rcases h.transactions with ⟨txId', hr, hsub⟩ | ⟨-, hsub⟩
    · rcases hsub txId htx with rfl | hmem
      · exact absurd hr hne
      · exact hI txId hmem
    · exact hI txId (hsub txId htx)

theorem serverInvariant_allOwned :
    ServerInvariant E OwnTransactions AllOwned WaitingNameOwn (fun _ => NamesOwn) where
  started := fun txId h => by cases h
  connected := fun hI _ txId h => by
    obtain ⟨client, hc, howner⟩ := hI txId h
    exact ⟨client, List.mem_append_left _ hc, howner⟩
  disconnected := fun {s client} hI hok _ txId h => by
    obtain ⟨owner, hc, howner⟩ := hI txId h
    have hne : owner ≠ client := fun heq => hok txId h (heq ▸ howner)
    exact ⟨owner, List.mem_filter.mpr ⟨hc, by simpa using hne⟩, howner⟩
  notified := fun {s pending id reply} hI _ => by
    rw [observeChanged]
    split
    · intro txId h
      rw [ownerOf_send_observeData]
      exact hI txId h
    · exact hI
  arrived := fun hI hok _ => ⟨⟨hI, fun o ho => by cases ho⟩, hok⟩
  taken := fun {s client} hI hok _ => by
    refine ⟨hI, fun o ho => ?_⟩
    have hmem := List.mem_of_mem_take ho
    rw [takeUnlocked, links_setLink_self] at hmem
    exact hok o hmem
  dequeued := fun {s client n o rest} hJ _ hq => by
    obtain ⟨hI, hqueue⟩ := hJ
    rw [hq] at hqueue
    refine ⟨⟨hI, fun o' ho' => ?_⟩, hqueue o List.mem_cons_self⟩
    rw [dequeue, links_setLink_self, hq] at ho'
    exact hqueue o' (List.mem_cons_of_mem o ho')
  done := fun hJ _ => hJ.1
  opened := fun {s client n o} hJ hfit => by
    obtain ⟨databases, heq, -⟩ := openDatabaseOf_eq E s o
    rw [heq]
    exact ⟨hJ, hfit⟩
  waits := fun {s client n o} hJ _ _ hw => by
    refine ⟨hJ.1, fun o' ho' => ?_⟩
    rw [appendUnlockWait, links_setLink_self, List.take_append, List.mem_append] at ho'
    rcases ho' with ho' | ho'
    · exact hJ.2 o' ho'
    · -- the request itself waits for somebody else's lock
      obtain rfl := List.mem_singleton.mp (List.mem_of_mem_take ho')
      intro hw'
      exact absurd (hw.symm.trans hw') (by simp)
  served := fun {s client n o p} hJ hfit hc _ hserved => by
    refine ⟨hserved.allOwned hc hJ.1, fun o' ho' => hserved.namesOwn (hJ.2 o' ?_)⟩
    rwa [← hserved.unlockWait client]

/-- **Transactions are owned** in every run in which requests name transactions of their
own client, and no client is lost that has one open. -/
theorem transactionsOwned_of_reachable {e : Event} (h : ServerReachable E OwnTransactions s)
    (hok : OwnTransactions s e) : TransactionsOwned E s e := by
  refine ⟨serverInvariant_allOwned.reachable h, fun s₁ client o p txId hcall _ hid htx _ => ?_⟩
  obtain ⟨-, -, hfit, -, hw⟩ := serverInvariant_allOwned.calls h hok hcall
  exact hfit hw txId htx hid

/-- Client 1 opens a transaction; client 2 is connected too. -/
def openedByOne : List Event :=
  [.connected 1, .connected 2, .received 1 (requestD 0 .newTransaction)]

/-- Client 1 writes its transaction. -/
theorem transactionsOwned_openedByOne :
    ∃ s, handleAll emptyServerEnv .init openedByOne = some s ∧
      TransactionsOwned emptyServerEnv s (.received 1 (requestD 1 (.writeTransaction 0))) := by
  obtain ⟨s, hs⟩ := Option.isSome_iff_exists.mp
    (show (handleAll emptyServerEnv .init openedByOne).isSome = true by decide)
  have howner : some (s.ownerOf 0) = some (some 1) := by
    rw [show some (s.ownerOf 0) = (some s).map (ownerOf · 0) from rfl, ← hs]
    decide
  have hallowed : ∀ s, ∀ e ∈ openedByOne, OwnTransactions s e := by
    simp [openedByOne, OwnTransactions, NamesOwn, requestD, LinkObjectType.transactionId?,
      LinkObjectType.document?]
  refine ⟨s, hs, transactionsOwned_of_reachable (reachable_of_handleAll .started hallowed hs) ?_⟩
  intro _ txId _ hid
  cases hid
  exact Option.some.inj howner

/-- Client 2 writes the transaction of client 1. -/
theorem not_transactionsOwned :
    ¬ ∀ (E : ServerEnv) (s : QDocdbServer) (e : Event),
      ServerReachable E (fun _ _ => True) s → TransactionsOwned E s e := by
  intro h
  obtain ⟨s, hs, hp⟩ := exists_of_handleAll
    (E := emptyServerEnv) (p := fun s => decide (2 ∈ s.clients) && decide (s.ownerOf 0 = some 1) &&
      (s.transactions.lookup 0).isSome &&
      ((s.writeTransaction emptyServerEnv 0).1.transactions.lookup 0).isNone)
    (fun _ e (_ : e ∈ openedByOne) => trivial) (by decide)
  simp only [Bool.and_eq_true, decide_eq_true_eq, Option.isNone_iff_eq_none] at hp
  obtain ⟨⟨⟨hclient, howner⟩, hopen⟩, hclosed⟩ := hp
  have hchanged : (s.writeTransaction emptyServerEnv 0).1.transactions.lookup 0 ≠
      s.transactions.lookup 0 := by
    intro heq
    rw [← heq, hclosed] at hopen
    cases hopen
  have howned := (h emptyServerEnv s (.received 2 (requestD 0 (.writeTransaction 0))) hs).owned
    s 2 (requestD 0 (.writeTransaction 0)) _ 0 (.received hclient rfl) rfl rfl
    (AList.lookup_isSome.mp hopen) hchanged
  rw [howner] at howned
  cases howned

end QDocdbServer

end Qdocdb
