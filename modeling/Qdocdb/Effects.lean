import Qdocdb.Locks
import Qdocdb.Ownership
import Qdocdb.Sequential
import Qdocdb.TransactionIds

/-!
# What a request changes

Between two moments of a run many clients ask for many things. What is stored in a collection
changes only by requests that the server answers in between: a request that changes the
collection of its url, one whose url leads to the directory of the collection under another name,
or one that writes a transaction which was opened for a collection of the directory
(`exists_writer_of_leads`). A transaction that is open keeps what was put into it until a request
with its number is answered (`batchKept_of_leads`). So neither reading, nor what collections of
other directories, other transactions, locks and lost connections do, is seen in a collection or
in a transaction.

This is shown of a server without connections and carried over to the network.
-/

namespace Qdocdb

namespace QDocdbServer

variable {E : ServerEnv} {s s' : QDocdbServer} {client : ClientId} {o : QDocdbLinkObject}
  {place : Place} {txId : ℤ}

/-- The replies of a server, with the requests. -/
abbrev Replies : Type := List (ClientId × QDocdbLinkObject × Reply)

/-- A transaction with that number was opened for a collection. -/
def Opened (replies : Replies) (txId : ℤ) (place : Place) : Prop :=
  ∃ client o, (client, o, ⟨[], .newTransactionReply txId⟩) ∈ replies ∧ o.place = place

/-- A request may change a collection: through its url, under another name of its directory, or
with a transaction that was opened for a collection of its directory. -/
inductive WritesTo (E : ServerEnv) (replies : Replies) (o : QDocdbLinkObject) (place : Place) :
    Prop
  | url (hplace : o.place = place) (hw : o.type.writes = true)
  | otherName (hne : o.place ≠ place) (hsame : SameDirectory E o.place place)
    (hcoll : o.type.collNeeded = true)
  | transaction {txId : ℤ} {place' : Place} (ht : o.type = .writeTransaction txId)
    (hopened : Opened replies txId place') (hsame : place' = place ∨ SameDirectory E place' place)

theorem Opened.append {replies : Replies} (h : Opened replies txId place) (more : Replies) :
    Opened (replies ++ more) txId place := by
  obtain ⟨client, o, hmem, hplace⟩ := h
  exact ⟨client, o, List.mem_append_left _ hmem, hplace⟩

theorem WritesTo.append {replies : Replies} (h : WritesTo E replies o place) (more : Replies) :
    WritesTo E (replies ++ more) o place := by
  cases h with
  | url hplace hw => exact .url hplace hw
  | otherName hne hsame hcoll => exact .otherName hne hsame hcoll
  | transaction ht hopened hsame => exact .transaction ht (hopened.append more) hsame

/-! ## Open transactions -/

/-- What becomes of the open transactions when a request is served, with the reply. -/
inductive TransactionsServed (s : QDocdbServer) (o : QDocdbLinkObject) (r : Reply) :
    (AList fun _ : ℤ => OpenTransaction) → Prop
  | kept (hr : r.opened? = none) : TransactionsServed s o r s.transactions
  | ended {txId : ℤ} (hr : r.opened? = none) (hid : o.type.transactionId? = some txId) :
    TransactionsServed s o r (s.transactions.erase txId)
  | went {txId : ℤ} {t : OpenTransaction} {tx : Transaction} (hr : r.opened? = none)
    (hid : o.type.transactionId? = some txId) (ht : s.transactions.lookup txId = some t) :
    TransactionsServed s o r (s.transactions.insert txId { t with tx := tx })
  | opened {tx : Transaction} (hr : r = ⟨[], .newTransactionReply s.getNextTransactionId.1⟩) :
    TransactionsServed s o r (s.transactions.insert s.getNextTransactionId.1 ⟨o.place, tx⟩)

theorem getNextTransactionId_openCollectionOf :
    (s.openCollectionOf E o).getNextTransactionId = s.getNextTransactionId := by
  rw [getNextTransactionId, getNextTransactionId, transactions_openCollectionOf,
    transactionId_openCollectionOf]

theorem Served.transactionsServed {p : QDocdbServer × Reply} (h : Served E s client o p) :
    TransactionsServed s o p.2 p.1.transactions := by
  have hopen := transactions_openCollectionOf (E := E) (s := s) (o := o)
  cases h with
  | @writeTransaction txId ht =>
    have hid : o.type.transactionId? = some txId := by rw [ht]; rfl
    have hr := (transactions_writeTransaction (E := E) (s := s) txId).1
    rw [QDocdbServer.writeTransaction] at hr ⊢
    split
    · exact .kept rfl
    · rename_i t htx
      rw [htx] at hr
      dsimp only at hr ⊢
      split <;> exact .ended rfl hid
  | @discardTransaction txId ht =>
    have hid : o.type.transactionId? = some txId := by rw [ht]; rfl
    rw [QDocdbServer.discardTransaction]
    split
    · exact .ended rfl hid
    · exact .kept rfl
  | unobserve ht =>
    rw [(transactions_unobserve _).2]
    exact .kept (transactions_unobserve _).1
  | cannotOpenDatabase hurl => exact .kept rfl
  | exclusiveLock ht =>
    rw [(transactions_exclusiveLock _).2]
    exact .kept (transactions_exclusiveLock _).1
  | unlock ht =>
    rw [(transactions_unlock _).2]
    exact .kept (transactions_unlock _).1
  | emptyCollectionName hurl => exact .kept rfl
  | cannotOpenCollection hurl => exact hopen ▸ .kept rfl
  | autoCommit ht hc => exact hopen ▸ .kept (opened?_operationReply _ _ _ _ _)
  | @operation txId op ht hne =>
    have hid : o.type.transactionId? = some txId := by
      cases hkind : o.type <;> rw [hkind] at ht <;> simp_all [LinkObjectType.transactionId?,
        LinkObjectType.document?]
    rw [QDocdbServer.operation]
    split
    · exact hopen ▸ .kept rfl
    · rename_i t hlookup
      rw [hopen] at hlookup
      split
      · exact hopen ▸ .kept rfl
      · exact hopen ▸ .went (opened?_operationReply _ _ _ _ _) hid hlookup
  | @newTransaction c ht hc =>
    have hnew : TransactionsServed s o ⟨[], .newTransactionReply s.getNextTransactionId.1⟩
        (s.transactions.insert s.getNextTransactionId.1 ⟨o.place, c.coll.newTransaction⟩) :=
      .opened rfl
    rw [← getNextTransactionId_openCollectionOf (E := E) (o := o), ← hopen] at hnew
    exact hnew
  | observe ht hc => exact hopen ▸ .kept rfl
  | onCollection hurl hdoc hnew hobserve hc hr => exact hopen ▸ .kept (opened?_onCollection hr)

/-! ## Content -/

/-- **What a request changes** of a collection that is open. -/
theorem Stores.content_of_open (hA : Attached E s) (h : Stores E s o s') {db : Store}
    (hdb : s.content place = some db) :
    s'.content place = some db ∨ o.place = place ∧ o.type.writes = true ∨
      (o.place ≠ place ∧ SameDirectory E o.place place ∧ o.type.collNeeded = true) ∨
      ∃ txId t, o.type = .writeTransaction txId ∧ s.transactions.lookup txId = some t ∧
        (t.place = place ∨ SameDirectory E t.place place) := by
  obtain ⟨c, hc, -⟩ := Option.map_eq_some_iff.mp hdb
  by_cases htx : ∃ txId t, o.type = .writeTransaction txId ∧
      s.transactions.lookup txId = some t ∧ (t.place = place ∨ SameDirectory E t.place place)
  · exact .inr (.inr (.inr htx))
  by_cases hother : o.place ≠ place ∧ SameDirectory E o.place place ∧ o.type.collNeeded = true
  · exact .inr (.inr (.inl hother))
  by_cases hurl : o.place = place ∧ o.type.writes = true
  · exact .inr (.inl hurl)
  refine .inl ((h.content_of_apart hA (fun hwrites => ?_) fun txId t ht hlookup => ?_).trans hdb)
  · have hne : place ≠ o.place := by
      rintro rfl
      refine hurl ⟨rfl, hwrites.2.resolve_left fun hnone => ?_⟩
      rw [hc] at hnone
      cases hnone
    exact ⟨hne, fun hsame => hother ⟨hne.symm, hsame, hwrites.1⟩⟩
  · exact ⟨fun heq => htx ⟨txId, t, ht, hlookup, .inl heq.symm⟩,
      fun hsame => htx ⟨txId, t, ht, hlookup, .inr hsame⟩⟩

/-! ## Without connections -/

/-- The transactions and the content of two servers are the same. -/
structure SameContent (s s' : QDocdbServer) : Prop where
  transactions : s'.transactions = s.transactions
  transactionId : s'.transactionId = s.transactionId
  content : ∀ place, s'.content place = s.content place

theorem sameContent_openDatabaseOf : SameContent s (s.openDatabaseOf E o) := by
  obtain ⟨databases, heq, -⟩ := openDatabaseOf_eq E s o
  exact ⟨by rw [heq], by rw [heq], sameStores_openDatabaseOf.content⟩

/-- Nothing is seen of what a server does, or it serves a request. -/
theorem sameContent_or_served {a : Act} {outputs : Replies}
    (h : Act.step E s a = some (outputs, s')) :
    outputs = [] ∧ SameContent s s' ∨
      ∃ client o p, outputs = [(client, o, p.2)] ∧ Served E (s.openDatabaseOf E o) client o p ∧
        s' = p.1.core := by
  cases a with
  | opened o =>
    obtain ⟨rfl, rfl⟩ := Prod.mk.inj (Option.some.inj h)
    exact .inl ⟨rfl, sameContent_openDatabaseOf⟩
  | served client o =>
    rw [Act.step] at h
    split at h
    · cases h
    · obtain ⟨p, hp, heq⟩ := Option.map_eq_some_iff.mp h
      obtain ⟨rfl, rfl⟩ := Prod.mk.inj heq
      exact .inr ⟨client, o, p, rfl, served_of_serve hp, rfl⟩
  | removed client =>
    obtain ⟨rfl, rfl⟩ := Prod.mk.inj (Option.some.inj h)
    exact .inl ⟨rfl, rfl, rfl, fun place => content_clientRemoved place⟩

/-- Every open transaction was opened by a request for its collection. -/
def AllOpened (replies : Replies) (s : QDocdbServer) : Prop :=
  ∀ txId t, s.transactions.lookup txId = some t → Opened replies txId t.place

theorem AllOpened.step {replies : Replies} (h : AllOpened replies s) {a : Act} {outputs : Replies}
    (hs : Act.step E s a = some (outputs, s')) : AllOpened (replies ++ outputs) s' := by
  intro txId t ht
  rcases sameContent_or_served hs with ⟨rfl, hsame⟩ | ⟨client, o, p, rfl, hserved, rfl⟩
  · rw [hsame.transactions] at ht
    exact (h txId t ht).append []
  · have hold : ∀ txId t, (s.openDatabaseOf E o).transactions.lookup txId = some t →
        Opened (replies ++ [(client, o, p.2)]) txId t.place := fun txId t ht => by
      rw [sameContent_openDatabaseOf.transactions] at ht
      exact (h txId t ht).append _
    have ht' : p.1.transactions.lookup txId = some t := ht
    revert ht'
    have hcases := hserved.transactionsServed
    generalize p.1.transactions = transactions at hcases ⊢
    intro ht'
    cases hcases with
    | kept => exact hold txId t ht'
    | @ended txId' _ hid =>
      by_cases heq : txId = txId'
      · subst heq
        rw [AList.lookup_erase] at ht'
        cases ht'
      · rw [AList.lookup_erase_ne heq] at ht'
        exact hold txId t ht'
    | @went txId' t₀ tx _ hid ht₀ =>
      by_cases heq : txId = txId'
      · subst heq
        rw [AList.lookup_insert] at ht'
        obtain rfl := Option.some.inj ht'
        exact hold txId t₀ ht₀
      · rw [AList.lookup_insert_ne heq] at ht'
        exact hold txId t ht'
    | opened hr =>
      by_cases heq : txId = (s.openDatabaseOf E o).getNextTransactionId.1
      · subst heq
        rw [AList.lookup_insert] at ht'
        obtain rfl := Option.some.inj ht'
        exact ⟨client, o, List.mem_append_right _ (hr ▸ List.mem_singleton_self _), rfl⟩
      · rw [AList.lookup_insert_ne heq] at ht'
        exact hold txId t ht'

/-- The directories of open collections stay in order. -/
theorem Attached.step (h : Attached E s) {a : Act} {outputs : Replies}
    (hs : Act.step E s a = some (outputs, s')) : Attached E s' := by
  cases a with
  | opened o =>
    obtain ⟨rfl, rfl⟩ := Prod.mk.inj (Option.some.inj hs)
    exact h.congr sameStores_openDatabaseOf
  | served client o =>
    rw [Act.step] at hs
    split at hs
    · cases hs
    · obtain ⟨p, hp, heq⟩ := Option.map_eq_some_iff.mp hs
      obtain ⟨rfl, rfl⟩ := Prod.mk.inj heq
      have hserved : Attached E p.1 :=
        (h.congr sameStores_openDatabaseOf).stores (served_of_serve hp).stores
      exact hserved.congr ⟨fun _ => rfl, rfl⟩
  | removed client =>
    obtain ⟨rfl, rfl⟩ := Prod.mk.inj (Option.some.inj hs)
    exact h.clientRemoved.congr ⟨fun _ => rfl, rfl⟩

/-- **Step** of the content of a collection. -/
theorem content_step {replies : Replies} (h : AllOpened replies s) (hA : Attached E s) {a : Act}
    {outputs : Replies} (hs : Act.step E s a = some (outputs, s')) {db : Store}
    (hdb : s.content place = some db) :
    s'.content place = some db ∨ ∃ a ∈ outputs, WritesTo E replies a.2.1 place := by
  rcases sameContent_or_served hs with ⟨rfl, hsame⟩ | ⟨client, o, p, rfl, hserved, rfl⟩
  · exact .inl ((hsame.content place).trans hdb)
  · have hopen := @sameContent_openDatabaseOf E s o
    rcases hserved.stores.content_of_open (hA.congr sameStores_openDatabaseOf)
        ((hopen.content place).trans hdb) with
      hkept | ⟨hplace, hw⟩ | ⟨hne, hsame, hcoll⟩ | ⟨txId, t, htype, ht, hplace⟩
    · exact .inl hkept
    · exact .inr ⟨_, List.mem_singleton_self _, .url hplace hw⟩
    · exact .inr ⟨_, List.mem_singleton_self _, .otherName hne hsame hcoll⟩
    · rw [hopen.transactions] at ht
      exact .inr ⟨_, List.mem_singleton_self _, .transaction htype (h txId t ht) hplace⟩

/-- **Run** of the content of a collection. -/
theorem content_of_yields {replies outputs : Replies} (h : AllOpened replies s)
    (hA : Attached E s) (hrun : Yields (Act.step E) s outputs s') {db : Store}
    (hdb : s.content place = some db) :
    s'.content place = some db ∨ ∃ a ∈ outputs, WritesTo E (replies ++ outputs) a.2.1 place := by
  refine (hrun.invariant (P := fun outputs s => AllOpened (replies ++ outputs) s ∧
    Attached E s ∧
    (s.content place = some db ∨ ∃ a ∈ outputs, WritesTo E (replies ++ outputs) a.2.1 place))
    ?_ ⟨by rwa [List.append_nil], hA, .inl hdb⟩).2.2
  rintro s s' a before outputs ⟨hopened, hattached, hor⟩ hs
  rw [← List.append_assoc]
  refine ⟨hopened.step hs, hattached.step hs, ?_⟩
  rcases hor with hdb | ⟨a, ha, hwrites⟩
  · refine (content_step hopened hattached hs hdb).imp_right ?_
    rintro ⟨a, ha, hwrites⟩
    exact ⟨a, List.mem_append_right _ ha, hwrites.append _⟩
  · exact .inr ⟨a, List.mem_append_left _ ha, hwrites.append _⟩

/-- There are no more transactions than replies, and their counter is an `int`. -/
structure Counted (replies : Replies) (s : QDocdbServer) : Prop where
  counter : IsInt s.transactionId
  few : s.transactions.keys.length ≤ replies.length

theorem Counted.step {replies : Replies} (h : Counted replies s) {a : Act} {outputs : Replies}
    (hs : Act.step E s a = some (outputs, s')) : Counted (replies ++ outputs) s' := by
  rcases sameContent_or_served hs with ⟨rfl, hsame⟩ | ⟨client, o, p, rfl, hserved, rfl⟩
  · refine ⟨?_, ?_⟩
    · rw [hsame.transactionId]
      exact h.counter
    · rw [hsame.transactions, List.append_nil]
      exact h.few
  · have hopen := @sameContent_openDatabaseOf E s o
    refine ⟨?_, ?_⟩
    · refine hserved.isInt_transactionId ?_
      rw [hopen.transactionId]
      exact h.counter
    · have hinsert : ∀ txId t,
          ((s.openDatabaseOf E o).transactions.insert txId t).keys.length ≤
            (s.openDatabaseOf E o).transactions.keys.length + 1 := fun txId t => by
        rw [AList.keys_insert, List.length_cons]
        exact Nat.succ_le_succ (List.erase_sublist.length_le)
      have hfew := h.few
      rw [← hopen.transactions] at hfew
      rw [List.length_append]
      refine le_trans ?_ (Nat.add_le_add_right hfew 1)
      change p.1.transactions.keys.length ≤ _
      have hcases := hserved.transactionsServed
      generalize p.1.transactions = transactions at hcases ⊢
      cases hcases with
      | kept => exact Nat.le_succ _
      | ended =>
        rw [AList.keys_erase]
        exact (List.erase_sublist.length_le).trans (Nat.le_succ _)
      | went => exact hinsert _ _
      | opened => exact hinsert _ _

/-- A request that does not name an open transaction leaves it alone, and its number is not
given again. -/
theorem Served.lookup_transactions {p : QDocdbServer × Reply} (h : Served E s client o p)
    (hfresh : s.GivesFreshId) (hne : o.type.transactionId? ≠ some txId) {t : OpenTransaction}
    (ht : s.transactions.lookup txId = some t) :
    p.1.transactions.lookup txId = some t ∧ p.2.opened? ≠ some txId := by
  have hcases := h.transactionsServed
  generalize p.1.transactions = transactions at hcases ⊢
  cases hcases with
  | kept hr => exact ⟨ht, by simp [hr]⟩
  | @ended txId' hr hid =>
    have hids : txId ≠ txId' := fun heq => hne (heq ▸ hid)
    exact ⟨by rwa [AList.lookup_erase_ne hids], by simp [hr]⟩
  | @went txId' t₀ tx hr hid ht₀ =>
    have hids : txId ≠ txId' := fun heq => hne (heq ▸ hid)
    exact ⟨by rwa [AList.lookup_insert_ne hids], by simp [hr]⟩
  | opened hr =>
    have hids : txId ≠ s.getNextTransactionId.1 := by
      rintro rfl
      exact hfresh.notLive (AList.lookup_isSome.mp (by rw [ht]; rfl))
    refine ⟨by rwa [AList.lookup_insert_ne hids], ?_⟩
    rw [hr]
    exact fun heq => hids (Option.some.inj heq).symm

/-- **Run** of an open transaction. -/
theorem lookup_of_yields {replies outputs : Replies} (h : Counted replies s)
    (hrun : Yields (Act.step E) s outputs s') (hfew : (replies ++ outputs).length < 2 ^ 31)
    (hne : ∀ a ∈ outputs, a.2.1.type.transactionId? ≠ some txId) {t : OpenTransaction}
    (ht : s.transactions.lookup txId = some t) :
    s'.transactions.lookup txId = some t ∧ ∀ a ∈ outputs, a.2.2.opened? ≠ some txId := by
  refine (hrun.invariant (P := fun outputs s => Counted (replies ++ outputs) s ∧
    ((replies ++ outputs).length < 2 ^ 31 →
      (∀ a ∈ outputs, a.2.1.type.transactionId? ≠ some txId) →
        s.transactions.lookup txId = some t ∧ ∀ a ∈ outputs, a.2.2.opened? ≠ some txId)) ?_
    ⟨by rwa [List.append_nil], fun _ _ => ⟨ht, by simp⟩⟩).2 hfew hne
  rintro s s' a before outputs ⟨hcounted, hkept⟩ hs
  rw [← List.append_assoc]
  refine ⟨hcounted.step hs, fun hfew hne => ?_⟩
  rw [List.length_append] at hfew
  obtain ⟨ht, hbefore⟩ := hkept (by omega) fun a ha => hne a (List.mem_append_left _ ha)
  rcases sameContent_or_served hs with ⟨rfl, hsame⟩ | ⟨client, o, p, rfl, hserved, rfl⟩
  · rw [hsame.transactions, List.append_nil]
    exact ⟨ht, hbefore⟩
  · have hopen := @sameContent_openDatabaseOf E s o
    have hlive := hcounted.few
    have hfresh : (s.openDatabaseOf E o).GivesFreshId := by
      refine (givesFreshId_of_isInt ?_ ?_).1
      · rw [hopen.transactionId]
        exact hcounted.counter
      · rw [hopen.transactions]
        omega
    obtain ⟨ht', hnew⟩ := hserved.lookup_transactions hfresh
      (hne _ (List.mem_append_right _ (List.mem_singleton_self _)))
      (by rwa [hopen.transactions])
    refine ⟨ht', fun a ha => ?_⟩
    rcases List.mem_append.mp ha with ha | ha
    · exact hbefore a ha
    · obtain rfl := List.mem_singleton.mp ha
      exact hnew

end QDocdbServer

/-! ## With connections -/

namespace Network

open QDocdbServer (Act AllOpened Attached WritesTo)

variable {E : ServerEnv} {ok : Network → NetworkEvent → Prop} {N N' : Network} {place : Place}
  {txId : ℤ}

theorem tracked_of_reachable (hN : NetworkReachable E ok N) :
    AllOpened N.server.replies N.server.core ∧ Attached E N.server.core ∧
      QDocdbServer.Counted N.server.replies N.server.core := by
  obtain ⟨_, hinit⟩ := hN.leads_init
  obtain ⟨answers, hyields, hreplies⟩ := follows_of_leads hinit
  rw [hreplies]
  refine hyields.invariant
    (P := fun outputs s => AllOpened outputs s ∧ Attached E s ∧ QDocdbServer.Counted outputs s)
    (fun h hs => ⟨h.1.step hs, h.2.1.step hs, h.2.2.step hs⟩)
    ⟨fun txId t ht => ?_, fun place c hc => ?_, show IsInt 0 by decide, Nat.le_refl _⟩
  · cases ht
  · cases hc

/-- **A change has a writer**: whatever clients do, the content of a collection that is open
changes only when the server answers a request that changes the collection of its url, one whose
url leads to its directory under another name, or one that writes a transaction which was opened
for a collection of its directory. -/
theorem exists_writer_of_leads (hN : NetworkReachable E ok N) (h : NetworkLeads E ok N N')
    {db : Store} (hdb : N.server.content place = some db)
    (hne : N'.server.content place ≠ some db) :
    ∃ a ∈ N'.server.replies.drop N.server.replies.length,
      WritesTo E N'.server.replies a.2.1 place := by
  obtain ⟨answers, hyields, hreplies⟩ := follows_of_leads h
  rw [hreplies, List.drop_left]
  obtain ⟨hopened, hattached, -⟩ := tracked_of_reachable hN
  exact (QDocdbServer.content_of_yields hopened hattached hyields hdb).resolve_left hne

/-- The application calls a method on the connection 0, and the server serves it. -/
def asksC (type : LinkObjectType) : List NetworkEvent :=
  [.call 0 { CallState.findC with type := type }, .request 0]

/-- Some events lead to a network, and others on from there. -/
theorem exists_leads (es es' : List NetworkEvent) (test : Network → Network → Bool)
    (hlength : es.length + es'.length ≤ 2 ^ 32)
    (h : (handleAll QDocdbServer.emptyServerEnv (init fun _ => false) es).any (fun N =>
      (handleAll QDocdbServer.emptyServerEnv N es').any (test N)) = true) :
    ∃ N N', NetworkReachable QDocdbServer.emptyServerEnv (fun _ _ => True) N ∧
      NetworkLeads QDocdbServer.emptyServerEnv (fun _ _ => True) N N' ∧ test N N' = true := by
  obtain ⟨N, hN, h⟩ := (Option.any_eq_true _ _).mp h
  obtain ⟨N', hN', htest⟩ := (Option.any_eq_true _ _).mp h
  have hfew : ∀ p, (N.clients p).made + es'.length ≤ 2 ^ 32 := fun p => by
    have hmade : (N.clients p).made ≤ 0 + es.length := made_handleAll hN p
    omega
  exact ⟨N, N', reachable_of_init (by omega) (fun _ _ _ _ => trivial) hN,
    leads_of_handleAll (fun _ _ _ _ => trivial) hfew hN', htest⟩

/-- A client finds documents in a collection whose directory has two names. -/
def findsX : List NetworkEvent :=
  [.connect 0 0, .accept 0, .call 0 { CallState.findC with url := .of (qs "D/x") (qs "c") },
    .request 0]

/-- It inserts a document under the other name. -/
def insertsElsewhere : List NetworkEvent :=
  [.call 0 { CallState.findC with
      url := .of (qs "D") (qs "x/c"), type := QDocdbServer.insertAIn (-1) }, .request 0]

/-- The collection changes although it was not named. -/
theorem exists_writer_insertsC :
    ∃ N N', NetworkLeads QDocdbServer.emptyServerEnv (fun _ _ => True) N N' ∧
      N'.server.content (qs "D/x", qs "c") ≠ N.server.content (qs "D/x", qs "c") ∧
      ∃ a ∈ N'.server.replies.drop N.server.replies.length,
        WritesTo QDocdbServer.emptyServerEnv N'.server.replies a.2.1 (qs "D/x", qs "c") := by
  obtain ⟨N, N', hN, h, htest⟩ := exists_leads findsX insertsElsewhere
    (fun N N' => (N.server.content (qs "D/x", qs "c")).any fun db =>
      N'.server.content (qs "D/x", qs "c") ≠ some db) (by decide) (by decide)
  obtain ⟨db, hdb, hne⟩ := (Option.any_eq_true _ _).mp htest
  have hne := of_decide_eq_true hne
  exact ⟨N, N', h, by rwa [hdb], exists_writer_of_leads hN h hdb hne⟩

/-- **An open transaction is kept**: while less than 2^31 requests are answered, a transaction that
is open holds what was put into it until a request with its number is answered, whatever other
clients do, and its number is given to nobody else. -/
theorem batchKept_of_leads (hN : NetworkReachable E ok N) (h : NetworkLeads E ok N N')
    (hfew : N'.server.replies.length < 2 ^ 31) {t : OpenTransaction}
    (ht : N.server.transactions.lookup txId = some t)
    (hne : ∀ a ∈ N'.server.replies.drop N.server.replies.length,
      a.2.1.type.transactionId? ≠ some txId) :
    N'.server.transactions.lookup txId = some t ∧
      ∀ a ∈ N'.server.replies.drop N.server.replies.length, a.2.2.opened? ≠ some txId := by
  obtain ⟨answers, hyields, hreplies⟩ := follows_of_leads h
  rw [hreplies] at hfew
  rw [hreplies, List.drop_left] at hne ⊢
  exact QDocdbServer.lookup_of_yields (tracked_of_reachable hN).2.2 hyields hfew hne ht

/-- A client has put the document `a` into its transaction. -/
def putsA : List NetworkEvent :=
  .connect 0 0 :: .accept 0 :: asksC .newTransaction ++ asksC (QDocdbServer.insertAIn 0)

/-- Another client opens a transaction and writes it, with nothing in it. -/
def commitsNothing : List NetworkEvent :=
  [.connect 1 1, .accept 1, .call 1 { CallState.findC with type := .newTransaction }, .request 1,
    .call 1 { CallState.findC with type := .writeTransaction 1 }, .request 1]

theorem batchKept_putsA :
    ∃ N N' t, NetworkLeads QDocdbServer.emptyServerEnv (fun _ _ => True) N N' ∧
      (N'.server.replies.map fun a => a.2.2.opened?) = [some 0, none, some 1, none] ∧
      N.server.transactions.lookup 0 = some t ∧
      t.tx.kvdb.isDeleted (constructDocumentStartKey (bytes "a")) = some false ∧
      N'.server.transactions.lookup 0 = some t := by
  obtain ⟨N, N', hN, h, htest⟩ := exists_leads putsA commitsNothing
    (fun N N' => (N.server.transactions.lookup 0).any (fun t =>
        t.tx.kvdb.isDeleted (constructDocumentStartKey (bytes "a")) = some false) ∧
      (N'.server.replies.map fun a => a.2.2.opened?) = [some 0, none, some 1, none] ∧
      N'.server.replies.length < 2 ^ 31 ∧
      (N'.server.replies.drop N.server.replies.length).all fun a =>
        a.2.1.type.transactionId? ≠ some 0) (by decide) (by decide)
  obtain ⟨hsome, hopened, hfew, hall⟩ := of_decide_eq_true htest
  obtain ⟨t, ht, hput⟩ := (Option.any_eq_true _ _).mp hsome
  exact ⟨N, N', t, h, hopened, ht, of_decide_eq_true hput, (batchKept_of_leads hN h hfew ht
    fun a ha => of_decide_eq_true (List.all_eq_true.mp hall a ha)).1⟩

end Network

end Qdocdb
