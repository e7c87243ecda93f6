import Qdocdb.Lib.Simulation
import Qdocdb.Network

/-!
# One request after another

A server keeps queues for its clients, and a request that meets the lock of another client waits
in one of them for an event of its own. None of this is seen in what is stored and in what is
answered: a server without connections, which opens databases, serves one request after another
and forgets clients, gives the same replies in the same order and comes to the same content
(`follows_handle`). A request is served at one moment between its call and its reply, so what a
call has returned was served before anything that is asked for later (`linearizable_of_leads`).
-/

namespace Qdocdb

namespace QDocdbServer

variable {E : ServerEnv} {ok : QDocdbServer → Event → Prop} {s s' : QDocdbServer}
  {client : ClientId} {o : QDocdbLinkObject}

/-! ## A server without connections -/

/-- A server without its connections, the requests that wait and the messages. -/
def core (s : QDocdbServer) : QDocdbServer :=
  { s with
    clients := []
    links := fun _ => ⟨[], 0⟩
    observeQueryChanged := []
    sent := [] }

/-- What a server without connections does. -/
inductive Act where
  /-- the database of a request is opened -/
  | opened (o : QDocdbLinkObject)
  /-- a request is served, with its database open and no lock of another client on it -/
  | served (client : ClientId) (o : QDocdbLinkObject)
  /-- a client is gone -/
  | removed (client : ClientId)

/-- Do something, with the replies that it gives. -/
def Act.step (E : ServerEnv) (s : QDocdbServer) :
    Act → Option (List (ClientId × QDocdbLinkObject × Reply) × QDocdbServer)
  | opened o => some ([], s.openDatabaseOf E o)
  | served client o =>
    if (s.openDatabaseOf E o).mustWait client o then none
    else ((s.openDatabaseOf E o).serve E client o).map fun p => ([(client, o, p.2)], p.1.core)
  | removed client => some ([], (s.clientRemoved client).core)

/-- The replies among the messages that were sent, with their requests. -/
def replies (s : QDocdbServer) : List (ClientId × QDocdbLinkObject × Reply) :=
  s.sent.filterMap fun m =>
    match m.2 with
    | .reply o r => some (m.1, o, r)
    | .observeData _ _ => none

theorem mem_replies {r : Reply} : (client, o, r) ∈ s.replies ↔ (client, .reply o r) ∈ s.sent := by
  rw [replies, List.mem_filterMap]
  constructor
  · rintro ⟨⟨c, m⟩, hm, heq⟩
    cases m with
    | reply o' r' =>
      obtain ⟨rfl, h⟩ := Prod.mk.inj (Option.some.inj heq)
      obtain ⟨rfl, rfl⟩ := Prod.mk.inj h
      exact hm
    | observeData => cases heq
  · exact fun hm => ⟨_, hm, rfl⟩

/-! ## Serving does not see connections -/

@[simp] theorem transactions_core : s.core.transactions = s.transactions := rfl

@[simp] theorem databases_core : s.core.databases = s.databases := rfl

@[simp] theorem databaseLocks_core : s.core.databaseLocks = s.databaseLocks := rfl

@[simp] theorem observeClient_core : s.core.observeClient = s.observeClient := rfl

@[simp] theorem observeCollection_core : s.core.observeCollection = s.observeCollection := rfl

@[simp] theorem collection?_core (place : Place) :
    s.core.collection? place = s.collection? place := rfl

@[simp] theorem openKVDB_core (place : Place) (inMemory : Bool) :
    s.core.openKVDB E place inMemory = s.openKVDB E place inMemory := rfl

theorem openDatabaseOf_core : s.core.openDatabaseOf E o = (s.openDatabaseOf E o).core := by
  rw [openDatabaseOf, openDatabaseOf]
  split
  · rw [getDatabase, getDatabase, apply_ite core]
    rfl
  · rfl

theorem openCollectionOf_core :
    (s.core.openCollectionOf E o).core = (s.openCollectionOf E o).core := by
  simp only [openCollectionOf, collection?_core, openKVDB_core]
  split <;> rfl

/-- A server that has served a request, without its connections. -/
def coreOf (p : QDocdbServer × Reply) : QDocdbServer × Reply := (p.1.core, p.2)

theorem writeTransaction_core (txId : ℤ) :
    coreOf (s.core.writeTransaction E txId) = coreOf (s.writeTransaction E txId) := by
  simp only [writeTransaction, transactions_core]
  split
  · rfl
  · rename_i t _
    have hcollection : ∀ (s' : QDocdbServer) transactions,
        { s' with transactions := transactions }.collection? t.place = s'.collection? t.place :=
      fun _ _ => rfl
    rw [hcollection s.core, hcollection s, collection?_core]
    split <;> rfl

theorem discardTransaction_core (txId : ℤ) :
    coreOf (s.core.discardTransaction txId) = coreOf (s.discardTransaction txId) := by
  rw [discardTransaction, discardTransaction, apply_ite coreOf, apply_ite coreOf]
  rfl

theorem unobserve_core (observeId : ℤ) :
    coreOf (s.core.unobserve client observeId) = coreOf (s.unobserve client observeId) := by
  simp only [unobserve, observeCollection_core, observeClient_core]
  split
  · rfl
  · split
    · rfl
    · rw [apply_ite coreOf, apply_ite coreOf]
      refine ite_congr rfl (fun _ => ?_) fun _ => rfl
      simp only [unobserveAt, collection?_core]
      split <;> rfl

theorem exclusiveLock_core (dbName : QString) :
    coreOf (s.core.exclusiveLock client dbName) = coreOf (s.exclusiveLock client dbName) := by
  rw [exclusiveLock, exclusiveLock, apply_ite coreOf, apply_ite coreOf]
  rfl

theorem unlock_core (dbName : QString) :
    coreOf (s.core.unlock client dbName) = coreOf (s.unlock client dbName) := by
  simp only [unlock, databaseLocks_core]
  split
  · rfl
  · rw [apply_ite coreOf, apply_ite coreOf]
    rfl

theorem operation_core (txId : ℤ) (op : TxOp) :
    coreOf (s.core.operation E txId op) = coreOf (s.operation E txId op) := by
  simp only [operation, transactions_core, collection?_core]
  split
  · rfl
  · split <;> rfl

theorem serveCollection_core (place : Place) (c : OpenCollection) :
    (s.core.serveCollection E client o place c).map coreOf =
      (s.serveCollection E client o place c).map coreOf := by
  simp only [serveCollection]
  split
  · rw [Option.map_some, Option.map_some, apply_ite coreOf, apply_ite coreOf, operation_core]
    rfl
  · split
    · rfl
    · rfl
    · rw [Option.map_map, Option.map_map]
      rfl

/-- **Serving does not see connections.** -/
theorem serve_core : (s.core.serve E client o).map coreOf = (s.serve E client o).map coreOf := by
  have hopen : (s.core.openCollectionOf E o).core = (s.openCollectionOf E o).core :=
    openCollectionOf_core
  have hcollection : (s.core.openCollectionOf E o).collection? o.place =
      (s.openCollectionOf E o).collection? o.place := by
    simpa only [collection?_core] using congrArg (fun t => t.collection? o.place) hopen
  simp only [serve, databases_core, hcollection]
  split
  · exact congrArg some (writeTransaction_core _)
  · exact congrArg some (discardTransaction_core _)
  · exact congrArg some (unobserve_core _)
  · rw [apply_ite (Option.map coreOf), apply_ite (Option.map coreOf)]
    refine ite_congr rfl (fun _ => rfl) fun _ => ?_
    split
    · exact congrArg some (exclusiveLock_core _)
    · exact congrArg some (unlock_core _)
    · rw [apply_ite (Option.map coreOf), apply_ite (Option.map coreOf)]
      refine ite_congr rfl (fun _ => rfl) fun _ => ?_
      split
      · exact congrArg (fun t => some (t, _)) hopen
      · rw [← serveCollection_core, hopen, serveCollection_core]

/-! ## What a server does, one after another -/

/-- The server came from `s` to `s'` as one without connections would, with the same replies. -/
def Follows (E : ServerEnv) (s s' : QDocdbServer) : Prop :=
  ∃ answers, Yields (Act.step E) s.core answers s'.core ∧ s'.replies = s.replies ++ answers

/-- Only connections change. -/
theorem follows_of_core (hcore : s'.core = s.core) (hreplies : s'.replies = s.replies) :
    Follows E s s' :=
  ⟨[], hcore ▸ .refl _, by rw [hreplies, List.append_nil]⟩

theorem Follows.trans {s'' : QDocdbServer} (h : Follows E s s') (h' : Follows E s' s'') :
    Follows E s s'' := by
  obtain ⟨answers, hyields, hreplies⟩ := h
  obtain ⟨answers', hyields', hreplies'⟩ := h'
  exact ⟨answers ++ answers', hyields.trans hyields', by
    rw [hreplies', hreplies, List.append_assoc]⟩

theorem replies_congr (h : s'.sent = s.sent) : s'.replies = s.replies := by
  rw [replies, replies, h]

/-- A request opens its database, and it waits or is served. -/
theorem follows_receive (h : s.receive E client o = some s') : Follows E s s' := by
  have hopen : (s.openDatabaseOf E o).sent = s.sent := by
    obtain ⟨databases, hd, -⟩ := openDatabaseOf_eq E s o
    rw [hd]
  rw [receive] at h
  split at h
  · obtain rfl := Option.some.inj h
    refine ⟨[], .single (a := .opened o) ?_, ?_⟩
    · rw [Act.step, openDatabaseOf_core]
      rfl
    · rw [List.append_nil]
      exact replies_congr hopen
  · rename_i hwait
    obtain ⟨p, hp, rfl⟩ := Option.map_eq_some_iff.mp h
    obtain ⟨q, hq, hcore⟩ := Option.map_eq_some_iff.mp (serve_core.trans (congrArg _ hp))
    obtain ⟨hcore, hreply⟩ := Prod.mk.inj hcore
    refine ⟨[(client, o, p.2)], .single (a := .served client o) ?_, ?_⟩
    · have hwait' : ¬ (s.openDatabaseOf E o).core.mustWait client o = true := hwait
      rw [Act.step, openDatabaseOf_core, if_neg hwait', hq, Option.map_some, hcore, hreply]
      rfl
    · rw [replies, replies, send, List.filterMap_append, (served_of_serve hp).sent, hopen]
      rfl

theorem follows_onUnlocked (n : ℕ) (h : onUnlocked E client n s = some s') : Follows E s s' := by
  induction n generalizing s with
  | zero =>
    obtain rfl := Option.some.inj h
    exact follows_of_core rfl rfl
  | succ n ih =>
    rw [onUnlocked] at h
    split at h
    · obtain rfl := Option.some.inj h
      exact follows_of_core rfl rfl
    · obtain ⟨s₁, hr, h⟩ := Option.bind_eq_some_iff.mp h
      have htaken : Follows E s (s.dequeue client) := follows_of_core rfl rfl
      exact htaken.trans ((follows_receive hr).trans (ih h))

/-- **Step** -/
theorem follows_handle {e : Event} (h : s.handle E e = some s') : Follows E s s' := by
  cases e with
  | connected client =>
    rw [handle] at h
    split at h
    · cases h
    · obtain rfl := Option.some.inj h
      exact follows_of_core rfl rfl
  | received client o =>
    rw [handle] at h
    split at h
    · exact follows_receive h
    · cases h
  | unlocked client =>
    rw [handle] at h
    split at h
    · have htaken : Follows E s (s.takeUnlocked client) := follows_of_core rfl rfl
      exact htaken.trans (follows_onUnlocked _ h)
    · cases h
  | observeQueryChanged =>
    rw [handle] at h
    split at h
    · cases h
    · obtain rfl := Option.some.inj h
      rw [observeChanged]
      split
      · refine follows_of_core rfl ?_
        rw [replies, send, List.filterMap_append]
        exact List.append_nil _
      · exact follows_of_core rfl rfl
  | disconnected client =>
    rw [handle] at h
    split at h
    · obtain rfl := Option.some.inj h
      exact ⟨[], .single (a := .removed client) rfl, (List.append_nil _).symm⟩
    · cases h

end QDocdbServer

/-! ## Clients see one request after another -/

namespace Network

open QDocdbServer (Act Follows)

variable {E : ServerEnv} {ok : Network → NetworkEvent → Prop} {N N' : Network}

/-- **Run** -/
theorem follows_of_leads (h : NetworkLeads E ok N N') : Follows E N.server N'.server := by
  induction h with
  | refl => exact QDocdbServer.follows_of_core rfl rfl
  | handled _ _ hs ih =>
    rcases (happens_of_handle hs).server_eq with heq | ⟨e', -, hs'⟩
    · rwa [heq]
    · exact ih.trans (QDocdbServer.follows_handle hs')

/-- A call that returned with a reply, unless it was canceled. -/
def Answered (N : Network) (link : ClientId) (o : QDocdbLinkObject) (r : Reply) : Prop :=
  ∃ p w, (w, some r) ∈ (N.clients p).returned ∧ r.error ≠ qs "canceled" ∧ w.link = link ∧
    w.linkObject = o

theorem NetworkOk.mem_replies (h : N.NetworkOk) {link : ClientId} {o : QDocdbLinkObject} {r : Reply}
    (hr : N.Answered link o r) : (link, o, r) ∈ N.server.replies := by
  obtain ⟨p, w, hw, hne, rfl, rfl⟩ := hr
  exact QDocdbServer.mem_replies.mpr (((h.clients p).honest w r hw).resolve_left hne)

/-- What is called later is answered later. -/
theorem NetworkOk.mem_answers (h : N.NetworkOk) (h' : N'.NetworkOk)
    {answers : List (ClientId × QDocdbLinkObject × Reply)}
    (hreplies : N'.server.replies = N.server.replies ++ answers) {link : ClientId}
    {o : QDocdbLinkObject} {r : Reply} (hr : N'.Answered link o r) (hnew : o ∉ N.requests link) :
    (link, o, r) ∈ answers := by
  have hmem := h'.mem_replies hr
  rw [hreplies, List.mem_append] at hmem
  refine hmem.resolve_left fun hold => hnew ?_
  exact h.mem_requests_of_sent (QDocdbServer.mem_replies.mp hold)

/-- **Calls are linearizable**: the replies that clients get are those of a server without
connections that serves one request after another. At any moment `N` of a run, what has returned
was served before, and what is called later is served later. -/
theorem linearizable_of_leads (hN : NetworkReachable E FewCalls N)
    (h : NetworkLeads E FewCalls N N') :
    ∃ answers, Yields (Act.step E) .init N.server.replies N.server.core ∧
      Yields (Act.step E) N.server.core answers N'.server.core ∧
      N'.server.replies = N.server.replies ++ answers ∧
      (∀ link o r, N.Answered link o r → (link, o, r) ∈ N.server.replies) ∧
      ∀ link o r, N'.Answered link o r → o ∉ N.requests link → (link, o, r) ∈ answers := by
  have hok := networkOk_of_reachable hN
  have hok' := networkOk_of_reachable (hN.leads h)
  obtain ⟨_, hinit⟩ := hN.leads_init
  obtain ⟨before, hbefore, hreplies⟩ := follows_of_leads hinit
  obtain ⟨answers, hafter, hreplies'⟩ := follows_of_leads h
  exact ⟨answers, hreplies ▸ hbefore, hafter, hreplies', fun link o r hr => hok.mem_replies hr,
    fun link o r hr hnew => hok.mem_answers hok' hreplies' hr hnew⟩

/-- The client finds documents again. -/
def findsAgain : List NetworkEvent :=
  [.call 0 CallState.findC, .request 0, .deliver 0, .client 0 .returned]

theorem linearizable_findsC :
    ∃ N N', handleAll QDocdbServer.emptyServerEnv (init fun _ => false) findsC = some N ∧
      handleAll QDocdbServer.emptyServerEnv N findsAgain = some N' ∧
      ∃ answers, N'.server.replies = N.server.replies ++ answers ∧
        ∀ link o r, N'.Answered link o r → o ∉ N.requests link → (link, o, r) ∈ answers := by
  obtain ⟨N, hN, N', hN'⟩ : ∃ N, handleAll QDocdbServer.emptyServerEnv (init fun _ => false)
      findsC = some N ∧ ∃ N', handleAll QDocdbServer.emptyServerEnv N findsAgain = some N' := by
    obtain ⟨N, hN, hsome⟩ := (Option.any_eq_true _ _).mp
      (show (handleAll QDocdbServer.emptyServerEnv (init fun _ => false) findsC).any (fun N =>
        (handleAll QDocdbServer.emptyServerEnv N findsAgain).isSome) = true by decide)
    exact ⟨N, hN, Option.isSome_iff_exists.mp hsome⟩
  have hok : ∀ N, (∀ p, (N.clients p).made < 2 ^ 32) → ∀ e : NetworkEvent, FewCalls N e := by
    intro N hlt e
    cases e <;> first | exact hlt _ | trivial
  have hfew : ∀ p, (N.clients p).made + findsAgain.length ≤ 2 ^ 32 := fun p =>
    (Nat.add_le_add_right (made_handleAll hN p) _).trans (show 0 + 6 + 4 ≤ 2 ^ 32 by decide)
  obtain ⟨answers, -, -, hreplies, -, hnew⟩ := linearizable_of_leads
    (reachable_of_init (by decide) (fun N hlt e _ => hok N hlt e) hN)
    (leads_of_handleAll (fun N hlt e _ => hok N hlt e) hfew hN')
  exact ⟨N, N', hN, hN', answers, hreplies, hnew⟩

end Network

end Qdocdb
