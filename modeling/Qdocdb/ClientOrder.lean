import Mathlib.Data.List.GetD
import Qdocdb.ServerSteps

/-!
# The order of a client's requests

A request that has to wait goes to the end of its client's queue, and a later request that
does not have to wait is served at once. So the order in which a client sent its requests
to a database is kept as long as none is served at once while an earlier one to the same
database is still waiting (`servedInOrder_of_run`). Serving the queue again keeps the order
by itself: what is left behind waits for a lock that a request of the same client cannot
release.

What a request addresses is noted when it arrives.
-/

namespace Qdocdb

namespace QDocdbServer

variable {E : ServerEnv} {s s' : QDocdbServer} {client : ClientId} {o : QDocdbLinkObject}

/-! ## Requests and their databases -/

/-- The databases that a request addresses, by its url or by an open transaction. -/
def addresses (s : QDocdbServer) (o : QDocdbLinkObject) : List QString :=
  (if o.type.urlNeeded then [o.url.dbName] else []) ++
    ((o.type.transactionId?.bind fun txId => s.transactions.lookup txId).map
      fun t => t.place.1).toList

/-- For each client the databases that its requests addressed, in the order of arrival. -/
abbrev Arrivals : Type := ClientId → List (List QString)

/-- What a request of a client addressed when it arrived. -/
def Arrivals.of (arrivals : Arrivals) (client : ClientId) (o : QDocdbLinkObject) : List QString :=
  (arrivals client).getD o.serial []

/-- Note the arrival of a request. -/
def arrive (s : QDocdbServer) (arrivals : Arrivals) : Event → Arrivals
  | .received client o =>
    Function.update arrivals client (arrivals client ++ [s.addresses o])
  | _ => arrivals

/-- The requests of a client are numbered. -/
def Numbered (arrivals : Arrivals) : Event → Prop
  | .received client o => o.serial = (arrivals client).length
  | _ => True

instance (arrivals : Arrivals) (e : Event) : Decidable (Numbered arrivals e) :=
  match e with
  | .received client o => inferInstanceAs (Decidable (o.serial = (arrivals client).length))
  | .connected _ => .isTrue trivial
  | .unlocked _ => .isTrue trivial
  | .observeQueryChanged => .isTrue trivial
  | .disconnected _ => .isTrue trivial

/-- The states of a server, with the arrivals so far, when every event is allowed by `ok`. -/
inductive OrderedRun (E : ServerEnv) (ok : QDocdbServer → Arrivals → Event → Prop) :
    QDocdbServer → Arrivals → Prop
  | started : OrderedRun E ok .init fun _ => []
  | handled {s s' : QDocdbServer} {arrivals : Arrivals} {e : Event} :
    OrderedRun E ok s arrivals → Numbered arrivals e → ok s arrivals e →
    s.handle E e = some s' → OrderedRun E ok s' (s.arrive arrivals e)

/-- The requests of a client that were served, in that order. -/
def requestsServed (s : QDocdbServer) (client : ClientId) : List QDocdbLinkObject :=
  s.sent.filterMap fun m =>
    match m with
    | (c, .reply o _) => if c = client then some o else none
    | _ => none

/-- Two requests of a client that address one database were served in the order sent. -/
def ServedInOrder (s : QDocdbServer) (arrivals : Arrivals) : Prop :=
  ∀ client, (s.requestsServed client).Pairwise fun o o' =>
    ∀ dbName ∈ arrivals.of client o, dbName ∈ arrivals.of client o' → o.serial < o'.serial

/-- The transaction that a request with a url names is of the url's database, if it is open
at all, and a request that does not have to wait addresses no database that a waiting one of
its client addresses. -/
def OvertakesNone (s : QDocdbServer) (arrivals : Arrivals) : Event → Prop
  | .received client o =>
    (o.type.urlNeeded = true → ∀ txId t, o.type.transactionId? = some txId →
      s.transactions.lookup txId = some t → t.place.1 = o.url.dbName) ∧
    (s.mustWait client o = false → ∀ w ∈ (s.links client).unlockWait,
      ∀ dbName ∈ s.addresses o, dbName ∉ arrivals.of client w)
  | _ => True

theorem requestsServed_send_reply (r : Reply) (c : ClientId) :
    (s.send client (.reply o r)).requestsServed c =
      if c = client then s.requestsServed c ++ [o] else s.requestsServed c := by
  rw [requestsServed, send, List.filterMap_append]
  by_cases hc : c = client
  · simp [hc, requestsServed]
  · simp [hc, Ne.symm hc, requestsServed]

/-- A request with a url addresses its database only, when its transaction is of that one. -/
theorem mem_addresses_of_urlNeeded (hurl : o.type.urlNeeded = true)
    (htx : ∀ txId t, o.type.transactionId? = some txId → s.transactions.lookup txId = some t →
      t.place.1 = o.url.dbName) {dbName : QString} :
    dbName ∈ s.addresses o ↔ dbName = o.url.dbName := by
  rw [addresses, if_pos hurl, List.singleton_append, List.mem_cons]
  refine ⟨fun h => h.elim id fun h => ?_, .inl⟩
  obtain ⟨t, ht, rfl⟩ := Option.map_eq_some_iff.mp (Option.mem_toList.mp h)
  obtain ⟨txId, htype, ht⟩ := Option.bind_eq_some_iff.mp ht
  exact htx txId t htype ht

/-! ## The invariant -/

/-- What holds of the queue and the served requests of one client, when the first `n`
waiting requests are being received again: those that wait behind them were sent before
them and still wait for a lock. -/
structure QueueInOrder (s : QDocdbServer) (arrivals : Arrivals) (client : ClientId) (n : ℕ) :
    Prop where
  sorted : ((s.links client).unlockWait.drop n ++ (s.links client).unlockWait.take n).Pairwise
    fun w w' => w.serial < w'.serial
  waiting : ∀ w ∈ (s.links client).unlockWait, w.serial < (arrivals client).length ∧
    w.type.urlNeeded = true ∧ ∀ dbName, dbName ∈ arrivals.of client w ↔ dbName = w.url.dbName
  locked : n ≠ 0 → ∀ w ∈ (s.links client).unlockWait.drop n, s.mustWait client w = true
  served_lt : ∀ o ∈ s.requestsServed client, o.serial < (arrivals client).length
  served_before : ∀ w ∈ (s.links client).unlockWait, ∀ o ∈ s.requestsServed client,
    w.url.dbName ∈ arrivals.of client o → o.serial < w.serial
  inOrder : (s.requestsServed client).Pairwise fun o o' =>
    ∀ dbName ∈ arrivals.of client o, dbName ∈ arrivals.of client o' → o.serial < o'.serial

/-- All queues are in order; that of `client` is being received again. -/
def InOrder (arrivals : Arrivals) (client : ClientId) (n : ℕ) (s : QDocdbServer) : Prop :=
  ∀ c, QueueInOrder s arrivals c (if c = client then n else 0)

/-- What holds of a request when it is received: its place among the waiting ones, and
that it overtakes no request to the same database. -/
structure FitInOrder (arrivals : Arrivals) (n : ℕ) (s : QDocdbServer) (client : ClientId)
    (o : QDocdbLinkObject) : Prop where
  serial_lt : o.serial < (arrivals client).length
  databases : o.type.urlNeeded = true →
    ∀ dbName, dbName ∈ arrivals.of client o ↔ dbName = o.url.dbName
  after : ∀ w ∈ (s.links client).unlockWait.drop n, w.serial < o.serial
  before : ∀ w ∈ (s.links client).unlockWait.take n, o.serial < w.serial
  overtakes : s.mustWait client o = false → ∀ w ∈ (s.links client).unlockWait,
    w.url.dbName ∈ arrivals.of client o → o.serial < w.serial
  served_before : ∀ o' ∈ s.requestsServed client, ∀ dbName ∈ arrivals.of client o,
    dbName ∈ arrivals.of client o' → o'.serial < o.serial

/-- A queue that did not change stays in order when locks of others stay. -/
theorem QueueInOrder.congr {arrivals : Arrivals} {c : ClientId} {n : ℕ}
    (h : QueueInOrder s arrivals c n)
    (hqueue : (s'.links c).unlockWait = (s.links c).unlockWait)
    (hserved : s'.requestsServed c = s.requestsServed c)
    (hlocks : n ≠ 0 → ∀ w, s.mustWait c w = true → s'.mustWait c w = true) :
    QueueInOrder s' arrivals c n where
  sorted := by
    rw [hqueue]
    exact h.sorted
  waiting := by
    rw [hqueue]
    exact h.waiting
  locked := by
    rw [hqueue]
    exact fun hn w hw => hlocks hn w (h.locked hn w hw)
  served_lt := by
    rw [hserved]
    exact h.served_lt
  served_before := by
    rw [hqueue, hserved]
    exact h.served_before
  inOrder := by
    rw [hserved]
    exact h.inOrder

/-- An empty queue is in order when the served requests are. -/
theorem QueueInOrder.of_nil {arrivals : Arrivals} {c : ClientId} {n : ℕ}
    (h : QueueInOrder s arrivals c n) (hqueue : (s'.links c).unlockWait = [])
    (hserved : s'.requestsServed c = s.requestsServed c) : QueueInOrder s' arrivals c 0 where
  sorted := by simp [hqueue]
  waiting := by simp [hqueue]
  locked := fun h => absurd rfl h
  served_lt := by
    rw [hserved]
    exact h.served_lt
  served_before := by simp [hqueue]
  inOrder := by
    rw [hserved]
    exact h.inOrder

/-- A request is appended to the end of the queue. -/
theorem QueueInOrder.append {arrivals : Arrivals} {n : ℕ}
    (h : QueueInOrder s arrivals client n) (hn : n ≤ (s.links client).unlockWait.length)
    (hfit : FitInOrder arrivals n s client o) (hw : s.mustWait client o = true) :
    QueueInOrder (s.appendUnlockWait client o) arrivals client n := by
  have hqueue : ((s.appendUnlockWait client o).links client).unlockWait =
      (s.links client).unlockWait ++ [o] := by
    rw [appendUnlockWait, links_setLink_self]
  have hurl := (mustWait_iff.mp hw).1
  have hdb := hfit.databases hurl
  constructor
  · rw [hqueue, List.drop_append_of_le_length hn, List.take_append_of_le_length hn,
      List.append_assoc, List.pairwise_append]
    obtain ⟨hdrop, htake, hcross⟩ := List.pairwise_append.mp h.sorted
    refine ⟨hdrop, List.pairwise_cons.mpr ⟨hfit.before, htake⟩, fun w hwd w' hw' => ?_⟩
    rcases List.mem_cons.mp hw' with rfl | hw'
    · exact hfit.after w hwd
    · exact hcross w hwd w' hw'
  · intro w hmem
    rw [hqueue, List.mem_append, List.mem_singleton] at hmem
    rcases hmem with hmem | rfl
    · exact h.waiting w hmem
    · exact ⟨hfit.serial_lt, hurl, hdb⟩
  · intro hn0 w hmem
    rw [hqueue, List.drop_append_of_le_length hn, List.mem_append, List.mem_singleton] at hmem
    rcases hmem with hmem | rfl
    · exact h.locked hn0 w hmem
    · exact hw
  · exact h.served_lt
  · intro w hmem o' ho' hmem'
    rw [hqueue, List.mem_append, List.mem_singleton] at hmem
    rcases hmem with hmem | rfl
    · exact h.served_before w hmem o' ho' hmem'
    · exact hfit.served_before o' ho' _ ((hdb _).mpr rfl) hmem'
  · exact h.inOrder

/-- A request is served that overtakes no waiting one. -/
theorem QueueInOrder.serve {arrivals : Arrivals} {n : ℕ} {p : QDocdbServer × Reply}
    (h : QueueInOrder s arrivals client n) (hfit : FitInOrder arrivals n s client o)
    (hw : s.mustWait client o = false) (hserved : Served E s client o p) :
    QueueInOrder (p.1.send client (.reply o p.2)) arrivals client n := by
  have hqueue : ((p.1.send client (.reply o p.2)).links client).unlockWait =
      (s.links client).unlockWait := hserved.unlockWait client
  have hrequests : (p.1.send client (.reply o p.2)).requestsServed client =
      s.requestsServed client ++ [o] := by
    rw [requestsServed_send_reply, if_pos rfl, requestsServed, hserved.sent, requestsServed]
  constructor
  · rw [hqueue]
    exact h.sorted
  · rw [hqueue]
    exact h.waiting
  · rw [hqueue]
    intro hn w hmem
    obtain ⟨hurl, owner, hne, hlock⟩ := mustWait_iff.mp (h.locked hn w hmem)
    exact mustWait_iff.mpr ⟨hurl, owner, hne, hserved.databaseLocks_of_ne hlock hne⟩
  · intro o' ho'
    rw [hrequests, List.mem_append, List.mem_singleton] at ho'
    rcases ho' with ho' | rfl
    · exact h.served_lt o' ho'
    · exact hfit.serial_lt
  · rw [hqueue]
    intro w hmem o' ho' hdb
    rw [hrequests, List.mem_append, List.mem_singleton] at ho'
    rcases ho' with ho' | rfl
    · exact h.served_before w hmem o' ho' hdb
    · exact hfit.overtakes hw w hmem hdb
  · rw [hrequests, List.pairwise_append]
    refine ⟨h.inOrder, List.pairwise_singleton _ _, fun o' ho' o'' ho'' dbName hdb hdb' => ?_⟩
    obtain rfl := List.mem_singleton.mp ho''
    exact hfit.served_before o' ho' dbName hdb' hdb

/-- A waiting request is taken off the queue, which is fit to be received. -/
theorem QueueInOrder.dequeue {arrivals : Arrivals} {n : ℕ} {rest : List QDocdbLinkObject}
    (h : QueueInOrder s arrivals client (n + 1)) (hq : (s.links client).unlockWait = o :: rest) :
    QueueInOrder (s.dequeue client) arrivals client n ∧
      FitInOrder arrivals n (s.dequeue client) client o := by
  have hqueue : ((s.dequeue client).links client).unlockWait = rest := by
    rw [QDocdbServer.dequeue, links_setLink_self]
    simp [hq]
  have hserved : (s.dequeue client).requestsServed client = s.requestsServed client := rfl
  have hwait : ∀ w, (s.dequeue client).mustWait client w = s.mustWait client w := fun _ => rfl
  have hsorted := h.sorted
  rw [hq, List.drop_succ_cons, List.take_succ_cons, List.pairwise_append] at hsorted
  obtain ⟨hdrop, htake, hcross⟩ := hsorted
  obtain ⟨hhead, htake⟩ := List.pairwise_cons.mp htake
  have hmem : ∀ w ∈ rest, w ∈ (s.links client).unlockWait := fun w hw => by
    rw [hq]
    exact List.mem_cons_of_mem _ hw
  obtain ⟨hlt, hurl, hdb⟩ := h.waiting o (by rw [hq]; exact List.mem_cons_self)
  have hlocked : ∀ w ∈ rest.drop n, s.mustWait client w = true := fun w hw =>
    h.locked (Nat.succ_ne_zero n) w (by rwa [hq, List.drop_succ_cons])
  refine ⟨⟨?_, ?_, ?_, h.served_lt, ?_, h.inOrder⟩, ⟨hlt, fun _ => hdb, ?_, ?_, ?_, ?_⟩⟩
  · rw [hqueue, List.pairwise_append]
    exact ⟨hdrop, htake, fun w hw w' hw' => hcross w hw w' (List.mem_cons_of_mem _ hw')⟩
  · rw [hqueue]
    exact fun w hw => h.waiting w (hmem w hw)
  · rw [hqueue]
    exact fun _ => hlocked
  · rw [hqueue]
    exact fun w hw => h.served_before w (hmem w hw)
  · rw [hqueue]
    exact fun w hw => hcross w hw o List.mem_cons_self
  · rw [hqueue]
    exact hhead
  · rw [hqueue]
    intro hw w hmem' hdb'
    rw [← List.take_append_drop n rest, List.mem_append] at hmem'
    rcases hmem' with hmem' | hmem'
    · exact hhead w hmem'
    · -- a request left behind waits for a lock, so this one would have to wait, too
      obtain ⟨-, owner, hne, hlock⟩ := mustWait_iff.mp (hlocked w hmem')
      rw [(hdb _).mp hdb'] at hlock
      rw [hwait, mustWait_iff.mpr ⟨hurl, owner, hne, hlock⟩] at hw
      cases hw
  · intro o' ho' dbName hdb' hdb''
    refine h.served_before o (by rw [hq]; exact List.mem_cons_self) o' ho' ?_
    rwa [← (hdb _).mp hdb']

/-! ## Runs -/

/-- The queues of the other clients stay as they were, and what they were served. -/
theorem InOrder.update {arrivals : Arrivals} {n m : ℕ} (h : InOrder arrivals client n s)
    (hclient : QueueInOrder s arrivals client n → QueueInOrder s' arrivals client m)
    (hqueue : ∀ c, c ≠ client → (s'.links c).unlockWait = (s.links c).unlockWait)
    (hserved : ∀ c, c ≠ client → s'.requestsServed c = s.requestsServed c) :
    InOrder arrivals client m s' := by
  intro c
  have hc := h c
  by_cases heq : c = client
  · rw [heq, if_pos rfl] at hc ⊢
    exact hclient hc
  · rw [if_neg heq] at hc ⊢
    exact hc.congr (hqueue c heq) (hserved c heq) fun h => absurd rfl h

/-- Between events it does not matter which queue is named. -/
theorem inOrder_zero_iff {arrivals : Arrivals} :
    InOrder arrivals client 0 s ↔ ∀ c, QueueInOrder s arrivals c 0 :=
  forall_congr' fun c => by rw [ite_self]

/-- A queue that was emptied, or received again to its end. -/
theorem InOrder.done {arrivals : Arrivals} {n : ℕ} (h : InOrder arrivals client n s)
    (hn : n = 0 ∨ (s.links client).unlockWait = []) : ∀ c, QueueInOrder s arrivals c 0 :=
  inOrder_zero_iff.mp <| h.update
    (fun hclient => hn.elim (fun hn => hn ▸ hclient) fun hq => hclient.of_nil hq rfl)
    (fun _ _ => rfl) fun _ _ => rfl

/-- The queue of a client is taken to be received again. -/
theorem QueueInOrder.taken {arrivals : Arrivals} (h : QueueInOrder s arrivals client 0) :
    QueueInOrder (s.takeUnlocked client) arrivals client
      (s.links client).unlockWait.length := by
  have hlink : ((s.takeUnlocked client).links client).unlockWait =
      (s.links client).unlockWait := by
    rw [takeUnlocked, links_setLink_self]
  refine ⟨?_, ?_, ?_, h.served_lt, ?_, h.inOrder⟩
  · simpa [hlink] using h.sorted
  · simpa [hlink] using h.waiting
  · simp [hlink]
  · rw [hlink]
    exact h.served_before

theorem serverInvariant_inOrder (arrivals : Arrivals) :
    ServerInvariant E (fun _ e => ∀ client o, e ≠ .received client o)
      (fun s => ∀ client, QueueInOrder s arrivals client 0)
      (fun client n s => InOrder arrivals client n s ∧ n ≤ (s.links client).unlockWait.length)
      (FitInOrder arrivals) where
  started := fun client =>
    { sorted := List.Pairwise.nil
      waiting := fun _ h => by cases h
      locked := fun h => absurd rfl h
      served_lt := fun _ h => by cases h
      served_before := fun _ h => by cases h
      inOrder := List.Pairwise.nil }
  connected := fun {s client} hI _ => by
    have h0 : InOrder arrivals client 0 s := inOrder_zero_iff.mpr hI
    refine inOrder_zero_iff.mp
      (h0.update (fun h => h.of_nil (by simp) rfl) (fun c hc => ?_) fun _ _ => rfl)
    rw [links_newConnection, Function.update_of_ne hc]
  disconnected := fun {s client} hI _ _ => by
    have h0 : InOrder arrivals client 0 s := inOrder_zero_iff.mpr hI
    refine inOrder_zero_iff.mp
      (h0.update (fun h => h.of_nil (by simp) rfl) (fun c hc => ?_) fun _ _ => rfl)
    rw [links_clientRemoved, Function.update_of_ne hc]
  notified := fun {s pending id reply} hI _ c => by
    refine (hI c).congr ?_ ?_ fun h => absurd rfl h
    · rw [observeChanged]
      split <;> rfl
    · rw [observeChanged]
      split
      · simp [requestsServed, send]
      · rfl
  arrived := fun _ hok _ => absurd rfl (hok _ _)
  taken := fun {s client} hI _ _ => by
    refine ⟨(inOrder_zero_iff.mpr hI).update QueueInOrder.taken (fun c hc => ?_) fun _ _ => rfl, ?_⟩
    · rw [takeUnlocked, links_setLink_of_ne hc]
    · rw [takeUnlocked, links_setLink_self]
  dequeued := fun {s client n o rest} hJ _ hq => by
    obtain ⟨hI, hn⟩ := hJ
    have hclient := hI client
    rw [if_pos rfl] at hclient
    refine ⟨⟨hI.update (fun h => (h.dequeue hq).1) (fun c hc => ?_) fun _ _ => rfl, ?_⟩,
      (hclient.dequeue hq).2⟩
    · rw [QDocdbServer.dequeue, links_setLink_of_ne hc]
    · rw [QDocdbServer.dequeue, links_setLink_self]
      rw [hq] at hn
      simpa [hq] using hn
  done := fun hJ hn => hJ.1.done hn
  opened := fun {s client n o} hJ hfit => by
    obtain ⟨d, h, -⟩ := openDatabaseOf_eq E s o
    rw [h]
    exact ⟨⟨fun c => (hJ.1 c).congr rfl rfl fun _ _ => id, hJ.2⟩,
      { serial_lt := hfit.serial_lt
        databases := hfit.databases
        after := hfit.after
        before := hfit.before
        overtakes := hfit.overtakes
        served_before := hfit.served_before }⟩
  waits := fun {s client n o} hJ hfit _ hw => by
    obtain ⟨hI, hn⟩ := hJ
    refine ⟨hI.update (fun h => h.append hn hfit hw) (fun c hc => ?_) fun _ _ => rfl, ?_⟩
    · rw [appendUnlockWait, links_setLink_of_ne hc]
    · rw [appendUnlockWait, links_setLink_self]
      simp only [List.length_append, List.length_singleton]
      omega
  served := fun {s client n o p} hJ hfit _ hw hserved => by
    obtain ⟨hI, hn⟩ := hJ
    refine ⟨hI.update (fun h => h.serve hfit hw hserved) (fun c _ => hserved.unlockWait c)
      fun c hc => ?_, ?_⟩
    · rw [requestsServed_send_reply, if_neg hc, requestsServed, hserved.sent, requestsServed]
    · have hqueue := hserved.unlockWait client
      rw [← hqueue] at hn
      exact hn

/-- Noting an arrival does not change what earlier requests addressed. -/
theorem Arrivals.of_update {arrivals : Arrivals} {c : ClientId} {addresses : List QString}
    {w : QDocdbLinkObject} (hw : w.serial < (arrivals c).length) :
    Arrivals.of (Function.update arrivals client (arrivals client ++ [addresses])) c w =
      arrivals.of c w := by
  rw [Arrivals.of, Arrivals.of]
  by_cases hc : c = client
  · subst hc
    rw [Function.update_self, List.getD_append _ _ _ _ hw]
  · rw [Function.update_of_ne hc]

theorem Arrivals.length_le_update {arrivals : Arrivals} {addresses : List QString} (c : ClientId) :
    (arrivals c).length ≤
      (Function.update arrivals client (arrivals client ++ [addresses]) c).length := by
  by_cases hc : c = client
  · subst hc
    simp
  · rw [Function.update_of_ne hc]

/-- Queues stay in order when an arrival is noted. -/
theorem QueueInOrder.arrive {arrivals : Arrivals} {c : ClientId} {n : ℕ}
    (h : QueueInOrder s arrivals c n) (addresses : List QString) :
    QueueInOrder s (Function.update arrivals client (arrivals client ++ [addresses])) c n where
  sorted := h.sorted
  waiting := fun w hw => by
    obtain ⟨hlt, hurl, hdb⟩ := h.waiting w hw
    rw [Arrivals.of_update hlt]
    exact ⟨hlt.trans_le (Arrivals.length_le_update c), hurl, hdb⟩
  locked := h.locked
  served_lt := fun o ho => (h.served_lt o ho).trans_le (Arrivals.length_le_update c)
  served_before := fun w hw o ho => by
    rw [Arrivals.of_update (h.served_lt o ho)]
    exact h.served_before w hw o ho
  inOrder := by
    refine h.inOrder.imp_of_mem fun {o o'} ho ho' hoo' => ?_
    rw [Arrivals.of_update (h.served_lt o ho), Arrivals.of_update (h.served_lt o' ho')]
    exact hoo'

/-- A request that arrives is fit to be received. -/
theorem fitInOrder_of_arrived {arrivals : Arrivals} (h : QueueInOrder s arrivals client 0)
    (hnum : o.serial = (arrivals client).length)
    (hok : OvertakesNone s arrivals (.received client o)) :
    FitInOrder (s.arrive arrivals (.received client o)) 0 s client o := by
  have hof : Arrivals.of (s.arrive arrivals (.received client o)) client o = s.addresses o := by
    rw [Arrivals.of, QDocdbServer.arrive, Function.update_self, hnum,
      List.getD_append_right _ _ _ _ le_rfl, Nat.sub_self]
    rfl
  constructor
  · rw [QDocdbServer.arrive, Function.update_self, hnum]
    simp
  · intro hurl dbName
    rw [hof]
    exact mem_addresses_of_urlNeeded hurl (hok.1 hurl)
  · intro w hw
    rw [hnum]
    exact (h.waiting w hw).1
  · intro w hw
    cases hw
  · intro hw w hmem hdb
    rw [hof] at hdb
    exact absurd (((h.waiting w hmem).2.2 _).mpr rfl) (hok.2 hw w hmem _ hdb)
  · intro o' ho' dbName _ _
    rw [hnum]
    exact h.served_lt o' ho'

/-- **Order is kept** in every run in which no request overtakes a waiting one. By
induction on the run: an arriving request is put behind the others or overtakes none, and
every other event leaves the arrivals alone. -/
theorem servedInOrder_of_run {arrivals : Arrivals} (h : OrderedRun E OvertakesNone s arrivals) :
    ServedInOrder s arrivals := by
  suffices hI : ∀ client, QueueInOrder s arrivals client 0 from fun client => (hI client).inOrder
  induction h with
  | started => exact (serverInvariant_inOrder (E := E) fun _ => []).started
  | @handled s s' arrivals e _ hnum hok hs ih =>
    by_cases he : ∀ client o, e ≠ .received client o
    · have harrive : s.arrive arrivals e = arrivals := by
        cases e <;> first | rfl | exact absurd rfl (he _ _)
      rw [harrive]
      exact (serverInvariant_inOrder arrivals).handle ih he hs
    · push Not at he
      obtain ⟨client, o, rfl⟩ := he
      rw [QDocdbServer.handle] at hs
      split at hs
      · rename_i hc
        have inv := serverInvariant_inOrder (E := E) (s.arrive arrivals (.received client o))
        have hJ := inv.receive (n := 0)
          ⟨fun c => by
            rw [ite_self]
            exact (ih c).arrive _, Nat.zero_le _⟩
          (fitInOrder_of_arrived (ih client) hnum hok) hc hs
        exact inv.done hJ.1 (.inl rfl)
      · cases hs

/-! ## A commit that overtakes an insertion -/

/-- Handle some events in order as long as `ok` allows them, and note the arrivals. -/
def handleOrdered (E : ServerEnv) (ok : QDocdbServer → Event → Bool) :
    QDocdbServer → Arrivals → List Event → Option (QDocdbServer × Arrivals)
  | s, arrivals, [] => some (s, arrivals)
  | s, arrivals, e :: es =>
    if decide (Numbered arrivals e) && ok s e then
      (s.handle E e).bind fun s' => handleOrdered E ok s' (s.arrive arrivals e) es
    else none

theorem orderedRun_of_handleOrdered {ok : QDocdbServer → Arrivals → Event → Prop}
    {ok' : QDocdbServer → Event → Bool} (hok : ∀ s arrivals e, ok' s e = true → ok s arrivals e)
    {es : List Event} {arrivals arrivals' : Arrivals} (hs : OrderedRun E ok s arrivals)
    (h : handleOrdered E ok' s arrivals es = some (s', arrivals')) :
    OrderedRun E ok s' arrivals' := by
  induction es generalizing s arrivals with
  | nil =>
    obtain ⟨rfl, rfl⟩ := Prod.mk.inj (Option.some.inj h)
    exact hs
  | cons e es ih =>
    rw [handleOrdered] at h
    split at h
    · rename_i he
      rw [Bool.and_eq_true] at he
      obtain ⟨s₁, hs₁, h⟩ := Option.bind_eq_some_iff.mp h
      exact ih (hs.handled (of_decide_eq_true he.1) (hok _ _ _ he.2) hs₁) h
    · cases h

/-- Client 1 opens a transaction on `D`, client 2 locks `D`, and the insertion of client 1
has to wait. -/
def insertWaitsD : List Event :=
  [.connected 1, .connected 2, .received 1 (requestD 0 .newTransaction),
    .received 2 (requestD 0 .exclusiveLock), .received 1 (requestD 1 (insertAIn 0))]

/-- A request names no transaction, and it waits or no other one of its client does. -/
def waitsOrIsAlone (s : QDocdbServer) : Event → Bool
  | .received client o => o.type.transactionId?.isNone &&
    (s.mustWait client o || (s.links client).unlockWait.isEmpty)
  | _ => true

theorem overtakesNone_of_waitsOrIsAlone (arrivals : Arrivals) (e : Event)
    (h : s.waitsOrIsAlone e = true) : OvertakesNone s arrivals e := by
  cases e with
  | received client o =>
    rw [waitsOrIsAlone, Bool.and_eq_true, Bool.or_eq_true, Option.isNone_iff_eq_none,
      List.isEmpty_iff] at h
    refine ⟨fun _ txId t htx => ?_, fun hw w hmem => ?_⟩
    · rw [h.1] at htx
      cases htx
    · rcases h.2 with hwait | hempty
      · rw [hwait] at hw
        cases hw
      · rw [hempty] at hmem
        cases hmem
  | _ => trivial

/-- Two insertions of client 1 wait for the lock of client 2 and are served in order. -/
def insertsWaitD : List Event :=
  [.connected 1, .connected 2, .received 2 (requestD 0 .exclusiveLock),
    .received 1 (requestD 0 (insertAIn (-1))), .received 1 (requestD 1 (insertAIn (-1))),
    .received 2 (requestD 1 .unlock), .unlocked 1]

theorem servedInOrder_insertsWaitD :
    ∃ s arrivals, handleOrdered emptyServerEnv waitsOrIsAlone .init (fun _ => []) insertsWaitD =
      some (s, arrivals) ∧ ServedInOrder s arrivals := by
  obtain ⟨⟨s, arrivals⟩, hs⟩ := Option.isSome_iff_exists.mp
    (show (handleOrdered emptyServerEnv waitsOrIsAlone .init (fun _ => [])
      insertsWaitD).isSome = true by decide)
  exact ⟨s, arrivals, hs, servedInOrder_of_run
    (orderedRun_of_handleOrdered (fun _ => overtakesNone_of_waitsOrIsAlone) .started hs)⟩

/-- The transaction of client 1 is written before the insertion in it that waits. -/
theorem not_servedInOrder :
    ¬ ∀ (E : ServerEnv) (s : QDocdbServer) (arrivals : Arrivals),
      OrderedRun E (fun _ _ _ => True) s arrivals → ServedInOrder s arrivals := by
  intro h
  obtain ⟨⟨s, arrivals⟩, hs, hp⟩ := (Option.any_eq_true _ _).mp
    (show (handleOrdered emptyServerEnv (fun _ _ => true) .init (fun _ => []) (insertWaitsD ++
      [.received 1 (requestD 2 (.writeTransaction 0)), .received 2 (requestD 1 .unlock),
        .unlocked 1])).any (fun p => decide
          ((p.1.requestsServed 1).map QDocdbLinkObject.serial = [0, 2, 1] ∧
            p.2 1 = [[qs "D"], [qs "D", qs "D"], [qs "D"]])) = true by decide)
  obtain ⟨hserials, harrivals⟩ := of_decide_eq_true hp
  have horder := h _ s arrivals
    (orderedRun_of_handleOrdered (fun _ _ _ _ => trivial) .started hs) 1
  rcases hq : s.requestsServed 1 with _ | ⟨o₀, _ | ⟨o₁, _ | ⟨o₂, rest⟩⟩⟩ <;>
    rw [hq] at hserials horder <;> simp at hserials
  obtain ⟨-, h₁, h₂, -⟩ := hserials
  have hlt := (List.pairwise_cons.mp (List.pairwise_cons.mp horder).2).1 o₂ List.mem_cons_self
    (qs "D")
  rw [Arrivals.of, Arrivals.of, show arrivals 1 = _ from harrivals, h₁, h₂] at hlt
  simp at hlt

end QDocdbServer

end Qdocdb
