import Qdocdb.ClientOrder
import Qdocdb.Locks

/-!
# Each request has one answer

A request that is received is served and answered at once, or put into the queue of its client.
A pass over the queue takes as many requests off as were there and receives them again, which
may put some of them back. What was answered to a client and what waits in its queue is
therefore, up to the order, what was received from it: no request gets lost, none is answered
twice, and nobody gets an answer to something else (`answered_or_waiting`). When nothing holds
the requests up any more, all of them have been answered (`allAnswered_of_run`).
-/

namespace Qdocdb

namespace QDocdbServer

variable {E : ServerEnv} {s s' : QDocdbServer} {client : ClientId} {o : QDocdbLinkObject}

/-- The requests of a client among some events. -/
def requestsOf (client : ClientId) (es : List Event) : List QDocdbLinkObject :=
  es.filterMap fun e =>
    match e with
    | .received c o => if c = client then some o else none
    | _ => none

/-- The requests of a client that were answered, and those that wait. -/
def heard (s : QDocdbServer) (client : ClientId) : List QDocdbLinkObject :=
  s.requestsServed client ++ (s.links client).unlockWait

/-- From `s` to `s'` the server has heard `new` of the client, and nothing of the others. -/
def Hears (client : ClientId) (new : List QDocdbLinkObject) (s s' : QDocdbServer) : Prop :=
  ∀ c, (s'.heard c).Perm (s.heard c ++ if c = client then new else [])

/-! ## One request -/

theorem requestsServed_congr (h : s'.sent = s.sent) (c : ClientId) :
    s'.requestsServed c = s.requestsServed c := by
  rw [requestsServed, requestsServed, h]

theorem heard_congr (hsent : s'.sent = s.sent) (hlinks : s'.links = s.links) (c : ClientId) :
    s'.heard c = s.heard c := by
  rw [heard, heard, requestsServed_congr hsent, hlinks]

/-- A request waits. -/
theorem hears_appendUnlockWait (s : QDocdbServer) (client : ClientId) (o : QDocdbLinkObject) :
    Hears client [o] s (s.appendUnlockWait client o) := by
  intro c
  have hserved : (s.appendUnlockWait client o).requestsServed c = s.requestsServed c := rfl
  by_cases hc : c = client
  · subst hc
    rw [heard, hserved, appendUnlockWait, links_setLink_self, if_pos rfl, heard, List.append_assoc]
  · rw [heard, hserved, appendUnlockWait, links_setLink_of_ne hc, if_neg hc, heard, List.append_nil]

/-- A request is served and answered. -/
theorem Served.hears {p : QDocdbServer × Reply} (h : Served E s client o p) :
    Hears client [o] s (p.1.send client (.reply o p.2)) := by
  intro c
  have hqueue : ((p.1.send client (.reply o p.2)).links c).unlockWait = (s.links c).unlockWait :=
    h.unlockWait c
  rw [heard, heard, hqueue, requestsServed_send_reply, requestsServed_congr h.sent c]
  split
  · rw [List.append_assoc, List.append_assoc]
    exact List.perm_append_comm.append_left _
  · rw [List.append_nil]

/-- **A request** that is received is answered or waits, once. -/
theorem hears_receive (h : s.receive E client o = some s') : Hears client [o] s s' := by
  have hopen : ∀ c, (s.openDatabaseOf E o).heard c = s.heard c := by
    obtain ⟨databases, hd, -⟩ := openDatabaseOf_eq E s o
    rw [hd]
    exact heard_congr rfl rfl
  intro c
  rw [receive] at h
  split at h
  · obtain rfl := Option.some.inj h
    rw [← hopen]
    exact hears_appendUnlockWait _ client o c
  · obtain ⟨p, hp, rfl⟩ := Option.map_eq_some_iff.mp h
    rw [← hopen]
    exact (served_of_serve hp).hears c

/-- **The loop over the queue** answers some of its requests. By induction on their number: what
is taken off the queue is heard again. -/
theorem hears_onUnlocked (n : ℕ) (h : onUnlocked E client n s = some s') :
    Hears client [] s s' := by
  induction n generalizing s with
  | zero =>
    obtain rfl := Option.some.inj h
    intro c
    rw [ite_self, List.append_nil]
  | succ n ih =>
    rw [onUnlocked] at h
    split at h
    · obtain rfl := Option.some.inj h
      intro c
      rw [ite_self, List.append_nil]
    · rename_i o rest hq
      obtain ⟨s₁, hr, h⟩ := Option.bind_eq_some_iff.mp h
      intro c
      have hrest := ih h c
      have hfirst := hears_receive hr c
      rw [ite_self, List.append_nil] at hrest ⊢
      refine hrest.trans (hfirst.trans ?_)
      have hserved : (s.dequeue client).requestsServed c = s.requestsServed c := rfl
      by_cases hc : c = client
      · subst hc
        rw [heard, heard, hserved, QDocdbServer.dequeue, links_setLink_self, hq, if_pos rfl,
          List.append_assoc]
        exact List.perm_append_comm.append_left _
      · rw [heard, heard, hserved, QDocdbServer.dequeue, links_setLink_of_ne hc, if_neg hc,
          List.append_nil]

/-! ## One event -/

theorem clients_receive (h : s.receive E client o = some s') : s'.clients = s.clients := by
  rw [receive] at h
  split at h
  · obtain rfl := Option.some.inj h
    exact clients_openDatabaseOf
  · obtain ⟨p, hp, rfl⟩ := Option.map_eq_some_iff.mp h
    exact (served_of_serve hp).clients.trans clients_openDatabaseOf

theorem clients_onUnlocked (n : ℕ) (h : onUnlocked E client n s = some s') :
    s'.clients = s.clients := by
  induction n generalizing s with
  | zero =>
    obtain rfl := Option.some.inj h
    rfl
  | succ n ih =>
    rw [onUnlocked] at h
    split at h
    · obtain rfl := Option.some.inj h
      rfl
    · obtain ⟨s₁, hr, h⟩ := Option.bind_eq_some_iff.mp h
      have hdequeue : (s.dequeue client).clients = s.clients := rfl
      exact (ih h).trans ((clients_receive hr).trans hdequeue)

theorem requestsOf_received (c client : ClientId) (o : QDocdbLinkObject) :
    requestsOf c [.received client o] = if c = client then [o] else [] := by
  by_cases hc : c = client
  · simp [requestsOf, hc]
  · simp [requestsOf, hc, Ne.symm hc]

theorem heard_observeChanged (id : ℤ) (reply : List QJsonValue) (c : ClientId) :
    (s.observeChanged id reply).heard c = s.heard c := by
  rw [observeChanged]
  split
  · rw [heard, heard]
    simp [requestsServed, send]
  · rfl

/-- What an event does to what was heard of a client: it adds the request of the client, unless
the client is lost, which takes away what waits. -/
structure HeardOn (c : ClientId) (e : Event) (s s' : QDocdbServer) : Prop where
  subperm : (s'.heard c).Subperm (s.heard c ++ requestsOf c [e])
  stays : c ∈ s.clients → e ≠ .disconnected c → c ∈ s'.clients
  perm : c ∈ s.clients → e ≠ .disconnected c → (s'.heard c).Perm (s.heard c ++ requestsOf c [e])

theorem HeardOn.of_perm {c : ClientId} {e : Event} (hclients : s'.clients = s.clients)
    (hperm : (s'.heard c).Perm (s.heard c ++ requestsOf c [e])) : HeardOn c e s s' :=
  ⟨hperm.subperm, fun hc _ => hclients ▸ hc, fun _ _ => hperm⟩

/-- A queue that is emptied. -/
theorem heard_subperm_of_nil {c : ClientId} (hsent : s'.sent = s.sent)
    (hqueue : (s'.links c).unlockWait = []) : (s'.heard c).Subperm (s.heard c) := by
  rw [heard, heard, hqueue, List.append_nil, requestsServed_congr hsent]
  exact (List.sublist_append_left _ _).subperm

/-- **An event** -/
theorem heardOn_handle {e : Event} (h : s.handle E e = some s') (c : ClientId) :
    HeardOn c e s s' := by
  cases e with
  | connected client =>
    rw [handle] at h
    split at h
    · cases h
    · rename_i hnew
      obtain rfl := Option.some.inj h
      have hnone : s.heard c ++ requestsOf c [.connected client] = s.heard c := List.append_nil _
      by_cases hc : c = client
      · subst hc
        refine ⟨?_, fun hmem => absurd hmem hnew, fun hmem => absurd hmem hnew⟩
        rw [hnone]
        exact heard_subperm_of_nil rfl (by simp)
      · have heq : (s.newConnection client).heard c = s.heard c := by
          rw [heard, heard, links_newConnection, Function.update_of_ne hc]
          rfl
        refine ⟨?_, fun hmem _ => List.mem_append_left _ hmem, fun _ _ => ?_⟩
        · rw [hnone, heq]
        · rw [hnone, heq]
  | received client o =>
    rw [handle] at h
    split at h
    · refine .of_perm (clients_receive h) ?_
      rw [requestsOf_received]
      exact hears_receive h c
    · cases h
  | unlocked client =>
    rw [handle] at h
    split at h
    · have htake : (s.takeUnlocked client).clients = s.clients := rfl
      refine .of_perm ((clients_onUnlocked _ h).trans htake) ?_
      have hperm := hears_onUnlocked _ h c
      rw [ite_self] at hperm
      have htaken : (s.takeUnlocked client).heard c = s.heard c := by
        have hqueue : ((s.takeUnlocked client).links c).unlockWait = (s.links c).unlockWait := by
          by_cases hc : c = client
          · rw [takeUnlocked, hc, links_setLink_self]
          · rw [takeUnlocked, links_setLink_of_ne hc]
        rw [heard, heard, hqueue]
        rfl
      rwa [htaken] at hperm
    · cases h
  | observeQueryChanged =>
    rw [handle] at h
    split at h
    · cases h
    · obtain rfl := Option.some.inj h
      refine .of_perm ?_ ?_
      · rw [observeChanged]
        split <;> rfl
      · rw [heard_observeChanged]
        exact (List.append_nil _).symm ▸ List.Perm.refl _
  | disconnected client =>
    rw [handle] at h
    split at h
    · obtain rfl := Option.some.inj h
      have hnone : s.heard c ++ requestsOf c [.disconnected client] = s.heard c :=
        List.append_nil _
      by_cases hc : c = client
      · subst hc
        refine ⟨?_, fun _ hne => absurd rfl hne, fun _ hne => absurd rfl hne⟩
        rw [hnone]
        exact heard_subperm_of_nil rfl (by simp)
      · have heq : (s.clientRemoved client).heard c = s.heard c := by
          rw [heard, heard, links_clientRemoved, Function.update_of_ne hc]
          rfl
        refine ⟨?_, fun hmem _ => List.mem_filter.mpr ⟨hmem, by simpa using hc⟩, fun _ _ => ?_⟩
        · rw [hnone, heq]
        · rw [hnone, heq]
    · cases h

/-! ## Runs -/

theorem requestsOf_cons (c : ClientId) (e : Event) (es : List Event) :
    requestsOf c (e :: es) = requestsOf c [e] ++ requestsOf c es := by
  rw [requestsOf, requestsOf, requestsOf, ← List.filterMap_append]
  rfl

/-- The ledger of a client that stays connected. By induction on the events. -/
theorem heard_perm {es : List Event} (h : handleAll E s es = some s') (hc : client ∈ s.clients)
    (hstays : Event.disconnected client ∉ es) :
    client ∈ s'.clients ∧ (s'.heard client).Perm (s.heard client ++ requestsOf client es) := by
  induction es generalizing s with
  | nil =>
    obtain rfl := Option.some.inj h
    refine ⟨hc, ?_⟩
    rw [requestsOf, List.filterMap_nil, List.append_nil]
  | cons e es ih =>
    obtain ⟨s₁, he, h⟩ := Option.bind_eq_some_iff.mp h
    obtain ⟨hne, hstays⟩ := not_or.mp (mt List.mem_cons.mpr hstays)
    have hstep := heardOn_handle he client
    obtain ⟨hmem, hperm⟩ := ih h (hstep.stays hc (Ne.symm hne)) hstays
    refine ⟨hmem, hperm.trans ?_⟩
    rw [requestsOf_cons, ← List.append_assoc]
    exact (hstep.perm hc (Ne.symm hne)).append_right _

/-- **One answer for each request**: while a client stays connected, whatever all clients do,
what it was answered and what waits for a lock is exactly what it had sent. -/
theorem answered_or_waiting {es : List Event} (h : handleAll E s es = some s')
    (hc : client ∈ s.clients) (hstays : Event.disconnected client ∉ es) :
    (s'.requestsServed client ++ (s'.links client).unlockWait).Perm
      (s.requestsServed client ++ (s.links client).unlockWait ++ requestsOf client es) :=
  (heard_perm h hc hstays).2

/-- **All answers**: when no signal to a client that stays connected is pending and nobody else
has locked the databases that its requests name, each of them has been answered once, as long
as no client is lost while it holds a lock that another one waits for. -/
theorem allAnswered_of_run {es : List Event} (h : handleAll E s es = some s')
    (hreach : ServerReachable E LosesNoAwaitedLock s') (hc : client ∈ s.clients)
    (hstays : Event.disconnected client ∉ es) (hpending : (s'.links client).unlocked = 0)
    (hfree : ∀ o ∈ s.heard client ++ requestsOf client es, ∀ owner,
      s'.databaseLocks o.url.dbName = some owner → owner = client) :
    (s'.requestsServed client).Perm (s.heard client ++ requestsOf client es) := by
  obtain ⟨hmem, hperm⟩ := heard_perm h hc hstays
  have hnone : (s'.links client).unlockWait = [] := by
    rw [List.eq_nil_iff_forall_not_mem]
    intro o ho
    have hheard := hperm.mem_iff.mp (List.mem_append_right _ ho)
    rcases serverInvariant_allAwait.reachable hreach client client hmem o (by simpa using ho) with
      ⟨owner, hne, hlock⟩ | hsignal
    · exact hne (hfree o hheard owner hlock)
    · exact hsignal.ne' hpending
  rwa [heard, hnone, List.append_nil] at hperm

/-! ## Two requests that wait -/

/-- Client 1 sends two requests while client 2 has locked `D`, and client 2 unlocks it. -/
def insertsAnsweredD : List Event := insertsWaitD.drop 2 ++ [.unlocked 2]

theorem exists_insertsAnsweredD :
    ∃ s s', handleAll emptyServerEnv .init (insertsWaitD.take 2) = some s ∧
      handleAll emptyServerEnv s insertsAnsweredD = some s' ∧ 1 ∈ s.clients ∧
      s.heard 1 = [] ∧ (s'.links 1).unlocked = 0 ∧ s'.databaseLocks (qs "D") = none := by
  obtain ⟨s, hs, hfirst⟩ := (Option.any_eq_true _ _).mp
    (show (handleAll emptyServerEnv .init (insertsWaitD.take 2)).any (fun s =>
      decide (1 ∈ s.clients ∧ (s.heard 1).length = 0) &&
        (handleAll emptyServerEnv s insertsAnsweredD).any fun s' =>
          decide ((s'.links 1).unlocked = 0 ∧ s'.databaseLocks (qs "D") = none)) = true by decide)
  rw [Bool.and_eq_true, decide_eq_true_eq] at hfirst
  obtain ⟨⟨hc, hnone⟩, hrest⟩ := hfirst
  obtain ⟨s', hs', hlast⟩ := (Option.any_eq_true _ _).mp hrest
  exact ⟨s, s', hs, hs', hc, List.eq_nil_of_length_eq_zero hnone, of_decide_eq_true hlast⟩

theorem answered_or_waiting_insertsAnsweredD :
    ∃ s s', handleAll emptyServerEnv s insertsAnsweredD = some s' ∧
      (s'.requestsServed 1 ++ (s'.links 1).unlockWait).Perm
        (s.requestsServed 1 ++ (s.links 1).unlockWait ++ requestsOf 1 insertsAnsweredD) := by
  obtain ⟨s, s', -, h, hc, -⟩ := exists_insertsAnsweredD
  exact ⟨s, s', h, answered_or_waiting h hc (by simp [insertsAnsweredD, insertsWaitD])⟩

theorem allAnswered_insertsAnsweredD :
    ∃ s s', handleAll emptyServerEnv s insertsAnsweredD = some s' ∧
      (s'.requestsServed 1).Perm (s.heard 1 ++ requestsOf 1 insertsAnsweredD) := by
  obtain ⟨s, s', hs, h, hc, hnone, hpending, hlock⟩ := exists_insertsAnsweredD
  have hreach : ServerReachable emptyServerEnv LosesNoAwaitedLock s' :=
    reachable_of_handleAll (reachable_of_handleAll .started
      (fun s => by simp [insertsWaitD, LosesNoAwaitedLock]) hs)
      (fun s => by simp [insertsAnsweredD, insertsWaitD, LosesNoAwaitedLock]) h
  refine ⟨s, s', h, allAnswered_of_run h hreach hc (by simp [insertsAnsweredD, insertsWaitD])
    hpending fun o ho owner howner => ?_⟩
  have hdb : o.url.dbName = qs "D" := by
    rw [hnone, List.nil_append] at ho
    have hall : ∀ o ∈ requestsOf 1 insertsAnsweredD, o.url.dbName = qs "D" := by
      simp [requestsOf, insertsAnsweredD, insertsWaitD, requestD, Url.of, Url.dbName]
    exact hall o ho
  rw [hdb, hlock] at howner
  cases howner

end QDocdbServer

end Qdocdb
