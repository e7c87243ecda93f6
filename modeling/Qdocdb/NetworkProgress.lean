import Qdocdb.Network

/-!
# Calls that go on waiting

Nothing gets lost on a connection whose ends are both open: what a client wrote is read by the
server, what the server has read was answered or waits for a lock, and an answer that the client
reads ends the event loop of its call. So when everything that was written has been read and no
signal is pending, a call that still waits waits for the lock of another client
(`waitsForLock_of_reachable`). A call whose connection is lost is canceled and does not wait.
-/

namespace Qdocdb

namespace Network

variable {E : ServerEnv} {N N' : Network} {p : ℕ} {link : ClientId}

/-- What the server has read from an open connection was answered or waits. -/
structure ServerReads (N : Network) : Prop where
  accepted : ∀ link ∈ N.server.clients, N.accepted link = true
  unread : ∀ link, N.accepted link = false → N.taken link = 0
  bounded : ∀ link, N.taken link ≤ (N.requests link).length
  heard : ∀ link ∈ N.server.clients,
    (N.server.heard link).Perm ((N.requests link).take (N.taken link))

/-- What a client has read ended the event loops that it should. -/
structure ClientReads (N : Network) (p : ℕ) : Prop where
  awake : (N.clients p).Awake
  ended : ∀ w ∈ (N.clients p).calls, ∀ o r,
    .reply o r ∈ (N.server.messagesTo w.link).take (N.delivered w.link) →
      o.id = w.linkObject.id → w.quit = true

/-! ## The server reads -/

/-- A connection that is open was open before, or it is new. -/
theorem mem_clients_of_handle {s s' : QDocdbServer} {e : QDocdbServer.Event}
    (h : s.handle E e = some s') (hmem : link ∈ s'.clients) :
    e ≠ .disconnected link ∧ (link ∈ s.clients ∨ e = .connected link) := by
  cases e with
  | connected client =>
    rw [QDocdbServer.handle] at h
    split at h
    · cases h
    · obtain rfl := Option.some.inj h
      refine ⟨fun heq => (by cases heq), (List.mem_append.mp hmem).imp_right fun hnew => ?_⟩
      rw [List.mem_singleton.mp hnew]
  | received client o =>
    rw [QDocdbServer.handle] at h
    split at h
    · exact ⟨fun heq => (by cases heq), .inl (QDocdbServer.clients_receive h ▸ hmem)⟩
    · cases h
  | unlocked client =>
    rw [QDocdbServer.handle] at h
    split at h
    · have hclients := QDocdbServer.clients_onUnlocked _ h
      have hold : link ∈ (s.takeUnlocked client).clients := hclients ▸ hmem
      exact ⟨fun heq => (by cases heq), .inl hold⟩
    · cases h
  | observeQueryChanged =>
    rw [QDocdbServer.handle] at h
    split at h
    · cases h
    · obtain rfl := Option.some.inj h
      refine ⟨fun heq => (by cases heq), .inl ?_⟩
      rw [QDocdbServer.observeChanged] at hmem
      split at hmem <;> exact hmem
  | disconnected client =>
    rw [QDocdbServer.handle] at h
    split at h
    · obtain rfl := Option.some.inj h
      obtain ⟨hold, hne⟩ := List.mem_filter.mp hmem
      refine ⟨?_, .inl hold⟩
      rintro heq
      obtain rfl := QDocdbServer.Event.disconnected.inj heq
      simp at hne
    · cases h

/-- The server handles an event that opens no connection. -/
theorem ServerReads.of_server (h : N.ServerReads) {s : QDocdbServer} {e : QDocdbServer.Event}
    (he : N.server.handle E e = some s) (hconnected : ∀ link, e ≠ .connected link)
    {taken : ClientId → ℕ}
    (hunread : ∀ link, link ∉ N.server.clients → taken link = N.taken link)
    (hbounded : ∀ link, taken link ≤ (N.requests link).length)
    (htaken : ∀ link, (N.requests link).take (taken link) =
      (N.requests link).take (N.taken link) ++ QDocdbServer.requestsOf link [e]) :
    ServerReads { N with server := s, taken := taken } := by
  have hmem : ∀ link ∈ s.clients, e ≠ .disconnected link ∧ link ∈ N.server.clients :=
    fun link hlink => by
      obtain ⟨hne, hor⟩ := mem_clients_of_handle he hlink
      exact ⟨hne, hor.resolve_right (hconnected link)⟩
  refine ⟨fun link hlink => h.accepted link (hmem link hlink).2, fun link hnot => ?_, hbounded,
    fun link hlink => ?_⟩
  · refine (hunread link fun hopen => ?_).trans (h.unread link hnot)
    have htrue := h.accepted link hopen
    rw [show N.accepted link = false from hnot] at htrue
    cases htrue
  · obtain ⟨hne, hopen⟩ := hmem link hlink
    refine ((QDocdbServer.heardOn_handle he link).perm hopen hne).trans ?_
    change List.Perm _ ((N.requests link).take (taken link))
    rw [htaken]
    exact (h.heard link hopen).append_right _

/-- The server learns of a connection. -/
theorem ServerReads.of_accept (h : N.ServerReads) (hok : N.NetworkOk) {s : QDocdbServer}
    (hnew : N.accepted link = false) (he : N.server.handle E (.connected link) = some s) :
    ServerReads { N with server := s, accepted := Function.update N.accepted link true } := by
  have hold : ∀ link' ∈ s.clients, link' ≠ link → link' ∈ N.server.clients :=
    fun link' hlink hne => by
      obtain ⟨-, hor⟩ := mem_clients_of_handle he hlink
      exact hor.resolve_right fun heq => hne (QDocdbServer.Event.connected.inj heq).symm
  have hnone : ∀ link', QDocdbServer.requestsOf link' [.connected link] = [] := fun _ => rfl
  refine ⟨fun link' hlink => ?_, fun link' hnot => ?_, h.bounded, fun link' hlink => ?_⟩
  · by_cases hl : link' = link
    · exact hl ▸ Function.update_self ..
    · exact (Function.update_of_ne hl ..).trans (h.accepted link' (hold link' hlink hl))
  · by_cases hl : link' = link
    · rw [hl] at hnot
      cases (Function.update_self ..).symm.trans hnot
    · exact h.unread link' ((Function.update_of_ne hl ..).symm.trans hnot)
  · have hheard := QDocdbServer.heardOn_handle he link'
    by_cases hl : link' = link
    · -- nothing was read from the connection yet
      subst hl
      have hsub := hheard.subperm.trans
        ((List.subperm_append_right _).mpr (hok.links.heard link'))
      rw [h.unread link' hnew, hnone, List.take_zero, List.append_nil] at hsub
      rw [List.subperm_nil.mp hsub, show ((N.requests link').take (N.taken link')) = [] by
        rw [h.unread link' hnew, List.take_zero]]
    · have hopen := hold link' hlink hl
      have hperm := hheard.perm hopen nofun
      rw [hnone, List.append_nil] at hperm
      exact hperm.trans (h.heard link' hopen)

/-- **Step** of the server's side. -/
theorem ServerReads.handle (h : N.ServerReads) (hok : N.NetworkOk) {e : NetworkEvent}
    (hs : N.handle E e = some N') : N'.ServerReads := by
  cases happens_of_handle hs with
  | connect hnew hc => exact ⟨h.accepted, h.unread, h.bounded, h.heard⟩
  | accept hnew he => exact h.of_accept hok hnew he
  | @request link o s ho he =>
    have hopen : link ∈ N.server.clients := by
      rw [QDocdbServer.handle] at he
      split at he
      · assumption
      · cases he
    have hlt := (List.getElem?_eq_some_iff.mp ho).1
    refine h.of_server he (fun _ heq => by cases heq) (fun link' hnot => ?_) (fun link' => ?_)
      fun link' => ?_
    · have hl : link' ≠ link := by
        rintro rfl
        exact hnot hopen
      exact Function.update_of_ne hl ..
    · by_cases hl : link' = link
      · rw [hl, Function.update_self]
        exact hlt
      · rw [Function.update_of_ne hl]
        exact h.bounded link'
    · rw [QDocdbServer.requestsOf_received]
      by_cases hl : link' = link
      · subst hl
        rw [if_pos rfl, Function.update_self, List.take_add_one, ho]
        rfl
      · rw [if_neg hl, Function.update_of_ne hl, List.append_nil]
  | @server e s hown he =>
    refine h.of_server he (fun link => ?_) (fun _ _ => rfl) h.bounded fun link => ?_
    · rintro rfl
      cases hown
    · have hnone : QDocdbServer.requestsOf link [e] = [] := by
        cases e <;> first | rfl | cases hown
      rw [hnone, List.append_nil]
  | @call p asked link c hlink hc =>
    have hrequests : ∀ link', ∃ new, Function.update N.requests link
        (N.requests link ++ [(N.clients p).newLinkObject asked]) link' =
          N.requests link' ++ new := by
      intro link'
      by_cases hl : link' = link
      · exact ⟨_, by rw [hl, Function.update_self]⟩
      · exact ⟨[], by rw [Function.update_of_ne hl, List.append_nil]⟩
    refine ⟨h.accepted, h.unread, fun link' => ?_, fun link' hopen => ?_⟩
    · obtain ⟨new, hnew⟩ := hrequests link'
      change N.taken link' ≤ (Function.update N.requests link _ link').length
      rw [hnew, List.length_append]
      exact (h.bounded link').trans (Nat.le_add_right _ _)
    · obtain ⟨new, hnew⟩ := hrequests link'
      change List.Perm _ ((Function.update N.requests link _ link').take (N.taken link'))
      rw [hnew, List.take_append_of_le_length (h.bounded link')]
      exact h.heard link' hopen
  | deliver hlink hm hc => exact ⟨h.accepted, h.unread, h.bounded, h.heard⟩
  | client hinner hc => exact ⟨h.accepted, h.unread, h.bounded, h.heard⟩

/-! ## Clients read -/

/-- The messages that a client has read. -/
def read (N : Network) (link : ClientId) : List Message :=
  (N.server.messagesTo link).take (N.delivered link)

/-- **Step** of a client that reads nothing. -/
theorem ClientReads.handle (h : N.ClientReads p) (hok : N.NetworkOk) {e : CallEvent}
    (hs : (N.clients p).handle e = some (N'.clients p)) (hread : ∀ link, N'.read link = N.read link)
    (hfew : ∀ asked, e = .called asked → (N.clients p).made < 2 ^ 32) : N'.ClientReads p := by
  refine ⟨h.awake.handle (hok.clients p).calls hs, fun w hw o r hm hid => ?_⟩
  have hm : .reply o r ∈ N.read w.link := hread w.link ▸ hm
  have hmem : .reply o r ∈ N.server.messagesTo w.link := List.mem_of_mem_take hm
  rcases (CallState.handled_of_handle hs).mem_calls hw with
    ⟨w₀, hw₀, hsame⟩ | ⟨link, asked, rfl, hlink, -, rfl⟩
  · rw [hsame.link] at hm
    rw [hsame.linkObject] at hid
    exact hsame.quit (h.ended w₀ hw₀ o r hm hid)
  · -- no answer to the new call was written yet
    have howner := hok.links.connected p link hlink
    have ho := hok.mem_requests_of_sent (QDocdbServer.mem_messagesTo.mp hmem)
    obtain ⟨hlt, hido⟩ := hok.links.numbered p link o howner ho
    have hnew : o.id = (N.clients p).nextFId := hid
    rw [hido, (hok.clients p).nextFId] at hnew
    have hfew := hfew asked rfl
    exact absurd (eq_of_int32_eq (hlt.trans hfew) hfew hnew) hlt.ne

/-- A client that does not notice what happens. -/
theorem ClientReads.mono (h : N.ClientReads p) (hc : N'.clients p = N.clients p)
    (hread : ∀ w ∈ (N.clients p).calls, N'.read w.link = N.read w.link) : N'.ClientReads p := by
  refine ⟨hc ▸ h.awake, fun w hw o r hm hid => ?_⟩
  have hw : w ∈ (N.clients p).calls := hc ▸ hw
  have hm : .reply o r ∈ N.read w.link := hread w hw ▸ hm
  exact h.ended w hw o r hm hid

/-- A reply that is read ends the event loop of its call. -/
theorem ClientReads.of_deliver (h : N.ClientReads p) (hok : N.NetworkOk) {message : Message}
    (hs : (N.clients p).handle (.received message) = some (N'.clients p))
    (hread : N'.read link = N.read link ++ [message])
    (hreads : ∀ link', link' ≠ link → N'.read link' = N.read link') : N'.ClientReads p := by
  have hcalls := (hok.clients p).calls
  refine ⟨h.awake.handle hcalls hs, fun w hw o r hm hid => ?_⟩
  have hm : .reply o r ∈ N'.read w.link := hm
  have hold : .reply o r ∈ N.read w.link → w.quit = true := by
    rcases (CallState.handled_of_handle hs).mem_calls hw with ⟨w₀, hw₀, hsame⟩ | ⟨_, _, heq, -⟩
    · rw [hsame.link]
      exact fun hm => hsame.quit (h.ended w₀ hw₀ o r hm (hsame.linkObject ▸ hid))
    · cases heq
  by_cases hl : w.link = link
  · rw [hl, hread, List.mem_append, ← hl] at hm
    rcases hm with hm | hm
    · exact hold hm
    · obtain rfl := List.mem_singleton.mp hm
      have hlooping := hs
      rw [CallState.handle] at hs
      split at hs
      · have hc := Option.some.inj hs
        rcases (CallState.handled_of_handle hlooping).mem_calls hw with
          ⟨w₀, hw₀, hsame⟩ | ⟨_, _, heq, -⟩
        · -- the query of the call is active
          have hactive := (hcalls.active o.id w₀.linkObject.serial).mpr
            ⟨_, CallState.mem_linkObjects hw₀, hsame.linkObject ▸ hid.symm, rfl⟩
          rw [← hc, CallState.calls_receive_reply hactive] at hw
          obtain ⟨w₁, hw₁, rfl⟩ := List.mem_map.mp hw
          have hserial : w₁.linkObject.serial = w₀.linkObject.serial := by
            rw [← hsame.linkObject]
            split <;> rfl
          rw [if_pos hserial]
        · cases heq
      · cases hs
  · exact hold (hreads _ hl ▸ hm)

/-- All clients and connections. -/
structure Reads (N : Network) : Prop where
  server : N.ServerReads
  clients : ∀ p, N.ClientReads p
  bounded : ∀ link, N.delivered link ≤ (N.server.messagesTo link).length

theorem reads_init (observeDataLock : ℕ → Bool) : (init observeDataLock).Reads where
  server :=
    { accepted := fun link h => by cases h
      unread := fun _ _ => rfl
      bounded := fun _ => le_rfl
      heard := fun link h => by cases h }
  clients := fun p =>
    { awake := fun w hw => by cases hw
      ended := fun w hw => by cases hw }
  bounded := fun _ => le_rfl

/-- What the server writes is not read yet. -/
theorem Reads.of_server (h : N.Reads) {s : QDocdbServer} {e : QDocdbServer.Event}
    (he : N.server.handle E e = some s) {accepted : ClientId → Bool} {taken : ClientId → ℕ}
    (hserver : ServerReads { N with server := s, accepted := accepted, taken := taken }) :
    Reads { N with server := s, accepted := accepted, taken := taken } := by
  obtain ⟨new, hnew⟩ := QDocdbServer.exists_sent_handle he
  have hmessages : ∀ link, ∃ more, s.messagesTo link = N.server.messagesTo link ++ more :=
    fun link => ⟨_, by rw [QDocdbServer.messagesTo, hnew, List.filterMap_append]; rfl⟩
  refine ⟨hserver, fun p => (h.clients p).mono rfl fun w _ => ?_, fun link => ?_⟩
  · obtain ⟨more, hmore⟩ := hmessages w.link
    change (s.messagesTo w.link).take (N.delivered w.link) = _
    rw [hmore, List.take_append_of_le_length (h.bounded _)]
    rfl
  · obtain ⟨more, hmore⟩ := hmessages link
    change N.delivered link ≤ (s.messagesTo link).length
    rw [hmore, List.length_append]
    exact (h.bounded link).trans (Nat.le_add_right _ _)

/-- Something happens in a client that does not read. -/
theorem Reads.of_client (h : N.Reads) (hok : N.NetworkOk) {e : CallEvent} {c : CallState}
    (hs : (N.clients p).handle e = some c)
    (hfew : ∀ asked, e = .called asked → (N.clients p).made < 2 ^ 32)
    (hclients : N'.clients = (N.setClient p c).clients) (hsent : N'.server = N.server)
    (hdelivered : N'.delivered = N.delivered) (hserver : N'.ServerReads) : N'.Reads := by
  have hread : ∀ link, N'.read link = N.read link := fun link => by
    rw [read, read, hsent, hdelivered]
  refine ⟨hserver, fun q => ?_, fun link => ?_⟩
  · by_cases hqp : q = p
    · subst hqp
      refine (h.clients q).handle hok ?_ hread hfew
      rw [hclients, clients_setClient_self]
      exact hs
    · refine (h.clients q).mono ?_ fun w _ => hread w.link
      rw [hclients, clients_setClient_of_ne N hqp]
  · rw [hsent, hdelivered]
    exact h.bounded link

/-- **Step** -/
theorem Reads.handle (h : N.Reads) (hok : N.NetworkOk) {e : NetworkEvent} (hfew : FewCalls N e)
    (hs : N.handle E e = some N') : N'.Reads := by
  have hserver := h.server.handle hok hs
  cases happens_of_handle hs with
  | connect hnew hc => exact h.of_client hok hc nofun rfl rfl rfl hserver
  | accept hnew he => exact h.of_server he hserver
  | request ho he => exact h.of_server he hserver
  | server hown he => exact h.of_server he hserver
  | call hlink hc => exact h.of_client hok hc (fun _ _ => hfew) rfl rfl rfl hserver
  | @deliver p link message c hlink hm hc =>
    let N' : Network :=
      { N.setClient p c with
        delivered := Function.update N.delivered link (N.delivered link + 1) }
    have hreads : ∀ link', link' ≠ link → N'.read link' = N.read link' := fun link' hne =>
      congrArg ((N.server.messagesTo link').take ·) (Function.update_of_ne hne ..)
    refine ⟨hserver, fun q => ?_, fun link' => ?_⟩
    · by_cases hqp : q = p
      · subst hqp
        have hhandle : (N.clients q).handle (.received message) = some (N'.clients q) :=
          hc.trans (congrArg some (clients_setClient_self N q c).symm)
        refine (h.clients q).of_deliver hok hhandle ?_ hreads
        · change (N.server.messagesTo link).take (Function.update N.delivered link _ link) = _
          rw [Function.update_self, List.take_add_one, hm]
          rfl
      · -- a connection has one owner
        refine (h.clients q).mono (clients_setClient_of_ne N hqp c) fun w hw => hreads _ ?_
        rintro rfl
        have howner := ((hok.clients q).waiting w hw).1
        rw [hok.links.connected p _ hlink] at howner
        exact hqp (Option.some.inj howner).symm
    · by_cases hl : link' = link
      · subst hl
        change Function.update N.delivered link' _ link' ≤ _
        rw [Function.update_self]
        exact (List.getElem?_eq_some_iff.mp hm).1
      · change Function.update N.delivered link _ link' ≤ _
        rw [Function.update_of_ne hl]
        exact h.bounded link'
  | client hinner hc =>
    refine h.of_client hok hc ?_ rfl rfl rfl hserver
    rintro asked rfl
    cases hinner

/-! ## Calls that still wait -/

/-- Each client makes less than 2^32 calls, and none is lost while it holds a lock that another
one waits for. -/
def KeepsAnswering (N : Network) (e : NetworkEvent) : Prop :=
  FewCalls N e ∧ ∀ e', e = .server e' → QDocdbServer.LosesNoAwaitedLock N.server e'

/-- The server reaches its states by its own events. -/
theorem KeepsAnswering.server {e : NetworkEvent} (hok : KeepsAnswering N e)
    (h : ServerReachable E QDocdbServer.LosesNoAwaitedLock N.server)
    (hs : N.handle E e = some N') :
    ServerReachable E QDocdbServer.LosesNoAwaitedLock N'.server := by
  cases happens_of_handle hs with
  | @accept link s hnew he => exact h.handled (e := .connected link) trivial he
  | @request link o s ho he => exact h.handled (e := .received link o) trivial he
  | @server e s hown he => exact h.handled (hok.2 e rfl) he
  | _ => exact h

theorem reads_of_reachable (h : NetworkReachable E KeepsAnswering N) :
    N.NetworkOk ∧ N.Reads ∧ ServerReachable E QDocdbServer.LosesNoAwaitedLock N.server := by
  induction h with
  | started observeDataLock => exact ⟨networkOk_init _, reads_init _, .started⟩
  | handled _ hok hs ih =>
    obtain ⟨hnetwork, hreads, hserver⟩ := ih
    exact ⟨hnetwork.handle hok.1 hs, hreads.handle hnetwork hok.1 hs,
      hok.server hserver hs⟩

/-- Both ends of a connection are open, all that was written to it was read, and no signal to
it is pending. -/
structure Quiet (N : Network) (link : ClientId) : Prop where
  isOpen : link ∈ N.server.clients
  taken : N.taken link = (N.requests link).length
  delivered : N.delivered link = (N.server.messagesTo link).length
  unlocked : (N.server.links link).unlocked = 0

/-- **Calls wait for locks only**: when all that was written to the connection of a client was
read and no signal to it is pending, each of its calls whose event loop runs waits for the lock
of another connection, in any run in which no client is lost while it holds a lock that another
one waits for. -/
theorem waitsForLock_of_reachable (h : NetworkReachable E KeepsAnswering N)
    (hlink : (N.clients p).client = some link) (hquiet : N.Quiet link) :
    ∀ w ∈ (N.clients p).calls, w.quit = false →
      ∃ owner ≠ link, N.server.databaseLocks w.linkObject.url.dbName = some owner := by
  obtain ⟨hok, hreads, hserver⟩ := reads_of_reachable h
  intro w hw hquit
  obtain rfl : link = w.link :=
    Option.some.inj (hlink.symm.trans ((hreads.clients p).awake w hw hquit))
  have hsent := ((hok.clients p).waiting w hw).2
  have hheard := hreads.server.heard _ hquiet.isOpen
  rw [hquiet.taken, List.take_length] at hheard
  rcases List.mem_append.mp (hheard.mem_iff.mpr hsent) with hserved | hwaits
  · -- the answer was read, and it has ended the loop
    obtain ⟨r, hr⟩ := QDocdbServer.mem_requestsServed.mp hserved
    have hended := (hreads.clients p).ended w hw w.linkObject r
    rw [hquiet.delivered, List.take_length] at hended
    rw [hended (QDocdbServer.mem_messagesTo.mpr hr) rfl] at hquit
    cases hquit
  · have hawaits := QDocdbServer.serverInvariant_allAwait.reachable hserver w.link w.link
      hquiet.isOpen w.linkObject (by simpa using hwaits)
    exact hawaits.resolve_right fun hpending => hpending.ne' hquiet.unlocked

/-- Client 1 has locked `D`, and a call of client 0 waits for it. -/
def findWaits : List NetworkEvent :=
  [.connect 0 0, .accept 0, .connect 1 1, .accept 1,
    .call 1 { CallState.findC with type := .exclusiveLock }, .request 1, .deliver 1,
    .client 1 .returned, .call 0 CallState.findC, .request 0]

theorem waitsForLock_findWaits :
    ∃ N, handleAll QDocdbServer.emptyServerEnv (init fun _ => false) findWaits = some N ∧
      (N.clients 0).calls.map WaitingCall.quit = [false] ∧
      ∀ w ∈ (N.clients 0).calls, w.quit = false →
        ∃ owner ≠ 0, N.server.databaseLocks w.linkObject.url.dbName = some owner := by
  obtain ⟨N, hN, hquiet⟩ := (Option.any_eq_true _ _).mp
    (show (handleAll QDocdbServer.emptyServerEnv (init fun _ => false) findWaits).any (fun N =>
      (N.clients 0).calls.map WaitingCall.quit = [false] ∧ (N.clients 0).client = some 0 ∧
      0 ∈ N.server.clients ∧ N.taken 0 = (N.requests 0).length ∧
      N.delivered 0 = (N.server.messagesTo 0).length ∧ (N.server.links 0).unlocked = 0) = true
      by decide)
  obtain ⟨hcalls, hlink, hopen, htaken, hdelivered, hunlocked⟩ := of_decide_eq_true hquiet
  refine ⟨N, hN, hcalls, waitsForLock_of_reachable
    (reachable_of_init (by decide) (fun N hlt e he => ?_) hN) hlink
    ⟨hopen, htaken, hdelivered, hunlocked⟩⟩
  refine ⟨?_, ?_⟩
  · cases e <;> first | exact hlt _ | trivial
  · rintro e' rfl
    simp [findWaits] at he

end Network

end Qdocdb
