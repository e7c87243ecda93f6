import Qdocdb.Answers
import Qdocdb.Calls

/-!
# Clients and the server

Clients are connected to the server by sockets, which deliver what is written to them in order,
as long as both ends are open. The server handles its events, and each client what happens in
it, in any order. A request is written once, when a method is called, so it is served at most
once, whatever gets lost; and a call that returns with a reply, unless it was canceled, returns
with the one that the server computed for its own request (`callsAnswered_of_reachable`).

A connection has a name of its own, which is never used again. The number of a link object among
all of its client tells requests apart.
-/

namespace Qdocdb

/-- A server with its clients, and the bytes on their connections. -/
structure Network where
  server : QDocdbServer
  clients : ℕ → CallState
  /-- the client that opened a connection -/
  owner : ClientId → Option ℕ
  /-- `newConnection` was called for the connection -/
  accepted : ClientId → Bool
  /-- all requests that were written to a connection -/
  requests : ClientId → List QDocdbLinkObject
  /-- how many of them the server has read -/
  taken : ClientId → ℕ
  /-- how many of the messages that the server has written the client has read -/
  delivered : ClientId → ℕ

/-- All messages that were written to a connection by the server. -/
def QDocdbServer.messagesTo (s : QDocdbServer) (link : ClientId) : List Message :=
  s.sent.filterMap fun m => if m.1 = link then some m.2 else none

/-- What happens next. -/
inductive NetworkEvent where
  /-- a client connects -/
  | connect (p : ℕ) (link : ClientId)
  /-- the server learns of a connection -/
  | accept (link : ClientId)
  /-- the server reads the next request on a connection -/
  | request (link : ClientId)
  /-- the server handles a signal, or learns that a connection is lost -/
  | server (e : QDocdbServer.Event)
  /-- the application calls a method of a client -/
  | call (p : ℕ) (asked : Asked)
  /-- a client reads the next message on its connection -/
  | deliver (p : ℕ)
  /-- something else happens in a client -/
  | client (p : ℕ) (e : CallEvent)

namespace Network

/-- A server without connections. -/
def init (observeDataLock : ℕ → Bool) : Network where
  server := .init
  clients := fun p => .new (observeDataLock p)
  owner := fun _ => none
  accepted := fun _ => false
  requests := fun _ => []
  taken := fun _ => 0
  delivered := fun _ => 0

/-- Put a client in its place. -/
def setClient (N : Network) (p : ℕ) (c : CallState) : Network :=
  { N with clients := Function.update N.clients p c }

/-- The events of the server that come from no client's data. -/
def OwnEvent : QDocdbServer.Event → Bool
  | .connected _ => false
  | .received _ _ => false
  | _ => true

/-- The events of a client that neither open a connection nor use it. -/
def InnerEvent : CallEvent → Bool
  | .connected _ => false
  | .called _ => false
  | .received _ => false
  | _ => true

/-- Do something; nothing when it cannot happen, or when the server or the client does not
return from it. -/
def handle (E : ServerEnv) (N : Network) : NetworkEvent → Option Network
  | .connect p link =>
    if N.owner link = none then
      ((N.clients p).handle (.connected link)).map fun c =>
        { N.setClient p c with owner := Function.update N.owner link (some p) }
    else none
  | .accept link =>
    if (N.owner link).isSome ∧ N.accepted link = false then
      (N.server.handle E (.connected link)).map fun s =>
        { N with server := s, accepted := Function.update N.accepted link true }
    else none
  | .request link =>
    (N.requests link)[N.taken link]?.bind fun o =>
      (N.server.handle E (.received link o)).map fun s =>
        { N with server := s, taken := Function.update N.taken link (N.taken link + 1) }
  | .server e =>
    if OwnEvent e then (N.server.handle E e).map fun s => { N with server := s } else none
  | .call p asked =>
    (N.clients p).client.bind fun link =>
      ((N.clients p).handle (.called asked)).map fun c =>
        { N.setClient p c with
          requests := Function.update N.requests link
            (N.requests link ++ [(N.clients p).newLinkObject asked]) }
  | .deliver p =>
    (N.clients p).client.bind fun link =>
      (N.server.messagesTo link)[N.delivered link]?.bind fun message =>
        ((N.clients p).handle (.received message)).map fun c =>
          { N.setClient p c with
            delivered := Function.update N.delivered link (N.delivered link + 1) }
  | .client p e =>
    if InnerEvent e then ((N.clients p).handle e).map (N.setClient p) else none

/-- The calls whose requests were served: the client and the number of the link object. -/
def executed (N : Network) : List (ℕ × ℕ) :=
  N.server.sent.filterMap fun m =>
    match m.2 with
    | .reply o _ => (N.owner m.1).map fun p => (p, o.serial)
    | .observeData _ _ => none

end Network

/-- Everything that is reached from a server without connections, when `ok` allows what
happens. -/
inductive NetworkReachable (E : ServerEnv) (ok : Network → NetworkEvent → Prop) : Network → Prop
  | started (observeDataLock : ℕ → Bool) : NetworkReachable E ok (.init observeDataLock)
  | handled {N N' : Network} {e : NetworkEvent} :
    NetworkReachable E ok N → ok N e → N.handle E e = some N' → NetworkReachable E ok N'

/-- What is reached from a network, when `ok` allows what happens. -/
inductive NetworkLeads (E : ServerEnv) (ok : Network → NetworkEvent → Prop) (N : Network) :
    Network → Prop
  | refl : NetworkLeads E ok N N
  | handled {N₁ N₂ : Network} {e : NetworkEvent} :
    NetworkLeads E ok N N₁ → ok N₁ e → N₁.handle E e = some N₂ → NetworkLeads E ok N N₂

theorem NetworkReachable.leads {E : ServerEnv} {ok : Network → NetworkEvent → Prop} {N N' : Network}
    (hN : NetworkReachable E ok N) (h : NetworkLeads E ok N N') : NetworkReachable E ok N' := by
  induction h with
  | refl => exact hN
  | handled _ hok hs ih => exact ih.handled hok hs

theorem NetworkReachable.leads_init {E : ServerEnv} {ok : Network → NetworkEvent → Prop}
    {N : Network} (hN : NetworkReachable E ok N) :
    ∃ observeDataLock, NetworkLeads E ok (.init observeDataLock) N := by
  induction hN with
  | started observeDataLock => exact ⟨observeDataLock, .refl⟩
  | handled _ hok hs ih =>
    obtain ⟨observeDataLock, h⟩ := ih
    exact ⟨observeDataLock, h.handled hok hs⟩

namespace Network

/-- Each client makes less than 2^32 calls. -/
def FewCalls (N : Network) : NetworkEvent → Prop
  | .call p _ => (N.clients p).made < 2 ^ 32
  | _ => True

/-- No request is served twice, and a call that returned with a reply, unless it was canceled,
had its request served, and got the reply to it. -/
structure CallsAnswered (N : Network) : Prop where
  atMostOnce : ∀ p n, N.executed.count (p, n) ≤ 1
  once : ∀ p w r, (w, some r) ∈ (N.clients p).returned → r.error ≠ qs "canceled" →
    N.executed.count (p, w.linkObject.serial) = 1
  answer : ∀ p w r, (w, some r) ∈ (N.clients p).returned → r.error ≠ qs "canceled" →
    (w.link, .reply w.linkObject r) ∈ N.server.sent

end Network

/-! ## Numbers of link objects -/

theorem int32_int32_add_one (n : ℤ) : int32 (int32 n + 1) = int32 (n + 1) := by
  rw [int32, int32, int32]
  omega

/-- The ids of less than 2^32 link objects are different. -/
theorem eq_of_int32_eq {m n : ℕ} (hm : m < 2 ^ 32) (hn : n < 2 ^ 32)
    (h : int32 (1 + m) = int32 (1 + n)) : m = n := by
  rw [int32, int32] at h
  omega

/-! ## What the server has written -/

namespace QDocdbServer

variable {E : ServerEnv} {s s' : QDocdbServer} {client : ClientId} {o : QDocdbLinkObject}
  {e : Event}

theorem exists_sent_receive (h : s.receive E client o = some s') :
    ∃ new, s'.sent = s.sent ++ new := by
  have hopen : (s.openDatabaseOf E o).sent = s.sent := by
    obtain ⟨databases, hd, -⟩ := openDatabaseOf_eq E s o
    rw [hd]
  rw [receive] at h
  split at h
  · obtain rfl := Option.some.inj h
    exact ⟨[], by rw [List.append_nil]; exact hopen⟩
  · obtain ⟨p, hp, rfl⟩ := Option.map_eq_some_iff.mp h
    refine ⟨[(client, .reply o p.2)], ?_⟩
    rw [send, (served_of_serve hp).sent, hopen]

theorem exists_sent_onUnlocked (n : ℕ) (h : onUnlocked E client n s = some s') :
    ∃ new, s'.sent = s.sent ++ new := by
  induction n generalizing s with
  | zero =>
    obtain rfl := Option.some.inj h
    exact ⟨[], (List.append_nil _).symm⟩
  | succ n ih =>
    rw [onUnlocked] at h
    split at h
    · obtain rfl := Option.some.inj h
      exact ⟨[], (List.append_nil _).symm⟩
    · obtain ⟨s₁, hr, h⟩ := Option.bind_eq_some_iff.mp h
      obtain ⟨new, hnew⟩ := exists_sent_receive hr
      obtain ⟨rest, hrest⟩ := ih h
      refine ⟨new ++ rest, ?_⟩
      rw [hrest, hnew, List.append_assoc]
      rfl

/-- What was written stays written. -/
theorem exists_sent_handle (h : s.handle E e = some s') : ∃ new, s'.sent = s.sent ++ new := by
  cases e with
  | connected client =>
    rw [handle] at h
    split at h
    · cases h
    · obtain rfl := Option.some.inj h
      exact ⟨[], (List.append_nil _).symm⟩
  | received client o =>
    rw [handle] at h
    split at h
    · exact exists_sent_receive h
    · cases h
  | unlocked client =>
    rw [handle] at h
    split at h
    · obtain ⟨new, hnew⟩ := exists_sent_onUnlocked _ h
      exact ⟨new, hnew⟩
    · cases h
  | observeQueryChanged =>
    rw [handle] at h
    split at h
    · cases h
    · obtain rfl := Option.some.inj h
      rw [observeChanged]
      split
      · exact ⟨_, rfl⟩
      · exact ⟨[], (List.append_nil _).symm⟩
  | disconnected client =>
    rw [handle] at h
    split at h
    · obtain rfl := Option.some.inj h
      exact ⟨[], (List.append_nil _).symm⟩
    · cases h

theorem mem_messagesTo {link : ClientId} {m : Message} :
    m ∈ s.messagesTo link ↔ (link, m) ∈ s.sent := by
  rw [messagesTo, List.mem_filterMap]
  constructor
  · rintro ⟨⟨c, m'⟩, hmem, heq⟩
    split at heq
    · rename_i hc
      obtain rfl := Option.some.inj heq
      exact (show c = link from hc) ▸ hmem
    · cases heq
  · exact fun hmem => ⟨_, hmem, if_pos rfl⟩

theorem mem_requestsServed {link : ClientId} :
    o ∈ s.requestsServed link ↔ ∃ r, (link, .reply o r) ∈ s.sent := by
  rw [requestsServed, List.mem_filterMap]
  constructor
  · rintro ⟨⟨c, m⟩, hmem, heq⟩
    cases m with
    | reply o' r =>
      dsimp only at heq
      split at heq
      · rename_i hc
        obtain rfl := Option.some.inj heq
        exact ⟨r, hc ▸ hmem⟩
      · cases heq
    | observeData => cases heq
  · rintro ⟨r, hmem⟩
    exact ⟨_, hmem, if_pos rfl⟩

end QDocdbServer

/-! ## Clients -/

namespace Network

variable {E : ServerEnv} {N N' : Network} {p : ℕ} {link : ClientId} {e : CallEvent} {c : CallState}

/-- What an event amounts to. -/
inductive Happens (E : ServerEnv) (N : Network) : NetworkEvent → Network → Prop
  | connect {p : ℕ} {link : ClientId} {c : CallState} (hnew : N.owner link = none)
    (hc : (N.clients p).handle (.connected link) = some c) :
    Happens E N (.connect p link)
      { N.setClient p c with owner := Function.update N.owner link (some p) }
  | accept {link : ClientId} {s : QDocdbServer} (hnew : N.accepted link = false)
    (hs : N.server.handle E (.connected link) = some s) :
    Happens E N (.accept link)
      { N with server := s, accepted := Function.update N.accepted link true }
  | request {link : ClientId} {o : QDocdbLinkObject} {s : QDocdbServer}
    (ho : (N.requests link)[N.taken link]? = some o)
    (hs : N.server.handle E (.received link o) = some s) :
    Happens E N (.request link)
      { N with server := s, taken := Function.update N.taken link (N.taken link + 1) }
  | server {e : QDocdbServer.Event} {s : QDocdbServer} (hown : OwnEvent e = true)
    (hs : N.server.handle E e = some s) : Happens E N (.server e) { N with server := s }
  | call {p : ℕ} {asked : Asked} {link : ClientId} {c : CallState}
    (hlink : (N.clients p).client = some link)
    (hc : (N.clients p).handle (.called asked) = some c) :
    Happens E N (.call p asked)
      { N.setClient p c with
        requests := Function.update N.requests link
          (N.requests link ++ [(N.clients p).newLinkObject asked]) }
  | deliver {p : ℕ} {link : ClientId} {message : Message} {c : CallState}
    (hlink : (N.clients p).client = some link)
    (hm : (N.server.messagesTo link)[N.delivered link]? = some message)
    (hc : (N.clients p).handle (.received message) = some c) :
    Happens E N (.deliver p)
      { N.setClient p c with delivered := Function.update N.delivered link (N.delivered link + 1) }
  | client {p : ℕ} {e : CallEvent} {c : CallState} (hinner : InnerEvent e = true)
    (hc : (N.clients p).handle e = some c) : Happens E N (.client p e) (N.setClient p c)

/-- **Inversion of `handle`.** -/
theorem happens_of_handle {e : NetworkEvent} (h : N.handle E e = some N') : Happens E N e N' := by
  cases e with
  | connect p link =>
    rw [handle] at h
    split at h
    · rename_i hnew
      obtain ⟨c, hc, rfl⟩ := Option.map_eq_some_iff.mp h
      exact .connect hnew hc
    · cases h
  | accept link =>
    rw [handle] at h
    split at h
    · rename_i hnew
      obtain ⟨s, hs, rfl⟩ := Option.map_eq_some_iff.mp h
      exact .accept hnew.2 hs
    · cases h
  | request link =>
    obtain ⟨o, ho, h⟩ := Option.bind_eq_some_iff.mp h
    obtain ⟨s, hs, rfl⟩ := Option.map_eq_some_iff.mp h
    exact .request ho hs
  | server e =>
    rw [handle] at h
    split at h
    · rename_i hown
      obtain ⟨s, hs, rfl⟩ := Option.map_eq_some_iff.mp h
      exact .server hown hs
    · cases h
  | call p asked =>
    obtain ⟨link, hlink, h⟩ := Option.bind_eq_some_iff.mp h
    obtain ⟨c, hc, rfl⟩ := Option.map_eq_some_iff.mp h
    exact .call hlink hc
  | deliver p =>
    obtain ⟨link, hlink, h⟩ := Option.bind_eq_some_iff.mp h
    obtain ⟨message, hm, h⟩ := Option.bind_eq_some_iff.mp h
    obtain ⟨c, hc, rfl⟩ := Option.map_eq_some_iff.mp h
    exact .deliver hlink hm hc
  | client p e =>
    rw [handle] at h
    split at h
    · rename_i hinner
      obtain ⟨c, hc, rfl⟩ := Option.map_eq_some_iff.mp h
      exact .client hinner hc
    · cases h

/-- What an event of the network is for the server. -/
def serverEvent? (N : Network) : NetworkEvent → Option QDocdbServer.Event
  | .accept link => some (.connected link)
  | .request link => (N.requests link)[N.taken link]?.map (.received link)
  | .server e => some e
  | _ => none

/-- What happens to the server is an event of its own. -/
theorem Happens.server_eq {e : NetworkEvent} (h : Happens E N e N') :
    N'.server = N.server ∨
      ∃ e', N.serverEvent? e = some e' ∧ N.server.handle E e' = some N'.server := by
  cases h with
  | accept hnew he => exact .inr ⟨_, rfl, he⟩
  | @request link o s ho he => exact .inr ⟨.received link o, by rw [serverEvent?, ho]; rfl, he⟩
  | server hown he => exact .inr ⟨_, rfl, he⟩
  | _ => exact .inl rfl

theorem clients_setClient_self (N : Network) (p : ℕ) (c : CallState) :
    (N.setClient p c).clients p = c := Function.update_self ..

theorem clients_setClient_of_ne (N : Network) {p q : ℕ} (h : q ≠ p) (c : CallState) :
    (N.setClient p c).clients q = N.clients q := Function.update_of_ne h ..

/-- A reply that was stored for a call stands for a canceled query, or is the server's. -/
def Honest (N : Network) (w : WaitingCall) (r : Reply) : Prop :=
  r.error = qs "canceled" ∨ (w.link, .reply w.linkObject r) ∈ N.server.sent

/-- A call was sent on a connection of its client. -/
def SentBy (N : Network) (p : ℕ) (w : WaitingCall) : Prop :=
  N.owner w.link = some p ∧ w.linkObject ∈ N.requests w.link

/-- What holds of one client. -/
structure ClientOk (N : Network) (p : ℕ) : Prop where
  few : (N.clients p).made ≤ 2 ^ 32
  nextFId : (N.clients p).nextFId = int32 (1 + (N.clients p).made)
  calls : (N.clients p).CallsOk
  posted : ∀ id, .destroyReply id ∈ (N.clients p).posted →
    ∃ n < (N.clients p).made, id = int32 (1 + n)
  waiting : ∀ w ∈ (N.clients p).calls, N.SentBy p w
  numbered : ∀ w ∈ (N.clients p).calls, w.linkObject.serial < (N.clients p).made ∧
    w.linkObject.id = int32 (1 + w.linkObject.serial)
  stored : ∀ w ∈ (N.clients p).calls, ∀ r, (N.clients p).replies w.linkObject.id = some r →
    N.Honest w r
  returned : ∀ w reply, (w, reply) ∈ (N.clients p).returned → N.SentBy p w
  honest : ∀ w r, (w, some r) ∈ (N.clients p).returned → N.Honest w r

/-- Connections, requests and what the server has written only grow. -/
structure Grows (N N' : Network) : Prop where
  owner : ∀ link p, N.owner link = some p → N'.owner link = some p
  requests : ∀ link, ∀ o ∈ N.requests link, o ∈ N'.requests link
  sent : ∀ m ∈ N.server.sent, m ∈ N'.server.sent

theorem Grows.honest (h : Grows N N') {w : WaitingCall} {r : Reply} (hr : N.Honest w r) :
    N'.Honest w r :=
  hr.imp_right (h.sent _)

theorem Grows.sentBy (h : Grows N N') {w : WaitingCall} (hw : N.SentBy p w) : N'.SentBy p w :=
  ⟨h.owner _ _ hw.1, h.requests _ _ hw.2⟩

/-- A client in which nothing happens. -/
theorem ClientOk.mono (h : N.ClientOk p) (hgrows : Grows N N') (hc : N'.clients p = N.clients p) :
    N'.ClientOk p := by
  refine ⟨?_, ?_, ?_, ?_, ?_, ?_, ?_, ?_, ?_⟩ <;> rw [hc]
  · exact h.few
  · exact h.nextFId
  · exact h.calls
  · exact h.posted
  · exact fun w hw => hgrows.sentBy (h.waiting w hw)
  · exact h.numbered
  · exact fun w hw r hr => hgrows.honest (h.stored w hw r hr)
  · exact fun w reply hw => hgrows.sentBy (h.returned w reply hw)
  · exact fun w r hw => hgrows.honest (h.honest w r hw)

/-- The id of the next call is not in use. -/
theorem ClientOk.freshId (h : N.ClientOk p) (hfew : (N.clients p).made < 2 ^ 32) :
    (N.clients p).FreshId := by
  have hne : ∀ n < (N.clients p).made, int32 (1 + n) ≠ (N.clients p).nextFId := by
    intro n hn heq
    rw [h.nextFId] at heq
    exact hn.ne (eq_of_int32_eq (hn.trans hfew) hfew heq)
  constructor
  · intro o ho heq
    obtain ⟨w, hw, rfl⟩ := List.mem_map.mp ho
    obtain ⟨hlt, hid⟩ := h.numbered w hw
    exact hne _ hlt (hid ▸ heq)
  · intro hposted
    obtain ⟨n, hn, hid⟩ := h.posted _ hposted
    exact hne n hn hid.symm

/-- **A client in which something happens.** What it sends is noted, and a reply that it reads
is the server's answer to the call with that id. -/
theorem ClientOk.handle (h : N.ClientOk p) (hgrows : Grows N N')
    (hs : (N.clients p).handle e = some (N'.clients p))
    (hfew : ∀ asked, e = .called asked → (N.clients p).made < 2 ^ 32)
    (hsent : ∀ asked link, e = .called asked → (N.clients p).client = some link →
      N'.owner link = some p ∧ (N.clients p).newLinkObject asked ∈ N'.requests link)
    (hreply : ∀ o r, e = .received (.reply o r) → ∀ w ∈ (N.clients p).calls,
      w.linkObject.id = o.id → (w.link, .reply w.linkObject r) ∈ N.server.sent) :
    N'.ClientOk p := by
  have hfresh : CallState.CallsFresh (N.clients p) e := by
    cases e with
    | called asked => exact h.freshId (hfew asked rfl)
    | _ => trivial
  have hhandled := CallState.handled_of_handle hs
  have hmade : (N.clients p).made ≤ (N'.clients p).made := by
    rcases hhandled.made with ⟨heq, -⟩ | ⟨asked, -, heq, -⟩ <;> omega
  have hwaiting : ∀ w ∈ (N'.clients p).calls, N'.SentBy p w := by
    intro w hw
    rcases hhandled.mem_calls hw with ⟨w₀, hw₀, hsame⟩ | ⟨link, asked, rfl, hlink, -, rfl⟩
    · have hold := hgrows.sentBy (h.waiting w₀ hw₀)
      rw [SentBy, hsame.link, hsame.linkObject]
      exact hold
    · exact hsent asked link rfl hlink
  have hhonest : ∀ {w r}, w ∈ (N.clients p).calls →
      (N.clients p).replies w.linkObject.id = some r → N'.Honest w r := fun hw hr =>
    hgrows.honest (h.stored _ hw _ hr)
  refine ⟨?_, ?_, h.calls.handle hfresh hs, fun id hid => ?_, hwaiting, fun w hw => ?_,
    fun w hw r hr => ?_, fun w reply hw => ?_, fun w r hw => ?_⟩
  · rcases hhandled.made with ⟨heq, -⟩ | ⟨asked, rfl, heq, -⟩
    · exact heq ▸ h.few
    · have hlt := hfew asked rfl
      omega
  · rcases hhandled.made with ⟨heq, hid⟩ | ⟨asked, rfl, heq, hid⟩
    · rw [hid, heq, h.nextFId]
    · rw [hid, heq, h.nextFId, int32_int32_add_one]
      exact congrArg int32 (by omega)
  · rcases hhandled.mem_posted hid with hid | ⟨w, hw, rfl⟩
    · obtain ⟨n, hn, heq⟩ := h.posted id hid
      exact ⟨n, hn.trans_le hmade, heq⟩
    · obtain ⟨hlt, heq⟩ := h.numbered w hw
      exact ⟨_, hlt.trans_le hmade, heq⟩
  · rcases hhandled.mem_calls hw with ⟨w₀, hw₀, hsame⟩ | ⟨link, asked, rfl, hlink, hnew, rfl⟩
    · obtain ⟨hlt, heq⟩ := h.numbered w₀ hw₀
      rw [hsame.linkObject]
      exact ⟨hlt.trans_le hmade, heq⟩
    · rw [hnew]
      exact ⟨Nat.lt_succ_self _, h.nextFId⟩
  · rcases hhandled.mem_calls hw with ⟨w₀, hw₀, hsame⟩ | ⟨link, asked, rfl, -, -, rfl⟩
    · rw [hsame.linkObject] at hr
      rw [Honest, hsame.link, hsame.linkObject]
      rcases hhandled.replies hr with hold | hcanceled | ⟨o, heq, hid⟩
      · exact hhonest hw₀ hold
      · exact .inl hcanceled
      · exact .inr (hgrows.sent _ (hreply o r heq w₀ hw₀ hid.symm))
    · -- the id was not in use, so no reply was stored under it
      have hfresh : (N.clients p).FreshId := hfresh
      rcases hhandled.replies hr with hold | hcanceled | ⟨o, heq, -⟩
      · rcases h.calls.kept _ (Option.ne_none_iff_exists'.mpr ⟨r, hold⟩) with ⟨o, ho, hid⟩ | hposted
        · exact absurd hid (hfresh.waiting o ho)
        · exact absurd hposted hfresh.posted
      · exact .inl hcanceled
      · cases heq
  · rcases hhandled.mem_returned hw with hw | ⟨hw, -⟩
    · exact hgrows.sentBy (h.returned w reply hw)
    · exact hgrows.sentBy (h.waiting w hw)
  · rcases hhandled.mem_returned hw with hw | ⟨hcall, hfound⟩
    · exact hgrows.honest (h.honest w r hw)
    · rw [CallState.findReply] at hfound
      split at hfound
      · obtain ⟨r', hr', heq⟩ := Option.map_eq_some_iff.mp hfound
        obtain rfl := Option.some.inj heq
        exact hhonest hcall hr'
      · cases hfound

/-! ## Connections -/

/-- What holds of the connections and of the requests on them. -/
structure LinksOk (N : Network) : Prop where
  connected : ∀ p link, (N.clients p).client = some link → N.owner link = some p
  unowned : ∀ link, N.owner link = none → N.requests link = []
  numbered : ∀ p link o, N.owner link = some p → o ∈ N.requests link →
    o.serial < (N.clients p).made ∧ o.id = int32 (1 + o.serial)
  once : ∀ p link link' o o', N.owner link = some p → N.owner link' = some p →
    o ∈ N.requests link → o' ∈ N.requests link' → o.serial = o'.serial → link = link' ∧ o = o'
  nodup : ∀ link, ((N.requests link).map QDocdbLinkObject.serial).Nodup
  heard : ∀ link, (N.server.heard link).Subperm ((N.requests link).take (N.taken link))

/-- What holds of everything. -/
structure NetworkOk (N : Network) : Prop where
  links : N.LinksOk
  clients : ∀ p, N.ClientOk p

theorem networkOk_init (observeDataLock : ℕ → Bool) : (init observeDataLock).NetworkOk where
  links :=
    { connected := fun p link h => by cases h
      unowned := fun _ _ => rfl
      numbered := fun p link o h => by cases h
      once := fun p link link' o o' h => by cases h
      nodup := fun _ => List.nodup_nil
      heard := fun _ => List.Subperm.refl _ }
  clients := fun p =>
    { few := Nat.zero_le (2 ^ 32)
      nextFId := (int32_of_lt (n := 1) (by omega) (by omega)).symm
      calls := CallState.callsOk_new _
      posted := fun id h => by cases h
      waiting := fun w hw => by cases hw
      numbered := fun w hw => by cases hw
      stored := fun w hw => by cases hw
      returned := fun w reply hw => by cases hw
      honest := fun w r hw => by cases hw }

/-- The server handles an event. -/
theorem NetworkOk.of_server (h : N.NetworkOk) {s : QDocdbServer} {e : QDocdbServer.Event}
    (he : N.server.handle E e = some s) {accepted : ClientId → Bool} {taken : ClientId → ℕ}
    (htaken : ∀ link, ((N.requests link).take (N.taken link) ++
      QDocdbServer.requestsOf link [e]).Subperm ((N.requests link).take (taken link))) :
    NetworkOk { N with server := s, accepted := accepted, taken := taken } := by
  obtain ⟨new, hnew⟩ := QDocdbServer.exists_sent_handle he
  have hgrows : Grows N { N with server := s, accepted := accepted, taken := taken } := by
    refine ⟨fun _ _ => id, fun _ _ => id, fun m hm => ?_⟩
    change m ∈ s.sent
    rw [hnew]
    exact List.mem_append_left _ hm
  refine ⟨⟨h.links.connected, h.links.unowned, h.links.numbered, h.links.once, h.links.nodup,
    fun link => ?_⟩, fun p => (h.clients p).mono hgrows rfl⟩
  refine (QDocdbServer.heardOn_handle he link).subperm.trans (.trans ?_ (htaken link))
  exact (List.subperm_append_right _).mpr (h.links.heard link)

theorem NetworkOk.of_ownEvent (h : N.NetworkOk) {s : QDocdbServer} {e : QDocdbServer.Event}
    (he : N.server.handle E e = some s) (hown : ∀ link, QDocdbServer.requestsOf link [e] = [])
    {accepted : ClientId → Bool} :
    NetworkOk { N with server := s, accepted := accepted } := by
  refine h.of_server he fun link => ?_
  rw [hown, List.append_nil]

theorem NetworkOk.of_request (h : N.NetworkOk) {s : QDocdbServer} {o : QDocdbLinkObject}
    (ho : (N.requests link)[N.taken link]? = some o)
    (he : N.server.handle E (.received link o) = some s) :
    NetworkOk { N with
      server := s
      taken := Function.update N.taken link (N.taken link + 1) } := by
  refine h.of_server he fun link' => ?_
  rw [QDocdbServer.requestsOf_received]
  by_cases hl : link' = link
  · subst hl
    rw [if_pos rfl, Function.update_self, List.take_add_one, ho]
    exact List.Subperm.refl _
  · rw [if_neg hl, Function.update_of_ne hl, List.append_nil]

/-- A request is added to those of a connection. -/
theorem mem_update_append {requests : ClientId → List QDocdbLinkObject} {link' : ClientId}
    {o new : QDocdbLinkObject} :
    o ∈ Function.update requests link (requests link ++ [new]) link' ↔
      o ∈ requests link' ∨ link' = link ∧ o = new := by
  by_cases hl : link' = link
  · subst hl
    simp
  · simp [hl]

/-- A client sends its next request. -/
theorem LinksOk.send (h : N.LinksOk) {new : QDocdbLinkObject} (howner : N.owner link = some p)
    (hclient : c.client = (N.clients p).client) (hmade : c.made = (N.clients p).made + 1)
    (hserial : new.serial = (N.clients p).made) (hid : new.id = int32 (1 + (N.clients p).made)) :
    LinksOk { N.setClient p c with
      requests := Function.update N.requests link (N.requests link ++ [new]) } := by
  have hp : ∀ {q}, N.owner link = some q → q = p := fun hq =>
    Option.some.inj (hq.symm.trans howner)
  have hcount : ∀ q, (N.clients q).made ≤ ((N.setClient p c).clients q).made := by
    intro q
    by_cases hqp : q = p
    · subst hqp
      rw [clients_setClient_self, hmade]
      exact Nat.le_succ _
    · rw [clients_setClient_of_ne N hqp c]
  -- the new link object has the largest number
  have hlt : ∀ {link' o}, N.owner link' = some p → o ∈ N.requests link' →
      o.serial < new.serial := fun ho hmem => by
    rw [hserial]
    exact (h.numbered p _ _ ho hmem).1
  refine ⟨fun q link' hq => ?_, fun link' hnone => ?_, fun q link' o ho hmem => ?_,
    fun q link₁ link₂ o₁ o₂ ho₁ ho₂ hmem₁ hmem₂ heq => ?_, fun link' => ?_, fun link' => ?_⟩
  · refine h.connected q link' ?_
    by_cases hqp : q = p
    · subst hqp
      rwa [show _ = c from clients_setClient_self N q c, hclient] at hq
    · rwa [show _ = N.clients q from clients_setClient_of_ne N hqp c] at hq
  · have hl : link' ≠ link := by
      rintro rfl
      rw [show N.owner link' = none from hnone] at howner
      cases howner
    exact (Function.update_of_ne hl ..).trans (h.unowned link' hnone)
  · rcases mem_update_append.mp hmem with hold | ⟨rfl, rfl⟩
    · obtain ⟨hlt', hid'⟩ := h.numbered q link' o ho hold
      exact ⟨hlt'.trans_le (hcount q), hid'⟩
    · obtain rfl := hp ho
      rw [show _ = c from clients_setClient_self N q c, hmade, hserial]
      exact ⟨Nat.lt_succ_self _, hid⟩
  · rcases mem_update_append.mp hmem₁ with hold₁ | ⟨rfl, rfl⟩
    · rcases mem_update_append.mp hmem₂ with hold₂ | ⟨rfl, rfl⟩
      · exact h.once q link₁ link₂ o₁ o₂ ho₁ ho₂ hold₁ hold₂ heq
      · obtain rfl := hp ho₂
        exact absurd heq (hlt ho₁ hold₁).ne
    · obtain rfl := hp ho₁
      rcases mem_update_append.mp hmem₂ with hold₂ | ⟨rfl, rfl⟩
      · exact absurd heq (hlt ho₂ hold₂).ne'
      · exact ⟨rfl, rfl⟩
  · dsimp only
    by_cases hl : link' = link
    · subst hl
      rw [Function.update_self, List.map_append, List.nodup_append]
      refine ⟨h.nodup link', List.nodup_singleton _, ?_⟩
      rintro n hn n' hn' rfl
      obtain ⟨o, ho, rfl⟩ := List.mem_map.mp hn
      exact (hlt howner ho).ne (List.mem_singleton.mp hn')
    · rw [Function.update_of_ne hl]
      exact h.nodup link'
  · refine (h.heard link').trans ?_
    dsimp only
    by_cases hl : link' = link
    · subst hl
      rw [Function.update_self, List.take_append]
      exact (List.sublist_append_left _ _).subperm
    · rw [Function.update_of_ne hl]
      exact List.Subperm.refl _

section Client

variable (hs : (N.clients p).handle e = some c)
include hs

/-- Something happens in a client that neither opens a connection nor uses it to send. -/
theorem NetworkOk.of_client (h : N.NetworkOk) (he : ∀ link, e ≠ .connected link)
    (hcall : ∀ asked, e ≠ .called asked)
    (hreply : ∀ o r, e = .received (.reply o r) → ∀ w ∈ (N.clients p).calls,
      w.linkObject.id = o.id → (w.link, .reply w.linkObject r) ∈ N.server.sent)
    {delivered : ClientId → ℕ} :
    NetworkOk { N.setClient p c with delivered := delivered } := by
  have hhandled := CallState.handled_of_handle hs
  have hmade : ∀ q, ((N.setClient p c).clients q).made = (N.clients q).made := by
    intro q
    by_cases hq : q = p
    · subst hq
      change (Function.update N.clients q c q).made = _
      rw [Function.update_self]
      rcases hhandled.made with ⟨heq, -⟩ | ⟨asked, heq, -⟩
      · exact heq
      · exact absurd heq (hcall asked)
    · change (Function.update N.clients p c q).made = _
      rw [Function.update_of_ne hq]
  have hgrows : Grows N { N.setClient p c with delivered := delivered } :=
    ⟨fun _ _ => id, fun _ _ => id, fun _ => id⟩
  have hself : ({ N.setClient p c with delivered := delivered } : Network).clients p = c :=
    Function.update_self ..
  refine ⟨⟨fun q link hq => ?_, h.links.unowned, fun q link o howner ho => ?_, h.links.once,
    h.links.nodup, h.links.heard⟩, fun q => ?_⟩
  · by_cases hqp : q = p
    · subst hqp
      rw [hself] at hq
      exact h.links.connected q link ((hhandled.client hq).resolve_right (he link))
    · refine h.links.connected q link ?_
      rwa [← Function.update_of_ne hqp c N.clients]
  · have hnum := h.links.numbered q link o howner ho
    rw [← hmade q] at hnum
    exact hnum
  · by_cases hqp : q = p
    · subst hqp
      refine (h.clients q).handle hgrows ?_ (fun asked heq => absurd heq (hcall asked))
        (fun asked link heq => absurd heq (hcall asked)) hreply
      rw [hself]
      exact hs
    · exact (h.clients q).mono hgrows (Function.update_of_ne hqp ..)

/-- A client connects. -/
theorem NetworkOk.of_connect (h : N.NetworkOk) (hnew : N.owner link = none)
    (he : e = .connected link) :
    NetworkOk { N.setClient p c with owner := Function.update N.owner link (some p) } := by
  subst he
  have hhandled := CallState.handled_of_handle hs
  have hne : ∀ {link' q}, N.owner link' = some q → link' ≠ link := by
    rintro link' q howner rfl
    rw [hnew] at howner
    cases howner
  have hkeep : ∀ link' q, N.owner link' = some q →
      Function.update N.owner link (some p) link' = some q := fun link' q howner =>
    (Function.update_of_ne (hne howner) ..).trans howner
  -- nothing was sent on the connection yet
  have howner : ∀ {link' q o}, Function.update N.owner link (some p) link' = some q →
      o ∈ N.requests link' → N.owner link' = some q := by
    intro link' q o howner ho
    by_cases hl : link' = link
    · rw [hl, h.links.unowned link hnew] at ho
      cases ho
    · rwa [Function.update_of_ne hl] at howner
  have hgrows : Grows N { N.setClient p c with owner := Function.update N.owner link (some p) } :=
    ⟨hkeep, fun _ _ => id, fun _ => id⟩
  have hmade : c.made = (N.clients p).made := by
    rcases hhandled.made with ⟨heq, -⟩ | ⟨asked, heq, -⟩
    · exact heq
    · cases heq
  refine ⟨⟨fun q link' hq => ?_, fun link' hnone => ?_, fun q link' o ho hmem => ?_,
    fun q link₁ link₂ o₁ o₂ ho₁ ho₂ hmem₁ hmem₂ => ?_, h.links.nodup, h.links.heard⟩, fun q => ?_⟩
  · by_cases hqp : q = p
    · subst hqp
      rw [show _ = c from clients_setClient_self N q c] at hq
      rcases hhandled.client hq with hold | heq
      · exact hkeep link' q (h.links.connected q link' hold)
      · obtain rfl := CallEvent.connected.inj heq
        exact Function.update_self ..
    · rw [show _ = N.clients q from clients_setClient_of_ne N hqp c] at hq
      exact hkeep link' q (h.links.connected q link' hq)
  · refine h.links.unowned link' ?_
    by_cases hl : link' = link
    · exact hl ▸ hnew
    · rwa [← Function.update_of_ne hl (some p) N.owner]
  · have hnum := h.links.numbered q link' o (howner ho hmem) hmem
    by_cases hqp : q = p
    · subst hqp
      rw [show _ = c from clients_setClient_self N q c, hmade]
      exact hnum
    · rw [show _ = N.clients q from clients_setClient_of_ne N hqp c]
      exact hnum
  · exact h.links.once q link₁ link₂ o₁ o₂ (howner ho₁ hmem₁) (howner ho₂ hmem₂) hmem₁ hmem₂
  · by_cases hqp : q = p
    · subst hqp
      refine (h.clients q).handle (e := .connected link) hgrows ?_ (fun asked heq => by cases heq)
        (fun asked link heq => by cases heq) (fun o r heq => by cases heq)
      rw [show _ = c from clients_setClient_self N q c]
      exact hs
    · exact (h.clients q).mono hgrows (clients_setClient_of_ne N hqp c)

/-- A method is called. -/
theorem NetworkOk.of_call (h : N.NetworkOk) {asked : Asked} (he : e = .called asked)
    (hlink : (N.clients p).client = some link) (hfew : (N.clients p).made < 2 ^ 32) :
    NetworkOk { N.setClient p c with
      requests := Function.update N.requests link
        (N.requests link ++ [(N.clients p).newLinkObject asked]) } := by
  subst he
  obtain rfl : c = (N.clients p).sendAndWaitReply link asked := by
    rw [CallState.handle, hlink] at hs
    exact (Option.some.inj hs).symm
  have howner := h.links.connected p link hlink
  refine ⟨h.links.send howner rfl rfl rfl (h.clients p).nextFId, fun q => ?_⟩
  have hgrows : Grows N { N.setClient p ((N.clients p).sendAndWaitReply link asked) with
      requests := Function.update N.requests link
        (N.requests link ++ [(N.clients p).newLinkObject asked]) } :=
    ⟨fun _ _ => id, fun _ _ ho => mem_update_append.mpr (.inl ho), fun _ => id⟩
  by_cases hqp : q = p
  · subst hqp
    refine (h.clients q).handle (e := .called asked) hgrows ?_ (fun _ _ => hfew) ?_
      (fun o r heq => by cases heq)
    · rw [show _ = (N.clients q).sendAndWaitReply link asked from clients_setClient_self N q _]
      exact hs
    · rintro asked' link' heq hlink'
      obtain rfl := CallEvent.called.inj heq
      obtain rfl := Option.some.inj (hlink.symm.trans hlink')
      exact ⟨howner, mem_update_append.mpr (.inr ⟨rfl, rfl⟩)⟩
  · exact (h.clients q).mono hgrows (clients_setClient_of_ne N hqp _)

end Client

/-- A reply that a client reads answers a request that it has sent on this connection. -/
theorem NetworkOk.answers (h : N.NetworkOk) (hlink : (N.clients p).client = some link)
    {o : QDocdbLinkObject} {r : Reply} (hm : .reply o r ∈ N.server.messagesTo link)
    {w : WaitingCall} (hw : w ∈ (N.clients p).calls) (hid : w.linkObject.id = o.id) :
    (w.link, .reply w.linkObject r) ∈ N.server.sent := by
  have hsent := QDocdbServer.mem_messagesTo.mp hm
  have howner := h.links.connected p link hlink
  have hserved : o ∈ N.server.heard link :=
    List.mem_append_left _ (QDocdbServer.mem_requestsServed.mpr ⟨r, hsent⟩)
  have hmem : o ∈ N.requests link := List.mem_of_mem_take ((h.links.heard link).subset hserved)
  obtain ⟨hlt, hido⟩ := h.links.numbered p link o howner hmem
  obtain ⟨hltw, hidw⟩ := (h.clients p).numbered w hw
  have hfew := (h.clients p).few
  have hserial := eq_of_int32_eq (hltw.trans_le hfew) (hlt.trans_le hfew)
    (hidw.symm.trans (hid.trans hido))
  obtain ⟨hwowner, hwmem⟩ := (h.clients p).waiting w hw
  obtain ⟨heq, hobject⟩ := h.links.once p _ _ _ _ hwowner howner hwmem hmem hserial
  rw [heq, hobject]
  exact hsent

/-- **Step** -/
theorem NetworkOk.handle (h : N.NetworkOk) {e : NetworkEvent} (hok : FewCalls N e)
    (hs : N.handle E e = some N') : N'.NetworkOk := by
  cases happens_of_handle hs with
  | connect hnew hc => exact NetworkOk.of_connect hc h hnew rfl
  | accept hnew he => exact h.of_ownEvent he fun _ => rfl
  | request ho he => exact h.of_request ho he
  | @server e s hown he =>
    refine h.of_ownEvent he fun link => ?_
    cases e <;> first | rfl | cases hown
  | call hlink hc => exact NetworkOk.of_call hc h rfl hlink hok
  | deliver hlink hm hc =>
    refine NetworkOk.of_client hc h (fun _ h => nomatch h) (fun _ h => nomatch h) ?_
    rintro o r heq w hw hid
    obtain rfl := CallEvent.received.inj heq
    exact h.answers hlink (List.mem_of_getElem? hm) hw hid
  | client hinner hc =>
    refine NetworkOk.of_client hc h ?_ ?_ ?_
    · rintro link rfl
      cases hinner
    · rintro asked rfl
      cases hinner
    · rintro o r rfl
      cases hinner

theorem networkOk_of_reachable (h : NetworkReachable E FewCalls N) : N.NetworkOk := by
  induction h with
  | started observeDataLock => exact networkOk_init observeDataLock
  | handled _ hok hs ih => exact ih.handle hok hs

/-! ## Calls and their answers -/

theorem NetworkOk.mem_requests_of_sent (h : N.NetworkOk) {o : QDocdbLinkObject} {r : Reply}
    (hm : (link, .reply o r) ∈ N.server.sent) : o ∈ N.requests link := by
  have hserved : o ∈ N.server.heard link :=
    List.mem_append_left _ (QDocdbServer.mem_requestsServed.mpr ⟨r, hm⟩)
  exact List.mem_of_mem_take ((h.links.heard link).subset hserved)

/-- The requests that were served on a connection have different numbers. -/
theorem NetworkOk.nodup_requestsServed (h : N.NetworkOk) (link : ClientId) :
    ((N.server.requestsServed link).map QDocdbLinkObject.serial).Nodup := by
  have hsubperm : (N.server.requestsServed link).Subperm (N.requests link) :=
    (List.sublist_append_left _ _).subperm.trans
      ((h.links.heard link).trans (List.take_sublist _ _).subperm)
  obtain ⟨l, hperm, hsub⟩ := hsubperm
  exact (hperm.map _).nodup_iff.mp ((h.links.nodup link).sublist (hsub.map _))

theorem mem_executed {n : ℕ} : (p, n) ∈ N.executed ↔
    ∃ link o r, (link, .reply o r) ∈ N.server.sent ∧ N.owner link = some p ∧ o.serial = n := by
  rw [executed, List.mem_filterMap]
  constructor
  · rintro ⟨⟨link, m⟩, hm, heq⟩
    cases m with
    | reply o r =>
      obtain ⟨q, howner, heq⟩ := Option.map_eq_some_iff.mp heq
      obtain ⟨rfl, rfl⟩ := Prod.mk.inj heq
      exact ⟨link, o, r, hm, howner, rfl⟩
    | observeData => cases heq
  · rintro ⟨link, o, r, hm, howner, rfl⟩
    exact ⟨_, hm, by simp [howner]⟩

/-- No request is served twice. -/
theorem NetworkOk.nodup_executed (h : N.NetworkOk) : N.executed.Nodup := by
  rw [executed, List.Nodup, List.pairwise_filterMap, List.pairwise_iff_getElem]
  intro i j hi hj hij b hb b' hb' heq
  rcases hmi : N.server.sent[i] with ⟨link, m⟩
  rcases hmj : N.server.sent[j] with ⟨link', m'⟩
  rw [hmi] at hb
  rw [hmj] at hb'
  cases m with
  | observeData => cases hb
  | reply o r =>
    cases m' with
    | observeData => cases hb'
    | reply o' r' =>
      obtain ⟨p, howner, rfl⟩ := Option.map_eq_some_iff.mp hb
      obtain ⟨p', howner', rfl⟩ := Option.map_eq_some_iff.mp hb'
      obtain ⟨rfl, hserial⟩ := Prod.mk.inj heq
      have hmem := h.mem_requests_of_sent (hmi ▸ List.getElem_mem hi)
      have hmem' := h.mem_requests_of_sent (hmj ▸ List.getElem_mem hj)
      -- both are the same request on the same connection
      obtain ⟨rfl, rfl⟩ := h.links.once p link link' o o' howner howner' hmem hmem' hserial
      have hserved := h.nodup_requestsServed link
      rw [QDocdbServer.requestsServed, List.Nodup, List.pairwise_map, List.pairwise_filterMap,
        List.pairwise_iff_getElem] at hserved
      exact hserved i j hi hj hij o (by rw [hmi]; exact if_pos rfl) o
        (by rw [hmj]; exact if_pos rfl) rfl

/-- **Calls are answered**: in every run of a server with any number of clients, with timeouts,
nested calls, locks, lost connections and reconnections at any time, no request is served twice,
and a call that returns with a reply, unless it was canceled, had its request served once, and
returns what the server answered to it. -/
theorem callsAnswered_of_reachable (h : NetworkReachable E FewCalls N) : N.CallsAnswered := by
  have hok := networkOk_of_reachable h
  have hnodup := hok.nodup_executed
  have hsent : ∀ p w r, (w, some r) ∈ (N.clients p).returned → r.error ≠ qs "canceled" →
      (w.link, .reply w.linkObject r) ∈ N.server.sent := fun p w r hw hne =>
    ((hok.clients p).honest w r hw).resolve_left hne
  refine ⟨fun p n => List.nodup_iff_count_le_one.mp hnodup _, fun p w r hw hne => ?_, hsent⟩
  refine List.count_eq_one_of_mem hnodup (mem_executed.mpr ⟨_, _, _, hsent p w r hw hne, ?_, rfl⟩)
  exact ((hok.clients p).returned w (some r) hw).1

/-! ## A call that returns -/

/-- Let some things happen in order. -/
def handleAll (E : ServerEnv) : Network → List NetworkEvent → Option Network
  | N, [] => some N
  | N, e :: es => (N.handle E e).bind fun N' => handleAll E N' es

/-- A step makes at most one call. -/
theorem made_handle {e : NetworkEvent} (hs : N.handle E e = some N') (q : ℕ) :
    (N'.clients q).made ≤ (N.clients q).made + 1 := by
  have hset : ∀ {p e c}, (N.clients p).handle e = some c →
      ((N.setClient p c).clients q).made ≤ (N.clients q).made + 1 := by
    intro p e c hc
    by_cases hqp : q = p
    · subst hqp
      rw [clients_setClient_self]
      rcases (CallState.handled_of_handle hc).made with ⟨heq, -⟩ | ⟨_, -, heq, -⟩ <;> omega
    · rw [clients_setClient_of_ne N hqp]
      omega
  cases happens_of_handle hs with
  | connect hnew hc => exact hset hc
  | call hlink hc => exact hset hc
  | deliver hlink hm hc => exact hset hc
  | client hinner hc => exact hset hc
  | _ => exact Nat.le_succ _

/-- A list of events makes no more calls than it is long. -/
theorem made_handleAll {es : List NetworkEvent} (h : handleAll E N es = some N') (p : ℕ) :
    (N'.clients p).made ≤ (N.clients p).made + es.length := by
  induction es generalizing N with
  | nil =>
    obtain rfl := Option.some.inj h
    exact le_rfl
  | cons e es ih =>
    obtain ⟨N₁, he, h⟩ := Option.bind_eq_some_iff.mp h
    have hmade := made_handle he p
    have := ih h
    rw [List.length_cons]
    omega

theorem leads_cons {ok : Network → NetworkEvent → Prop} {N₁ : Network}
    {e : NetworkEvent} (hok : ok N e) (he : N.handle E e = some N₁) (h : NetworkLeads E ok N₁ N') :
    NetworkLeads E ok N N' := by
  induction h with
  | refl => exact .handled .refl hok he
  | handled _ hok hs ih => exact ih.handled hok hs

theorem leads_of_handleAll {ok : Network → NetworkEvent → Prop} {es : List NetworkEvent}
    (hok : ∀ N, (∀ p, (N.clients p).made < 2 ^ 32) → ∀ e ∈ es, ok N e)
    (hfew : ∀ p, (N.clients p).made + es.length ≤ 2 ^ 32) (h : handleAll E N es = some N') :
    NetworkLeads E ok N N' := by
  induction es generalizing N with
  | nil =>
    obtain rfl := Option.some.inj h
    exact .refl
  | cons e es ih =>
    obtain ⟨N₁, he, h⟩ := Option.bind_eq_some_iff.mp h
    rw [List.length_cons] at hfew
    have hlt : ∀ p, (N.clients p).made < 2 ^ 32 := fun p => by
      have := hfew p
      omega
    refine leads_cons (hok N hlt e List.mem_cons_self) he
      (ih (fun N hN e he => hok N hN e (List.mem_cons_of_mem _ he)) (fun p => ?_) h)
    have hmade := made_handle he p
    have := hfew p
    omega

theorem reachable_of_init {ok : Network → NetworkEvent → Prop} {es : List NetworkEvent}
    {observeDataLock : ℕ → Bool} (hlength : es.length ≤ 2 ^ 32)
    (hok : ∀ N, (∀ p, (N.clients p).made < 2 ^ 32) → ∀ e ∈ es, ok N e)
    (h : handleAll E (init observeDataLock) es = some N) : NetworkReachable E ok N :=
  (NetworkReachable.started observeDataLock).leads
    (leads_of_handleAll hok (fun _ => (Nat.zero_add _).trans_le hlength) h)

/-- A client finds documents. -/
def findsC : List NetworkEvent :=
  [.connect 0 0, .accept 0, .call 0 CallState.findC, .request 0, .deliver 0, .client 0 .returned]

/-- Two clients find documents, and the first one counts them while it waits. -/
def findsTwice : List NetworkEvent :=
  [.connect 0 0, .accept 0, .connect 1 1, .accept 1, .call 0 CallState.findC,
    .call 1 CallState.findC, .call 0 { CallState.findC with type := .count [] [] }, .request 0,
    .request 1, .request 0, .deliver 0, .deliver 1, .client 1 .returned, .deliver 0,
    .client 0 .returned, .client 0 .returned]

theorem callsAnswered_findsTwice :
    ∃ N, handleAll QDocdbServer.emptyServerEnv (init fun _ => false) findsTwice = some N ∧
      N.executed = [(0, 0), (1, 0), (0, 1)] ∧
      (N.clients 0).returned.map (fun w => (w.1.linkObject.serial, w.2.isSome)) =
        [(1, true), (0, true)] ∧
      (N.clients 1).returned.map (fun w => (w.1.linkObject.serial, w.2.isSome)) = [(0, true)] ∧
      N.CallsAnswered := by
  obtain ⟨N, hN, htest⟩ := (Option.any_eq_true _ _).mp
    (show (handleAll QDocdbServer.emptyServerEnv (init fun _ => false) findsTwice).any (fun N =>
      N.executed = [(0, 0), (1, 0), (0, 1)] ∧
      (N.clients 0).returned.map (fun w => (w.1.linkObject.serial, w.2.isSome)) =
        [(1, true), (0, true)] ∧
      (N.clients 1).returned.map (fun w => (w.1.linkObject.serial, w.2.isSome)) = [(0, true)]) =
      true by decide)
  obtain ⟨hexecuted, hfirst, hsecond⟩ := of_decide_eq_true htest
  refine ⟨N, hN, hexecuted, hfirst, hsecond, callsAnswered_of_reachable
    (reachable_of_init (by decide) (fun N hlt e he => ?_) hN)⟩
  cases e <;> first | exact hlt _ | trivial

end Network

end Qdocdb
