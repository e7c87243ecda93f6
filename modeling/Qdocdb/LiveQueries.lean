import Qdocdb.Deliveries
import Qdocdb.NetworkProgress

/-!
# Live queries

The data of an observer goes a long way: a commit marks the observer, a signal waits in the queue
of the server, a message waits on the connection and then in the queue of the client, and the
client hands it to the subscriber that it finds under the id. When all queues are empty, each
subscriber was last given the reply that the server keeps for its observer
(`shownCurrent_of_reachable`), in any run in which no `observe` is called inside another one, ids
come from the counter, and a client asks for an id again only on a new connection.
-/

namespace Qdocdb

/-- In front of the reply that gives an id there is no data of that id. -/
theorem not_mem_take_of_given {messages : List Message} (hafter : DataAfterReply messages)
    (honce : (given messages).Nodup) {n : ℕ} {m : Message} (hm : messages[n]? = some m) {id : ℤ}
    (hgiven : m.given? = some id) (reply : List QJsonValue) :
    (id, reply) ∉ dataOf (messages.take n) := by
  intro hmem
  obtain ⟨earlier, later, htake⟩ := List.mem_iff_append.mp (mem_dataOf.mp hmem)
  have hsplit : messages = messages.take n ++ m :: messages.drop (n + 1) := by
    obtain ⟨hlt, rfl⟩ := List.getElem?_eq_some_iff.mp hm
    rw [← List.drop_eq_getElem_cons hlt, List.take_append_drop]
  have hbefore : id ∈ given (messages.take n) := by
    rw [htake, given_append]
    refine List.mem_append_left _ (hafter earlier id reply (later ++ m :: messages.drop (n + 1)) ?_)
    rw [← List.cons_append, ← List.append_assoc, ← htake]
    exact hsplit
  rw [hsplit, given_append, List.nodup_append] at honce
  refine honce.2.2 id hbefore id ?_ rfl
  rw [given, List.filterMap_cons_some hgiven]
  exact List.mem_cons_self

namespace Network

variable {E : ServerEnv} {N N' : Network} {p : ℕ} {link : ClientId}

/-- Each client makes less than 2^32 calls and calls no `observe` inside another one. Ids come from
the counter of the server or are asked for again on a new connection. -/
structure KeepsShowing (N : Network) (e : NetworkEvent) : Prop where
  few : FewCalls N e
  alone : ∀ p asked, e = .call p asked → (N.clients p).ObservesAlone (.called asked)
  ids : ∀ e', N.serverEvent? e = some e' → QDocdbServer.GivesOnce N.server e'

theorem KeepsShowing.of_event {e : NetworkEvent} (hcall : ∀ p asked, e ≠ .call p asked)
    (hids : ∀ e', N.serverEvent? e = some e' → QDocdbServer.GivesOnce N.server e') :
    KeepsShowing N e where
  few := by
    cases e with
    | call p asked => exact absurd rfl (hcall p asked)
    | _ => trivial
  alone := fun p asked heq => absurd heq (hcall p asked)
  ids := hids

/-- What clients have done with what they have read. -/
structure Shows (N : Network) : Prop where
  locked : ∀ p, (N.clients p).Locked
  handsOut : ∀ p link, (N.clients p).client = some link →
    ∃ old, (N.clients p).HandsOut (N.read link) old
  unread : ∀ link, N.owner link = none → N.delivered link = 0

theorem shows_init (observeDataLock : ℕ → Bool) : (init observeDataLock).Shows where
  locked := fun _ => CallState.locked_new _
  handsOut := fun p link h => by cases h
  unread := fun _ _ => rfl

/-- What the server writes is not read yet. -/
theorem Shows.of_server (h : N.Shows) (hreads : N.Reads) {s : QDocdbServer} {e : QDocdbServer.Event}
    (he : N.server.handle E e = some s) {accepted : ClientId → Bool} {taken : ClientId → ℕ} :
    Shows { N with server := s, accepted := accepted, taken := taken } := by
  refine ⟨h.locked, fun p link hlink => ?_, h.unread⟩
  obtain ⟨new, hnew⟩ := QDocdbServer.exists_sent_handle he
  have hread : (s.messagesTo link).take (N.delivered link) = N.read link := by
    have hbound := hreads.bounded link
    rw [read]
    rw [QDocdbServer.messagesTo] at hbound
    rw [QDocdbServer.messagesTo, QDocdbServer.messagesTo, hnew, List.filterMap_append]
    exact List.take_append_of_le_length hbound
  obtain ⟨old, hold⟩ := h.handsOut p link hlink
  refine ⟨old, ?_⟩
  change (N.clients p).HandsOut ((s.messagesTo link).take (N.delivered link)) old
  rwa [hread]

/-- What was stored for a call of `observe` gives an id, or it is an error. -/
theorem Shows.stored (h : N.Shows) (hok : N.NetworkOk)
    (hserver : QDocdbServer.DataInvariant N.server) {w : WaitingCall}
    (hw : w ∈ (N.clients p).calls) (hinfo : w.info.isSome) {r : Reply}
    (hr : (N.clients p).replies w.linkObject.id = some r) (herror : r.error = []) :
    ∃ id, r = ⟨[], .observeReply id⟩ := by
  obtain ⟨query, queryOptions, preferedId, ht⟩ := (h.locked p).informed w hw hinfo
  rcases (hok.clients p).stored w hw r hr with hcanceled | hsent
  · rw [herror] at hcanceled
    cases hcanceled
  · obtain ⟨id, hid⟩ := hserver.answers w.link _ (QDocdbServer.mem_messagesTo.mpr hsent)
      w.linkObject r query queryOptions preferedId rfl ht herror
    obtain ⟨error, value⟩ := r
    obtain rfl : error = [] := herror
    obtain rfl : value = .observeReply id := hid
    exact ⟨id, rfl⟩

section Client

variable {e : CallEvent} {c : CallState} (hs : (N.clients p).handle e = some c)
include hs

/-- A client that stays on its connection. -/
theorem Shows.handsOut_client (h : N.Shows) (hok : N.NetworkOk)
    (hserver : QDocdbServer.DataInvariant N.server)
    (hfew : ∀ asked, e = .called asked → (N.clients p).made < 2 ^ 32)
    (hlink : (N.clients p).client = some link) (hremoved : e ≠ .clientRemoved)
    (hgives : ∀ m id, e = .received m → m.given? = some id →
      ∀ reply, (id, reply) ∉ dataOf (N.read link)) :
    ∃ old, c.HandsOut (N.read link ++ e.messages) old := by
  obtain ⟨old, hold⟩ := h.handsOut p link hlink
  refine ⟨old, hold.handle (h.locked p) (hok.clients p).calls ?_ hs (fun link' heq => ?_) hremoved
    (fun w hw hinfo r hr herror => h.stored hok hserver hw hinfo hr herror) hgives⟩
  · cases e with
    | called asked => exact (hok.clients p).freshId (hfew asked rfl)
    | _ => trivial
  · subst heq
    rw [CallState.handle, if_neg (by rw [hlink]; exact Option.some_ne_none _)] at hs
    cases hs

/-- Something happens in a client that reads nothing and opens no connection. -/
theorem Shows.of_client (h : N.Shows) (hok : N.NetworkOk)
    (hserver : QDocdbServer.DataInvariant N.server)
    (hfew : ∀ asked, e = .called asked → (N.clients p).made < 2 ^ 32)
    (halone : (N.clients p).ObservesAlone e) (hconnected : ∀ link, e ≠ .connected link)
    (hreceived : ∀ m, e ≠ .received m) (hclients : N'.clients = (N.setClient p c).clients)
    (hsent : N'.server = N.server) (hdelivered : N'.delivered = N.delivered)
    (howner : N'.owner = N.owner) : N'.Shows := by
  refine ⟨fun q => ?_, fun q link hlink => ?_, ?_⟩
  · rw [hclients]
    by_cases hqp : q = p
    · rw [hqp, clients_setClient_self]
      exact (h.locked p).handle halone hs
    · rw [clients_setClient_of_ne N hqp]
      exact h.locked q
  · rw [read, hsent, hdelivered]
    rw [hclients] at hlink ⊢
    by_cases hqp : q = p
    · rw [hqp, clients_setClient_self] at hlink ⊢
      have hold := ((CallState.handled_of_handle hs).client hlink).resolve_right (hconnected link)
      have hremoved : e ≠ .clientRemoved := by
        rintro rfl
        rw [CallState.handle] at hs
        split at hs
        · obtain rfl := Option.some.inj hs
          cases hlink
        · cases hs
      have hnone : e.messages = [] := by
        cases e with
        | received m => exact absurd rfl (hreceived m)
        | _ => rfl
      have hnew := h.handsOut_client hs hok hserver hfew hold hremoved
        fun m id heq => absurd heq (hreceived m)
      rwa [hnone, List.append_nil] at hnew
    · rw [clients_setClient_of_ne N hqp] at hlink ⊢
      exact h.handsOut q link hlink
  · rw [howner, hdelivered]
    exact h.unread

end Client

/-- **Step** -/
theorem Shows.handle (h : N.Shows) (hok : N.NetworkOk) (hreads : N.Reads)
    (hdata : QDocdbServer.DataInvariant N.server) (hgiven : QDocdbServer.GivenInvariant N.server)
    {e : NetworkEvent} (hkeeps : KeepsShowing N e) (hs : N.handle E e = some N') : N'.Shows := by
  cases happens_of_handle hs with
  | @connect p link c hnew hc =>
    refine ⟨fun q => ?_, fun q link' hlink => ?_, fun link' hnone => ?_⟩
    · by_cases hqp : q = p
      · subst hqp
        rw [show _ = c from clients_setClient_self N q c]
        exact (h.locked q).handle (e := .connected link) trivial hc
      · rw [show _ = N.clients q from clients_setClient_of_ne N hqp c]
        exact h.locked q
    · by_cases hqp : q = p
      · -- nothing was read from the new connection
        subst hqp
        rw [show _ = c from clients_setClient_self N q c] at hlink ⊢
        rw [CallState.handle] at hc
        split at hc
        · obtain rfl := Option.some.inj hc
          obtain rfl := Option.some.inj hlink
          have hread : N.read link = [] := by
            rw [read, h.unread link hnew, List.take_zero]
          change ∃ old, ((N.clients q).connect link).HandsOut (N.read link) old
          rw [hread]
          exact ⟨_, CallState.handsOut_connect⟩
        · cases hc
      · rw [show _ = N.clients q from clients_setClient_of_ne N hqp c] at hlink ⊢
        exact h.handsOut q link' hlink
    · by_cases hl : link' = link
      · rw [hl] at hnone
        cases (Function.update_self ..).symm.trans hnone
      · exact h.unread link' ((Function.update_of_ne hl ..).symm.trans hnone)
  | accept hnew he => exact h.of_server hreads he
  | request ho he => exact h.of_server hreads he
  | server hown he => exact h.of_server hreads he
  | call hlink hc =>
    exact h.of_client hc hok hdata (fun _ _ => hkeeps.few) (hkeeps.alone _ _ rfl)
      (fun _ h => by cases h) (fun _ h => by cases h) rfl rfl rfl rfl
  | @deliver p link message c hlink hm hc =>
    have howner := hok.links.connected p link hlink
    refine ⟨fun q => ?_, fun q link' hlink' => ?_, fun link' hnone => ?_⟩
    · by_cases hqp : q = p
      · subst hqp
        rw [show _ = c from clients_setClient_self N q c]
        exact (h.locked q).handle (e := .received message) trivial hc
      · rw [show _ = N.clients q from clients_setClient_of_ne N hqp c]
        exact h.locked q
    · by_cases hqp : q = p
      · subst hqp
        rw [show _ = c from clients_setClient_self N q c] at hlink' ⊢
        have hold := ((CallState.handled_of_handle hc).client hlink').resolve_right
          fun h => by cases h
        obtain rfl : link = link' := Option.some.inj (hlink.symm.trans hold)
        change ∃ old, c.HandsOut ((N.server.messagesTo link).take
          (Function.update N.delivered link (N.delivered link + 1) link)) old
        rw [Function.update_self, List.take_add_one, hm]
        refine h.handsOut_client hc hok hdata (fun _ h => by cases h) hlink (fun h => by cases h)
          fun m id heq hid reply => ?_
        obtain rfl := CallEvent.received.inj heq
        exact not_mem_take_of_given (hdata.ordered link) (hgiven.once link) hm hid reply
      · -- a connection has one owner
        rw [show _ = N.clients q from clients_setClient_of_ne N hqp c] at hlink' ⊢
        have hl : link' ≠ link := by
          rintro rfl
          have heq := hok.links.connected q link' hlink'
          rw [howner] at heq
          exact hqp (Option.some.inj heq).symm
        change ∃ old, (N.clients q).HandsOut ((N.server.messagesTo link').take
          (Function.update N.delivered link (N.delivered link + 1) link')) old
        rw [Function.update_of_ne hl]
        exact h.handsOut q link' hlink'
    · have hl : link' ≠ link := by
        rintro rfl
        cases howner.symm.trans hnone
      exact (Function.update_of_ne hl ..).trans (h.unread link' hnone)
  | @client p e c hinner hc =>
    refine h.of_client hc hok hdata ?_ ?_ ?_ ?_ rfl rfl rfl rfl
    · rintro asked rfl
      cases hinner
    · cases e with
      | called asked => cases hinner
      | _ => trivial
    · rintro link rfl
      cases hinner
    · rintro m rfl
      cases hinner

/-! ## What subscribers were given -/

theorem shows_of_reachable (h : NetworkReachable E KeepsShowing N) :
    N.NetworkOk ∧ N.Reads ∧ N.Shows ∧ ServerReachable E QDocdbServer.GivesOnce N.server := by
  induction h with
  | started observeDataLock =>
    exact ⟨networkOk_init _, reads_init _, shows_init _, .started⟩
  | handled _ hkeeps hs ih =>
    obtain ⟨hok, hreads, hshows, hserver⟩ := ih
    refine ⟨hok.handle hkeeps.few hs, hreads.handle hok hkeeps.few hs,
      hshows.handle hok hreads (QDocdbServer.serverInvariant_data.reachable hserver)
        (QDocdbServer.serverInvariant_given.reachable hserver).1 hkeeps hs, ?_⟩
    rcases (happens_of_handle hs).server_eq with heq | ⟨e', he', hs'⟩
    · rwa [heq]
    · exact hserver.handled (hkeeps.ids e' he') hs'

/-- All signals were sent, all messages to a client were read, and all its data was handed out. -/
structure AllHandedOut (N : Network) (p : ℕ) (link : ClientId) : Prop where
  client : (N.clients p).client = some link
  observeQueryChanged : N.server.observeQueryChanged = []
  delivered : N.delivered link = (N.server.messagesTo link).length
  observeData : (N.clients p).observeData = []

/-- What was last handed out under an id, and to whom. -/
def shown (N : Network) (p : ℕ) (id : ℤ) : Option (Option ObjectId × List QJsonValue) :=
  latest ((N.clients p).notified.map fun n => (n.2.1, n.1, n.2.2)) id

/-- **Subscribers are shown the current reply**: when the signals of the server, the connection of
a client and the queue of the client are empty, the last thing that the client handed out under
the id of an observer is the reply that stands in the collection, and it went to the subscriber
of the observer. This is so across commits, calls that wait inside each other, timeouts, lost
connections and reconnections. -/
theorem shownCurrent_of_reachable (h : NetworkReachable E KeepsShowing N)
    (hall : N.AllHandedOut p link) {id : ℤ} {sub : ObjectId}
    (hclient : N.server.observeClient id = some (some link))
    (hsub : (N.clients p).tables.subs id = some sub) :
    ∃ place c reply, N.server.observeCollection id = some place ∧
      N.server.collection? place = some c ∧ c.coll.observers.reply id = some reply ∧
      N.shown p id = some (some sub, reply) := by
  obtain ⟨-, -, hshows, hserver⟩ := shows_of_reachable h
  have hsignals := QDocdbServer.serverInvariant_signals.reachable
    (hserver.mono fun _ _ hgives => hgives.1)
  obtain ⟨place, c, reply, hplace, hc, hreply, hlatest⟩ := hsignals.1.told id link hclient
  refine ⟨place, c, reply, hplace, hc, hreply, ?_⟩
  obtain ⟨old, hold⟩ := hshows.handsOut p link hall.client
  -- the data of this connection was handed out last
  have hdata := congrArg (List.drop old.length) hold.data
  rw [hall.observeData, List.append_nil, List.drop_left, ← List.map_drop, read, hall.delivered,
    List.take_length, QDocdbServer.dataOf_messagesTo] at hdata
  rw [QDocdbServer.announced, hall.observeQueryChanged, List.append_nil, ← hdata] at hlatest
  have hlast := latest_map (l := (N.clients p).notified.drop old.length) (f := Prod.snd)
    (g := fun n => (n.2.1, n.1, n.2.2)) (k := id) (φ := fun reply => (some sub, reply))
    (fun _ _ => rfl) fun n hn hid => by rw [hold.known id sub hsub n hn hid]
  rw [hlatest] at hlast
  rw [shown, ← List.take_append_drop old.length (N.clients p).notified, List.map_append,
    latest_append, hlast]
  rfl

/-- Subscriber 5 asks for an observer. -/
def observeC : Asked := { CallState.findC with type := .observe [] [] (-1), sub := 5 }

/-- The data arrives while the call of `observe` still waits, and it is handed out later. -/
def observesC : List NetworkEvent :=
  [.server .observeQueryChanged, .deliver 0, .deliver 0, .client 0 .posted, .client 0 .returned,
    .client 0 .posted, .client 0 .posted, .client 0 .observeDataRound, .client 0 .observeDataRound]

theorem shownCurrent_observesC :
    ∃ N, handleAll QDocdbServer.emptyServerEnv (init fun _ => false)
        (.connect 0 0 :: .accept 0 :: .call 0 observeC :: .request 0 :: observesC) = some N ∧
      ∃ place c reply, N.server.observeCollection 1 = some place ∧
        N.server.collection? place = some c ∧ c.coll.observers.reply 1 = some reply ∧
        N.shown 0 1 = some (some 5, reply) := by
  let init := init fun _ => false
  let E := QDocdbServer.emptyServerEnv
  obtain ⟨N, hN, hall⟩ := (Option.any_eq_true _ _).mp
    (show (handleAll E init
        (.connect 0 0 :: .accept 0 :: .call 0 observeC :: .request 0 :: observesC)).any (fun N =>
      (N.clients 0).client = some 0 ∧ N.server.observeQueryChanged.isEmpty ∧
      N.delivered 0 = (N.server.messagesTo 0).length ∧ (N.clients 0).observeData.isEmpty ∧
      N.server.observeClient 1 = some (some 0) ∧ (N.clients 0).tables.subs 1 = some 5) = true
      by decide +kernel)
  obtain ⟨hclient, hqueue, hdelivered, hdata, hobserver, hsub⟩ := of_decide_eq_true hall
  obtain ⟨N₁, h₁, h⟩ := Option.bind_eq_some_iff.mp hN
  obtain ⟨N₂, h₂, h⟩ := Option.bind_eq_some_iff.mp h
  obtain ⟨N₃, h₃, h⟩ := Option.bind_eq_some_iff.mp h
  obtain ⟨N₄, h₄, h⟩ := Option.bind_eq_some_iff.mp h
  -- no call waits when `observe` is called
  have hframes : (N₂.clients 0).frames = [] := by
    have hN₂ : handleAll E init [.connect 0 0, .accept 0] = some N₂ := by
      simp [handleAll, E, init, h₁, h₂]
    have hany : (handleAll E init [.connect 0 0, .accept 0]).any
        (fun N => (N.clients 0).frames.isEmpty) = true := by decide
    rw [hN₂] at hany
    exact List.isEmpty_iff.mp hany
  -- the request prefers no id
  obtain ⟨o, ho, htype, hnumber⟩ : ∃ o, (N₃.requests 0)[N₃.taken 0]? = some o ∧
      o.type = .observe [] [] (-1) ∧ N₃.server.nextNumber = 1 := by
    have hN₃ : handleAll E init [.connect 0 0, .accept 0, .call 0 observeC] = some N₃ := by
      simp [handleAll, E, init, h₁, h₂, h₃]
    obtain ⟨N, hrun, o, ho⟩ : ∃ N, handleAll E init
        [.connect 0 0, .accept 0, .call 0 observeC] = some N ∧
          ∃ o, (N.requests 0)[N.taken 0]? = some o ∧ o.type = .observe [] [] (-1) ∧
            N.server.nextNumber = 1 := ⟨_, rfl, _, rfl, rfl, rfl⟩
    obtain rfl := Option.some.inj (hN₃.symm.trans hrun)
    exact ⟨o, ho⟩
  have hrest : ∀ N, (∀ p, (N.clients p).made < 2 ^ 32) → ∀ e ∈ observesC, KeepsShowing N e := by
    intro N _ e he
    simp only [observesC, List.mem_cons, List.not_mem_nil, or_false] at he
    refine .of_event ?_ fun e' he' => ?_
    · rintro p asked rfl
      simp at he
    · rcases he with rfl | rfl | rfl | rfl | rfl | rfl | rfl | rfl | rfl <;> cases he'
      exact ⟨trivial, trivial⟩
  have hmade : ∀ p, (N₂.clients p).made ≤ 2 ∧ (N₄.clients p).made ≤ 4 := fun p => by
    have := made_handle h₁ p
    have := made_handle h₂ p
    have := made_handle h₃ p
    have := made_handle h₄ p
    have : (init.clients p).made = 0 := rfl
    omega
  have hr₁ : NetworkReachable E KeepsShowing N₁ :=
    (NetworkReachable.started fun _ => false).handled
      (.of_event (fun _ _ h => by cases h) fun _ h => by cases h) h₁
  have hr₂ : NetworkReachable E KeepsShowing N₂ := by
    refine hr₁.handled (.of_event (fun _ _ h => by cases h) fun e' he' => ?_) h₂
    obtain rfl := Option.some.inj he'
    exact ⟨trivial, trivial⟩
  have hr₃ : NetworkReachable E KeepsShowing N₃ := by
    refine hr₂.handled ⟨(hmade 0).1.trans_lt (by decide), ?_, fun _ h => by cases h⟩ h₃
    rintro p asked heq
    obtain ⟨rfl, rfl⟩ := NetworkEvent.call.inj heq
    intro _ f hf
    rw [hframes] at hf
    cases hf
  have hr₄ : NetworkReachable E KeepsShowing N₄ := by
    refine hr₃.handled (.of_event (fun _ _ h => by cases h) fun e' he' => ?_) h₄
    rw [serverEvent?, ho] at he'
    obtain rfl := Option.some.inj he'
    have hprefers : QDocdbServer.PrefersNothing o := by
      rintro query queryOptions preferedId ht
      rw [htype] at ht
      exact (LinkObjectType.observe.inj ht).2.2.symm
    refine ⟨⟨fun q qo i ht => .inl (hprefers q qo i ht), fun _ => hprefers, fun _ _ _ _ => ?_⟩,
      fun q qo i ht => .inl (hprefers q qo i ht)⟩
    rw [hnumber]
    decide
  have hr : NetworkReachable E KeepsShowing N :=
    hr₄.leads (leads_of_handleAll hrest
      (fun p => (Nat.add_le_add_right (hmade p).2 _).trans (by decide)) h)
  exact ⟨N, hN, shownCurrent_of_reachable hr ⟨hclient, List.isEmpty_iff.mp hqueue, hdelivered,
    List.isEmpty_iff.mp hdata⟩ hobserver hsub⟩

end Network

end Qdocdb
