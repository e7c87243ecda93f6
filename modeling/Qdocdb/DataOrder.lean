import Qdocdb.Signals
import Qdocdb.Wire

/-!
# Data behind its reply

A client can hand out the data of an observer only when it knows whose observer it is, and it
learns the id from the reply to its request. The server writes the reply before it comes to the
signals that were emitted meanwhile, so on every connection the data of an observer stands behind
the reply that gave the id (`dataAfterReply_of_reachable`). When a client asks for an id again
only on a new connection, no connection carries two replies with one id (`givenOnce_of_reachable`).
-/

namespace Qdocdb

/-- The id that a message gives to a client. -/
def Message.given? : Message → Option ℤ
  | .reply _ ⟨_, .observeReply id⟩ => some id
  | _ => none

/-- The ids that some messages give. -/
def given (messages : List Message) : List ℤ := messages.filterMap Message.given?

/-- The data of an observer comes behind a message that gives its id. -/
def DataAfterReply (messages : List Message) : Prop :=
  ∀ earlier id reply later, messages = earlier ++ .observeData id reply :: later →
    id ∈ given earlier

theorem given_append (messages more : List Message) :
    given (messages ++ more) = given messages ++ given more := List.filterMap_append

theorem given_singleton (m : Message) : given [m] = m.given?.toList := by
  cases h : m.given? <;> simp [given, h]

/-- One more message. -/
theorem DataAfterReply.append {messages : List Message} (h : DataAfterReply messages) {m : Message}
    (hm : ∀ id reply, m = .observeData id reply → id ∈ given messages) :
    DataAfterReply (messages ++ [m]) := by
  intro earlier id reply later heq
  rcases List.eq_nil_or_concat' later with rfl | ⟨later, m', rfl⟩
  · obtain ⟨rfl, hlast⟩ := List.append_inj' heq rfl
    exact hm id reply (List.singleton_inj.mp hlast)
  · rw [← List.cons_append, ← List.append_assoc] at heq
    exact h earlier id reply later (List.append_inj' heq rfl).1

namespace QDocdbServer

variable {E : ServerEnv} {ok : QDocdbServer → Event → Prop} {s s' : QDocdbServer}
  {client : ClientId} {o : QDocdbLinkObject}

theorem messagesTo_send (c : ClientId) (m : Message) :
    (s.send client m).messagesTo c =
      if c = client then s.messagesTo c ++ [m] else s.messagesTo c := by
  rw [messagesTo, send, List.filterMap_append]
  by_cases hc : c = client
  · simp [hc, messagesTo]
  · simp [hc, Ne.symm hc, messagesTo]

theorem messagesTo_congr (h : s'.sent = s.sent) (c : ClientId) :
    s'.messagesTo c = s.messagesTo c := by
  rw [messagesTo, messagesTo, h]

/-! ## Who gets an id -/

/-- The client of an observer is the one that has just got the id, or it was so before. -/
theorem Served.observeClient {p : QDocdbServer × Reply} (h : Served E s client o p) {id : ℤ}
    {c : ClientId} (hc : p.1.observeClient id = some (some c)) :
    s.observeClient id = some (some c) ∨ c = client ∧ p.2 = ⟨[], .observeReply id⟩ := by
  cases h with
  | writeTransaction ht =>
    refine .inl ?_
    rw [QDocdbServer.writeTransaction] at hc
    split at hc
    · exact hc
    · dsimp only at hc
      split at hc <;> exact hc
  | discardTransaction ht =>
    refine .inl ?_
    rwa [(sameTables_discardTransaction _).observeClient] at hc
  | unobserve ht =>
    refine .inl ?_
    rw [QDocdbServer.unobserve] at hc
    split at hc
    · exact hc
    · split at hc
      · exact observeClient_of_update (by simp) hc
      · split at hc
        · have hold := observeClient_of_update (by simp) hc
          rw [unobserveAt] at hold
          split at hold <;> exact hold
        · exact hc
  | cannotOpenDatabase hurl => exact .inl hc
  | exclusiveLock ht =>
    refine .inl ?_
    rwa [(sameTables_exclusiveLock _).observeClient] at hc
  | unlock ht =>
    refine .inl ?_
    rwa [(sameTables_unlock _).observeClient] at hc
  | emptyCollectionName hurl => exact .inl hc
  | cannotOpenCollection hurl => exact .inl (observeClient_openCollectionOf ▸ hc)
  | autoCommit ht _ => exact .inl (observeClient_openCollectionOf ▸ hc)
  | operation ht hne =>
    refine .inl ?_
    rwa [(sameTables_operation _ _).observeClient, observeClient_openCollectionOf] at hc
  | newTransaction ht _ => exact .inl (observeClient_openCollectionOf ▸ hc)
  | @observe query queryOptions preferedId c' ht _ =>
    obtain ⟨σ', reply, heq, -⟩ := exists_observe (E.env.on c'.backend) c'.coll query queryOptions
      preferedId (s.openCollectionOf E o).nextNumber
    rw [QDocdbServer.observe, heq] at hc ⊢
    dsimp only at hc ⊢
    by_cases hid : id = (observeIds c'.coll preferedId (s.openCollectionOf E o).nextNumber).1
    · subst hid
      rw [Function.update_self] at hc
      exact .inr ⟨(Option.some.inj (Option.some.inj hc)).symm, rfl⟩
    · rw [Function.update_of_ne hid] at hc
      exact .inl (observeClient_openCollectionOf ▸ hc)
  | onCollection hurl hdoc hnew hobserve _ hr => exact .inl (observeClient_openCollectionOf ▸ hc)

/-- An observe request is answered with the id that the counter or the client has given, or with
an error. -/
theorem Served.answers_observe {p : QDocdbServer × Reply} (h : Served E s client o p)
    {query queryOptions : QJsonObject} {preferedId : ℤ}
    (ht : o.type = .observe query queryOptions preferedId) :
    (∃ σ id, observeIds σ preferedId s.nextNumber = (id, p.1.nextNumber) ∧
        p.2 = ⟨[], .observeReply id⟩) ∨
      p.2.error ≠ [] ∧ p.2.value = .unknown ∧ p.1.nextNumber = s.nextNumber := by
  have htext : ∀ text rest : QString, text ≠ [] → text ++ rest ≠ [] := fun _ _ h h' =>
    h (List.append_eq_nil_iff.mp h').1
  have hother : ∀ {type : LinkObjectType}, o.type = type →
      type ≠ .observe query queryOptions preferedId → False := fun h hne => hne (h.symm.trans ht)
  cases h with
  | writeTransaction h => exact (hother h nofun).elim
  | discardTransaction h => exact (hother h nofun).elim
  | unobserve h => exact (hother h nofun).elim
  | cannotOpenDatabase hurl => exact .inr ⟨htext _ _ (by decide), rfl, rfl⟩
  | exclusiveLock h => exact (hother h nofun).elim
  | unlock h => exact (hother h nofun).elim
  | emptyCollectionName hurl =>
    exact .inr ⟨(by decide : qs "Collection name is empty" ≠ []), rfl, rfl⟩
  | cannotOpenCollection hurl =>
    refine .inr ⟨?_, rfl, nextNumber_openCollectionOf⟩
    rw [Reply.cannotOpenCollection, Reply.ofError, List.append_assoc, List.append_assoc]
    exact htext _ _ (by decide)
  | autoCommit h _ =>
    rw [ht] at h
    cases h
  | operation h _ =>
    rw [ht] at h
    cases h
  | newTransaction h _ => exact (hother h nofun).elim
  | @observe query' queryOptions' preferedId' c h _ =>
    obtain ⟨rfl, rfl, rfl⟩ := LinkObjectType.observe.inj (h.symm.trans ht)
    obtain ⟨σ', reply, heq, -⟩ := exists_observe (E.env.on c.backend) c.coll query' queryOptions'
      preferedId' (s.openCollectionOf E o).nextNumber
    refine .inl ⟨c.coll, (observeIds c.coll preferedId' s.nextNumber).1, ?_, ?_⟩
    · rw [QDocdbServer.observe, heq, nextNumber_openCollectionOf]
    · rw [QDocdbServer.observe, heq, nextNumber_openCollectionOf]
  | onCollection hurl hdoc hnew hobserve _ hr => exact absurd ht (hobserve _ _ _)

/-- Only an observe request is answered with the id of an observer. -/
theorem Served.observe_of_given {p : QDocdbServer × Reply} (h : Served E s client o p) {id : ℤ}
    (hgiven : (Message.reply o p.2).given? = some id) :
    ∃ query queryOptions preferedId, o.type = .observe query queryOptions preferedId := by
  obtain ⟨s', error, value⟩ := p
  cases value with
  | observeReply id' =>
    rcases h.fits with hunknown | hkind
    · cases hunknown
    · cases ht : o.type with
      | observe query queryOptions preferedId => exact ⟨_, _, _, rfl⟩
      | _ =>
        rw [ht] at hkind
        cases hkind
  | _ => cases hgiven

/-! ## Data behind its reply -/

/-- The answer to an observe request gives an id, or it is an error. -/
def Answers (m : Message) : Prop :=
  ∀ o r query queryOptions preferedId, m = .reply o r →
    o.type = .observe query queryOptions preferedId → r.error = [] →
      ∃ id, r.value = .observeReply id

/-- Who has an observer was given its id, and data was sent behind the reply that gave it. -/
structure DataInvariant (s : QDocdbServer) : Prop where
  known : ∀ id client, s.observeClient id = some (some client) → id ∈ given (s.messagesTo client)
  ordered : ∀ client, DataAfterReply (s.messagesTo client)
  answers : ∀ client, ∀ m ∈ s.messagesTo client, Answers m

/-- Nothing was sent, and nobody has a new observer. -/
theorem DataInvariant.of_sent (hI : DataInvariant s) (hsent : s'.sent = s.sent)
    (hclient : ∀ id client, s'.observeClient id = some (some client) →
      s.observeClient id = some (some client)) : DataInvariant s' where
  known id client h := by
    rw [messagesTo_congr hsent]
    exact hI.known id client (hclient id client h)
  ordered client := by
    rw [messagesTo_congr hsent]
    exact hI.ordered client
  answers client := by
    rw [messagesTo_congr hsent]
    exact hI.answers client

/-- A message is sent, perhaps with the id of a new observer. -/
theorem DataInvariant.send (hI : DataInvariant s) (hsent : s'.sent = s.sent) {m : Message}
    (hdata : ∀ id reply, m = .observeData id reply → s.observeClient id = some (some client))
    (hanswers : Answers m)
    (hclient : ∀ id c, s'.observeClient id = some (some c) →
      s.observeClient id = some (some c) ∨ c = client ∧ m.given? = some id) :
    DataInvariant (s'.send client m) where
  known id c h := by
    rw [messagesTo_send, messagesTo_congr hsent]
    rcases hclient id c h with hold | ⟨rfl, hgiven⟩
    · have hknown := hI.known id c hold
      split
      · rw [given_append]
        exact List.mem_append_left _ hknown
      · exact hknown
    · rw [if_pos rfl, given_append]
      refine List.mem_append_right _ ?_
      rw [given_singleton, hgiven]
      exact List.mem_singleton_self id
  ordered c := by
    rw [messagesTo_send, messagesTo_congr hsent]
    split
    · rename_i hc
      subst hc
      exact (hI.ordered c).append fun id reply hm => hI.known id c (hdata id reply hm)
    · exact hI.ordered c
  answers c m' hm' := by
    rw [messagesTo_send, messagesTo_congr hsent] at hm'
    split at hm'
    · rcases List.mem_append.mp hm' with hm' | hm'
      · exact hI.answers c m' hm'
      · rwa [List.mem_singleton.mp hm']
    · exact hI.answers c m' hm'

theorem serverInvariant_data : ServerInvariant E ok DataInvariant (fun _ _ => DataInvariant)
    (fun _ _ _ _ => True) where
  started :=
    { known := fun id client h => by cases h
      ordered := fun client earlier id reply later h => by cases earlier <;> cases h
      answers := fun client m h => by cases h }
  connected hI _ := hI.of_sent rfl fun _ _ h => h
  disconnected hI _ _ := hI.of_sent rfl fun id c h => by
    rw [clientRemoved] at h
    dsimp only at h
    split at h
    · cases h
    · exact h
  notified {s pending id reply} hI hq := by
    have htaken : DataInvariant { s with observeQueryChanged := pending } :=
      hI.of_sent rfl fun _ _ h => h
    rw [observeChanged]
    split
    · rename_i client hclient
      refine htaken.send rfl (fun id' reply' hm => ?_) (fun o r q qo i hm => by cases hm)
        fun _ _ h => .inl h
      obtain ⟨rfl, rfl⟩ := Message.observeData.inj hm
      exact hclient
    · exact htaken
  arrived hI _ _ := ⟨hI, trivial⟩
  taken hI _ _ := hI.of_sent rfl fun _ _ h => h
  dequeued hI _ _ := ⟨hI.of_sent rfl fun _ _ h => h, trivial⟩
  done hI _ := hI
  opened {s client n o} hI _ := by
    obtain ⟨databases, heq, -⟩ := openDatabaseOf_eq E s o
    rw [heq]
    exact ⟨hI.of_sent rfl fun _ _ h => h, trivial⟩
  waits hI _ _ _ := hI.of_sent rfl fun _ _ h => h
  served hI _ _ _ h := by
    refine hI.send h.sent (fun id reply hm => by cases hm) ?_ fun id c hc => ?_
    · rintro o r query queryOptions preferedId hm ht herror
      obtain ⟨rfl, rfl⟩ := Message.reply.inj hm
      rcases h.answers_observe ht with ⟨σ, id, -, heq⟩ | ⟨hne, -, -⟩
      · exact ⟨id, by rw [heq]⟩
      · exact absurd herror hne
    · refine (h.observeClient hc).imp_right fun hnew => ⟨hnew.1, ?_⟩
      rw [hnew.2]
      rfl

/-- **Data comes behind its reply**: whatever happens to a server, a client is sent the data of an
observer only behind a reply that gave it the id of the observer. -/
theorem dataAfterReply_of_reachable (h : ServerReachable E ok s) (client : ClientId) :
    DataAfterReply (s.messagesTo client) :=
  (serverInvariant_data.reachable h).ordered client

theorem dataAfterReply_insertedC :
    ∃ s, handleAll emptyServerEnv .init
        (.connected 1 :: .received 1 (observeIn 0 (qs "c") (-1)) :: insertedC) = some s ∧
      DataAfterReply (s.messagesTo 1) := by
  obtain ⟨s, hs, hreachable⟩ := exists_insertedC trivial keepsIds_observeIn keepsIds_insertedC
  exact ⟨s, hs, dataAfterReply_of_reachable hreachable 1⟩

/-! ## Ids are given once -/

/-- A client prefers no id that it was given on the same connection. -/
def PrefersOnce (s : QDocdbServer) : Event → Prop
  | .received client o => ∀ query queryOptions preferedId,
    o.type = .observe query queryOptions preferedId →
      preferedId = -1 ∨ preferedId ∉ given (s.messagesTo client)
  | _ => True

/-- The ids that were given out are behind the counter, and no connection carries one twice. -/
structure GivenInvariant (s : QDocdbServer) : Prop where
  counter : 1 ≤ s.nextNumber
  bounded : ∀ client, ∀ id ∈ given (s.messagesTo client), id < s.nextNumber
  once : ∀ client, (given (s.messagesTo client)).Nodup

theorem GivenInvariant.of_sent (hI : GivenInvariant s) (hsent : s'.sent = s.sent)
    (hnumber : s'.nextNumber = s.nextNumber) : GivenInvariant s' where
  counter := by
    rw [hnumber]
    exact hI.counter
  bounded client := by
    rw [messagesTo_congr hsent, hnumber]
    exact hI.bounded client
  once client := by
    rw [messagesTo_congr hsent]
    exact hI.once client

/-- What can be said of a request when it is received, while `n` other ones are waiting. -/
def FitsOnce (n : ℕ) (s : QDocdbServer) (client : ClientId) (o : QDocdbLinkObject) : Prop :=
  (s.mustWait client o = true → PrefersNothing o) ∧
    ∀ query queryOptions preferedId, o.type = .observe query queryOptions preferedId →
      s.nextNumber + n + 1 < 2 ^ 31 ∧ (preferedId = -1 ∨
        preferedId < s.nextNumber ∧ preferedId ∉ given (s.messagesTo client))

/-- The id of a new observer was not given before, and the counter is past it. -/
theorem GivenInvariant.fresh (hI : GivenInvariant s) {n : ℕ} (hfit : FitsOnce n s client o)
    {query queryOptions : QJsonObject} {preferedId id next : ℤ} {σ : Collection}
    (ht : o.type = .observe query queryOptions preferedId)
    (hids : observeIds σ preferedId s.nextNumber = (id, next)) :
    id ∉ given (s.messagesTo client) ∧ id < next ∧ s.nextNumber ≤ next ∧
      next ≤ s.nextNumber + 1 := by
  obtain ⟨hlt, hprefers⟩ := hfit.2 _ _ _ ht
  have hcounter := hI.counter
  rw [observeIds] at hids
  split at hids
  · obtain ⟨rfl, rfl⟩ := Prod.mk.inj hids
    rw [int32_of_lt (by omega) (by omega)]
    refine ⟨fun hmem => ?_, by omega, by omega, by omega⟩
    exact lt_irrefl _ (hI.bounded client _ hmem)
  · rename_i hnew
    obtain ⟨rfl, rfl⟩ := Prod.mk.inj hids
    obtain ⟨hold, hnone⟩ := hprefers.resolve_left fun h => hnew (.inl h)
    exact ⟨hnone, hold, le_rfl, by omega⟩

/-- **Step** of a request. -/
theorem GivenInvariant.served (hI : GivenInvariant s) {n : ℕ} (hfit : FitsOnce n s client o)
    (hbound : s.nextNumber + n < 2 ^ 31) {p : QDocdbServer × Reply} (h : Served E s client o p) :
    GivenInvariant (p.1.send client (.reply o p.2)) ∧ p.1.nextNumber + n < 2 ^ 31 := by
  -- what the answer gives is new, and the counter does not go back
  have hgives : (∀ id, (Message.reply o p.2).given? = some id →
      id ∉ given (s.messagesTo client) ∧ id < p.1.nextNumber) ∧
      s.nextNumber ≤ p.1.nextNumber ∧ p.1.nextNumber + n < 2 ^ 31 := by
    by_cases hobserve : ∃ query queryOptions preferedId,
        o.type = .observe query queryOptions preferedId
    · obtain ⟨query, queryOptions, preferedId, ht⟩ := hobserve
      rcases h.answers_observe ht with ⟨σ, id, hids, hreply⟩ | ⟨-, hvalue, hnumber⟩
      · obtain ⟨hnew, hlt, hle, hmax⟩ := hI.fresh hfit ht hids
        have hroom := (hfit.2 _ _ _ ht).1
        refine ⟨fun id' hid' => ?_, hle, by omega⟩
        rw [hreply] at hid'
        obtain rfl := Option.some.inj hid'
        exact ⟨hnew, hlt⟩
      · refine ⟨fun id hid => ?_, by omega, by omega⟩
        obtain ⟨s', error, value⟩ := p
        rw [show value = .unknown from hvalue] at hid
        cases hid
    · refine ⟨fun id hid => absurd (h.observe_of_given hid) hobserve, ?_⟩
      have hnumber := h.nextNumber.resolve_right fun h => hobserve h.1
      omega
  obtain ⟨hnew, hle, hlt⟩ := hgives
  refine ⟨⟨hI.counter.trans hle, fun c id hid => ?_, fun c => ?_⟩, hlt⟩
  · rw [messagesTo_send, messagesTo_congr h.sent] at hid
    split at hid
    · rw [given_append, given_singleton] at hid
      rcases List.mem_append.mp hid with hid | hid
      · exact (hI.bounded c id hid).trans_le hle
      · exact (hnew id (Option.mem_toList.mp hid)).2
    · exact (hI.bounded c id hid).trans_le hle
  · rw [messagesTo_send, messagesTo_congr h.sent]
    split
    · rename_i hc
      subst hc
      rw [given_append, given_singleton, List.nodup_append]
      refine ⟨hI.once c, ?_, ?_⟩
      · cases (Message.reply o p.2).given? <;> simp
      · rintro id hid id' hid' rfl
        exact (hnew id (Option.mem_toList.mp hid')).1 hid
    · exact hI.once c

/-- Data gives no id. -/
theorem GivenInvariant.observeChanged (hI : GivenInvariant s) (id : ℤ) (reply : List QJsonValue) :
    GivenInvariant (s.observeChanged id reply) := by
  have hgiven : ∀ client c, given ((s.send client (.observeData id reply)).messagesTo c) =
      given (s.messagesTo c) := by
    intro client c
    rw [messagesTo_send]
    split
    · rw [given_append, given_singleton]
      exact List.append_nil _
    · rfl
  rw [QDocdbServer.observeChanged]
  split
  · refine ⟨hI.counter, fun c => ?_, fun c => ?_⟩
    · rw [hgiven]
      exact hI.bounded c
    · rw [hgiven]
      exact hI.once c
  · exact hI

/-- Ids are kept apart, and a client prefers none that it was given on the same connection. -/
def GivesOnce (s : QDocdbServer) (e : Event) : Prop := KeepsIds s e ∧ PrefersOnce s e

theorem serverInvariant_given :
    ServerInvariant E GivesOnce
      (fun s => GivenInvariant s ∧ s.nextNumber < 2 ^ 31 ∧ WaitPlainly s)
      (fun _ n s => GivenInvariant s ∧ s.nextNumber + n < 2 ^ 31 ∧ WaitPlainly s) FitsOnce where
  started :=
    ⟨⟨by decide, fun _ _ h => (by cases h), fun _ => List.nodup_nil⟩, by decide,
      fun _ _ h => by cases h⟩
  connected hI _ := ⟨hI.1.of_sent rfl rfl, hI.2.1, waitPlainly_newConnection hI.2.2⟩
  disconnected hI _ _ := ⟨hI.1.of_sent rfl rfl, hI.2.1, waitPlainly_clientRemoved hI.2.2⟩
  notified {s pending id reply} hI _ := by
    have htaken : GivenInvariant { s with observeQueryChanged := pending } :=
      hI.1.of_sent rfl rfl
    refine ⟨htaken.observeChanged id reply, ?_, waitPlainly_congr hI.2.2 fun c => ?_⟩
    · rw [QDocdbServer.observeChanged]
      split <;> exact hI.2.1
    · rw [QDocdbServer.observeChanged]
      split <;> rfl
  arrived {s client o} hI hok _ := by
    obtain ⟨hheld, hwait, hnext⟩ := hok.1
    refine ⟨⟨hI.1, by simpa using hI.2.1, hI.2.2⟩, hwait, fun q qo i ht => ⟨?_, ?_⟩⟩
    · simpa using hnext q qo i ht
    · rcases hheld q qo i ht with heq | hlt
      · exact .inl heq
      · exact (hok.2 q qo i ht).imp_right fun hnew => ⟨hlt.1, hnew⟩
  taken hI hok _ :=
    ⟨hI.1.of_sent rfl rfl, hok.1, waitPlainly_setLink hI.2.2 fun o ho => hI.2.2 _ o ho⟩
  dequeued {s client n o rest} hJ _ hq := by
    obtain ⟨hI, hbound, hwait⟩ := hJ
    have hhead := hwait client o (hq ▸ List.mem_cons_self)
    have hnumber : (s.dequeue client).nextNumber = s.nextNumber := rfl
    exact ⟨⟨hI.of_sent rfl rfl, by omega, waitPlainly_dequeue hwait⟩, fun _ => hhead,
      fun q qo i ht => ⟨by omega, .inl (hhead q qo i ht)⟩⟩
  done hJ _ := ⟨hJ.1, by omega, hJ.2.2⟩
  opened {s client n o} hJ hfit := by
    obtain ⟨databases, heq, -⟩ := openDatabaseOf_eq E s o
    rw [heq]
    exact ⟨⟨hJ.1.of_sent rfl rfl, hJ.2.1, hJ.2.2⟩, hfit⟩
  waits hJ hfit _ hw :=
    ⟨hJ.1.of_sent rfl rfl, hJ.2.1, waitPlainly_appendUnlockWait hJ.2.2 (hfit.1 hw)⟩
  served {s client n o p} hJ hfit _ _ h := by
    obtain ⟨hI, hlt⟩ := hJ.1.served hfit hJ.2.1 h
    exact ⟨hI, hlt, waitPlainly_congr hJ.2.2 h.unlockWait⟩

/-- **Ids are given once**: a connection carries no two replies with the id of one observer, when
a client asks for an id again only on another connection. -/
theorem givenOnce_of_reachable (h : ServerReachable E GivesOnce s) (client : ClientId) :
    (given (s.messagesTo client)).Nodup :=
  (serverInvariant_given.reachable h).1.once client

/-- A request that does not wait, and prefers no id or one that its connection was not given and
that a copy of the observers of its collection has. -/
def PrefersCopied (s : QDocdbServer) : Event → Bool
  | .received client o => !s.mustWait client o && decide (s.nextNumber + 1 < 2 ^ 31) &&
    match o.type with
    | .observe _ _ preferedId => decide (preferedId = -1) ||
      decide (preferedId < s.nextNumber ∧ preferedId ∉ given (s.messagesTo client)) &&
        (s.transactions.lookup 0).any fun t =>
          decide (t.place = o.place ∧ preferedId ∈ t.tx.observers)
    | _ => true
  | .unlocked _ => false
  | _ => true

/-- No other collection holds the id of a copy, so it may be asked for again. -/
theorem givesOnce_of_prefersCopied (hs : ServerReachable E GivesOnce s) {e : Event}
    (h : PrefersCopied s e = true) : GivesOnce s e := by
  cases e with
  | received client o =>
    simp only [PrefersCopied, Bool.and_eq_true, Bool.not_eq_true', decide_eq_true_eq] at h
    obtain ⟨⟨hwait, hnumber⟩, hprefers⟩ := h
    have hcopied : ∀ query queryOptions preferedId,
        o.type = .observe query queryOptions preferedId → preferedId = -1 ∨
          (preferedId < s.nextNumber ∧ preferedId ∉ given (s.messagesTo client)) ∧
            s.Holds o.place preferedId := by
      intro query queryOptions preferedId ht
      rw [ht] at hprefers
      rcases Bool.or_eq_true_iff.mp hprefers with h | h
      · exact .inl (of_decide_eq_true h)
      · obtain ⟨hold, hcopy⟩ := (Bool.and_eq_true _ _).mp h
        obtain ⟨t, ht, hplace⟩ := (Option.any_eq_true _ _).mp hcopy
        obtain ⟨hplace, hmem⟩ := of_decide_eq_true hplace
        exact .inr ⟨of_decide_eq_true hold, .inr ⟨0, t, ht, hplace, hmem⟩⟩
    have hapart := (serverInvariant_signals.reachable (hs.mono fun _ _ h => h.1)).1.apart
    refine ⟨⟨fun query queryOptions preferedId ht => ?_, fun hmust => ?_,
      fun _ _ _ _ => hnumber⟩, fun query queryOptions preferedId ht => ?_⟩
    · exact (hcopied _ _ _ ht).imp_right fun h => ⟨h.1.1, fun place hplace =>
        hapart _ _ _ hplace h.2⟩
    · rw [hwait] at hmust
      cases hmust
    · exact (hcopied _ _ _ ht).imp_right fun h => h.1.2
  | unlocked => cases h
  | _ => exact ⟨trivial, trivial⟩

/-- A client observes two collections and goes away, and another one, with a transaction from
before, asks for the first id again. -/
def asksAgain : List Event :=
  [.connected 1, .connected 2, .received 1 (observeIn 0 (qs "c") (-1)),
    .received 1 (observeIn 1 (qs "d") (-1)), .received 2 (requestD 0 .newTransaction),
    .disconnected 1, .received 2 (observeIn 1 (qs "c") 1)]

theorem givenOnce_asksAgain :
    ∃ s, ServerReachable emptyServerEnv GivesOnce s ∧ given (s.messagesTo 1) = [1, 2] ∧
      given (s.messagesTo 2) = [1] ∧ (given (s.messagesTo 1)).Nodup := by
  obtain ⟨s, hs, htest⟩ := (Option.any_eq_true _ _).mp
    (show (handleWhile emptyServerEnv PrefersCopied .init asksAgain).any (fun s =>
      given (s.messagesTo 1) = [1, 2] ∧ given (s.messagesTo 2) = [1]) = true by decide +kernel)
  obtain ⟨hfirst, hsecond⟩ := of_decide_eq_true htest
  have hreachable : ServerReachable emptyServerEnv GivesOnce s :=
    reachable_of_handleWhile .started (fun hs h => givesOnce_of_prefersCopied hs h) hs
  exact ⟨s, hreachable, hfirst, hsecond, givenOnce_of_reachable hreachable 1⟩

end QDocdbServer

end Qdocdb
