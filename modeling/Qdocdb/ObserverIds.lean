import Qdocdb.Directories

/-!
# Observer ids

The id of an observer comes from a counter that all collections share, or from the client,
which asks for an id that it had before. The collection looks for the preferred id among
its own observers only, while the server finds the client of a signal by the id alone. As
long as nobody prefers an id that another collection uses, or one that the counter has not
given out yet, an id is new when it is returned, and a signal of an observer goes to the
client that registered it (`observersApart_of_reachable`).
-/

namespace Qdocdb

namespace QDocdbServer

variable {E : ServerEnv} {s s' : QDocdbServer} {client : ClientId} {o : QDocdbLinkObject}

/-! ## Registrations -/

/-- The reply to an observe request: the id, and whose query on which collection it is. -/
structure Registration where
  id : ℤ
  client : ClientId
  place : Place

/-- What a message registers. -/
def registration? : ClientId × Message → Option Registration
  | (client, .reply o ⟨_, .observeReply id⟩) => some ⟨id, client, o.place⟩
  | _ => none

theorem value_of_registration? {client : ClientId} {o : QDocdbLinkObject} {r : Reply} {id : ℤ}
    (h : (registration? (client, .reply o r)).map Registration.id = some id) :
    r.value = .observeReply id := by
  obtain ⟨error, value⟩ := r
  cases value with
  | observeReply id' => exact congrArg ReplyValue.observeReply (Option.some.inj h)
  | _ => cases h

/-- All registrations so far, in order. -/
def registrations (s : QDocdbServer) : List Registration := s.sent.filterMap registration?

/-- The newest registration of an id. -/
def registrationOf (s : QDocdbServer) (id : ℤ) : Option Registration :=
  s.registrations.reverse.find? fun r => r.id = id

/-- The collection has an observer with that id. -/
def Active (s : QDocdbServer) (place : Place) (id : ℤ) : Prop :=
  ∃ c, s.collection? place = some c ∧ id ∈ c.coll.observers

/-- The registrations whose first signal is still pending: each of them emits one, so they
are the newest ones. -/
def pendingRegistrations (s : QDocdbServer) : List Registration :=
  s.registrations.drop (s.registrations.length - s.observeQueryChanged.length)

/-! ## The property -/

/-- The events of a run that is only about observers. -/
def ObserverEvent : Event → Prop
  | .received _ o =>
    (∃ query queryOptions preferedId, o.type = .observe query queryOptions preferedId) ∨
      ∃ observeId, o.type = .unobserve observeId
  | _ => True

/-- An id that an observe request returns is not the id of any active observer; a signal of
an active observer is sent to the client that registered it; and a pending signal is sent
to no other client than the one whose registration emitted it. -/
structure ObserversApart (E : ServerEnv) (s : QDocdbServer) (e : Event) : Prop where
  fresh : ∀ s₁ client o p id, Call E s e s₁ client o → s₁.serve E client o = some p →
    p.2.value = .observeReply id → ∀ place, ¬ s₁.Active place id
  routed : ∀ place id, s.Active place id → ∃ client, s.registrationOf id = some ⟨id, client, place⟩ ∧
    s.observeClient id = some (some client)
  pending : s.pendingRegistrations.map Registration.id = s.observeQueryChanged.map Prod.fst ∧
    ∀ r ∈ s.pendingRegistrations, ∀ client, s.observeClient r.id = some (some client) →
      client = r.client

/-- The id that an observe request prefers is safe: there is none, or its own collection
uses it, so that the counter gives another one; or no collection uses it, the counter is
past it, and the signals that are still pending for it are for the same client. -/
def PrefersSafely (s : QDocdbServer) : Event → Prop
  | .received client o => ∀ query queryOptions preferedId,
    o.type = .observe query queryOptions preferedId →
      s.nextNumber < 2 ^ 31 - 1 ∧
        (preferedId = -1 ∨ s.Active o.place preferedId ∨
          preferedId < s.nextNumber ∧ (∀ place, ¬ s.Active place preferedId) ∧
            ∀ r ∈ s.pendingRegistrations, r.id = preferedId → r.client = client)
  | _ => True

/-! ## Messages and signals -/

theorem registrations_send (message : Message) :
    (s.send client message).registrations =
      s.registrations ++ (registration? (client, message)).toList := by
  rw [registrations, send, List.filterMap_append, registrations]
  cases h : registration? (client, message) <;> simp [h]

/-- A new registration is the newest one of its id. -/
theorem registrationOf_of_append {r : Registration} (h : s'.registrations = s.registrations ++ [r])
    (id : ℤ) : s'.registrationOf id = if r.id = id then some r else s.registrationOf id := by
  rw [registrationOf, h, List.reverse_append, List.reverse_singleton, List.singleton_append,
    List.find?_cons]
  by_cases hid : r.id = id <;> simp [hid, registrationOf]

theorem registrationOf_congr (h : s'.registrations = s.registrations) (id : ℤ) :
    s'.registrationOf id = s.registrationOf id := by
  rw [registrationOf, h, registrationOf]

theorem mem_registrations_of_registrationOf {id : ℤ} {r : Registration}
    (h : s.registrationOf id = some r) : r ∈ s.registrations :=
  List.mem_reverse.mp (List.mem_of_find?_eq_some h)

theorem mem_registrations_of_mem_pending {r : Registration} (h : r ∈ s.pendingRegistrations) :
    r ∈ s.registrations :=
  List.mem_of_mem_drop h

theorem pendingRegistrations_congr (h : s'.registrations = s.registrations)
    (hp : s'.observeQueryChanged = s.observeQueryChanged) :
    s'.pendingRegistrations = s.pendingRegistrations := by
  rw [pendingRegistrations, h, hp, pendingRegistrations]

/-- A registration with its signal. -/
theorem pendingRegistrations_of_append {r : Registration} {signal : ℤ × List QJsonValue}
    (h : s'.registrations = s.registrations ++ [r])
    (hp : s'.observeQueryChanged = s.observeQueryChanged ++ [signal]) :
    s'.pendingRegistrations = s.pendingRegistrations ++ [r] := by
  rw [pendingRegistrations, h, hp, pendingRegistrations, List.length_append, List.length_append,
    List.length_singleton, List.length_singleton, Nat.add_sub_add_right,
    List.drop_append_of_le_length (Nat.sub_le _ _)]

/-! ## Invariant -/

/-- What holds of the observers in every state. -/
structure ObserverInvariant (s : QDocdbServer) : Prop where
  counter : 1 ≤ s.nextNumber ∧ s.nextNumber ≤ 2 ^ 31 - 1
  bounded : ∀ r ∈ s.registrations, r.id < s.nextNumber
  quiet : ∀ place c, s.collection? place = some c → c.coll.emitted = []
  routed : ∀ place id, s.Active place id → ∃ client,
    s.registrationOf id = some ⟨id, client, place⟩ ∧ s.observeClient id = some (some client) ∧
      s.observeCollection id = some place
  signals : s.pendingRegistrations.map Registration.id = s.observeQueryChanged.map Prod.fst
  pending : ∀ r ∈ s.pendingRegistrations, ∀ client, s.observeClient r.id = some (some client) →
    client = r.client
  unlocked : ∀ dbName, s.databaseLocks dbName = none
  empty : ∀ client, (s.links client).unlockWait = []

namespace ObserverInvariant

variable (hI : ObserverInvariant s)

include hI

/-- An active observer has an id below the counter. -/
theorem lt_nextNumber {place : Place} {id : ℤ} (h : s.Active place id) : id < s.nextNumber := by
  obtain ⟨client, hr, -⟩ := hI.routed place id h
  exact hI.bounded _ (mem_registrations_of_registrationOf hr)

end ObserverInvariant

/-! ## Opening a collection -/

theorem active_setCollection {place : Place} {c : OpenCollection} {place' : Place} {id : ℤ} :
    (s.setCollection place c).Active place' id ↔
      if place' = place then id ∈ c.coll.observers else s.Active place' id := by
  rw [Active, collection?_setCollection]
  split
  · simp
  · simp [Active]

/-- A collection that is put in its place has its signals taken. -/
theorem quiet_setCollection {place : Place} {c : OpenCollection}
    (h : ∀ place c, s.collection? place = some c → c.coll.emitted = []) (place' : Place)
    (c' : OpenCollection) (hc : (s.setCollection place c).collection? place' = some c') :
    c'.coll.emitted = [] := by
  rcases collection?_of_setCollection hc with ⟨rfl, rfl⟩ | ⟨-, c₀, hc₀, rfl⟩
  · rfl
  · rw [OpenCollection.emitted_sharingWith]
    exact h place' c₀ hc₀

/-- A collection that was just opened has no observers and emitted nothing. -/
theorem observers_open (E : Env) (db : Store) :
    (Collection.open E db).observers = ∅ ∧ (Collection.open E db).emitted = [] := by
  have hwrite : ∀ (σ : Collection) (tx : Transaction), σ.observers = ∅ → σ.emitted = [] →
      tx.observers = ∅ →
      (σ.writeTransaction E tx).2.observers = ∅ ∧ (σ.writeTransaction E tx).2.emitted = [] := by
    intro σ tx hσ he htx
    rw [Collection.writeTransaction]
    split
    · simp [Collection.emitObservers, htx, hσ, he, Collection.copyReplies, Observers.update]
    · exact ⟨hσ, he⟩
  rw [Collection.open]
  dsimp only
  split
  · exact hwrite _ _ rfl rfl rfl
  · exact hwrite _ _ rfl rfl rfl
  · exact hwrite _ _ rfl rfl rfl

theorem active_openCollectionOf {place : Place} {id : ℤ} :
    (s.openCollectionOf E o).Active place id ↔ s.Active place id := by
  rcases openCollectionOf_cases E s o with heq | ⟨hnone, B, path, db, -, heq⟩
  · rw [heq]
  · rw [heq, active_setCollection]
    split
    · rename_i hplace
      simp [Active, hplace, hnone, (observers_open (E.env.on B) db).1]
    · rfl

/-- Opening a collection emits no signal. -/
theorem observeQueryChanged_openCollectionOf :
    (s.openCollectionOf E o).observeQueryChanged = s.observeQueryChanged := by
  rcases openCollectionOf_cases E s o with heq | ⟨-, B, path, db, -, heq⟩
  · rw [heq]
  · rw [heq, setCollection, (observers_open (E.env.on B) db).2, List.append_nil]

/-- Some observers of `s` are gone in `s'`, and nothing was registered. -/
structure FewerObservers (s s' : QDocdbServer) : Prop where
  active : ∀ place id, s'.Active place id → s.Active place id ∧
    s'.observeClient id = s.observeClient id ∧ s'.observeCollection id = s.observeCollection id
  clients : ∀ id client, s'.observeClient id = some (some client) →
    s.observeClient id = some (some client)
  quiet : (∀ place c, s.collection? place = some c → c.coll.emitted = []) →
    ∀ place c, s'.collection? place = some c → c.coll.emitted = []
  sent : s'.registrations = s.registrations
  signals : s'.observeQueryChanged = s.observeQueryChanged
  nextNumber : s'.nextNumber = s.nextNumber
  databaseLocks : ∀ dbName, s.databaseLocks dbName = none → s'.databaseLocks dbName = none
  unlockWait : ∀ client, (s.links client).unlockWait = [] → (s'.links client).unlockWait = []

theorem ObserverInvariant.of_fewerObservers (hI : ObserverInvariant s) (h : FewerObservers s s') :
    ObserverInvariant s' where
  counter := by
    rw [h.nextNumber]
    exact hI.counter
  bounded := by
    rw [h.sent, h.nextNumber]
    exact hI.bounded
  quiet := h.quiet hI.quiet
  routed := fun place id ha => by
    obtain ⟨ha, hclient, hcoll⟩ := h.active place id ha
    rw [hclient, hcoll, registrationOf_congr h.sent]
    exact hI.routed place id ha
  signals := by
    rw [pendingRegistrations_congr h.sent h.signals, h.signals]
    exact hI.signals
  pending := fun r hr client hclient => by
    rw [pendingRegistrations_congr h.sent h.signals] at hr
    exact hI.pending r hr client (h.clients r.id client hclient)
  unlocked := fun dbName => h.databaseLocks dbName (hI.unlocked dbName)
  empty := fun client => h.unlockWait client (hI.empty client)

theorem fewerObservers_openCollectionOf : FewerObservers s (s.openCollectionOf E o) where
  active := fun place id ha => ⟨active_openCollectionOf.mp ha, by simp⟩
  clients := fun id client h => by simpa using h
  quiet := fun hquiet place c hc => by
    rcases openCollectionOf_cases E s o with heq | ⟨-, B, path, db, -, heq⟩
    · exact hquiet place c (heq ▸ hc)
    · rw [heq] at hc
      exact quiet_setCollection hquiet place c hc
  sent := by rw [registrations, sent_openCollectionOf, registrations]
  signals := observeQueryChanged_openCollectionOf
  nextNumber := nextNumber_openCollectionOf
  databaseLocks := fun dbName h => by rwa [databaseLocks_openCollectionOf]
  unlockWait := fun client h => by rwa [links_openCollectionOf]

theorem fewerObservers_openDatabaseOf : FewerObservers s (s.openDatabaseOf E o) := by
  obtain ⟨databases, heq, hsame⟩ := openDatabaseOf_eq E s o
  rw [heq] at hsame ⊢
  refine ⟨fun place id ha => ⟨?_, rfl, rfl⟩, fun id client h => h, fun hquiet place c hc => ?_,
    rfl, rfl, rfl, fun _ h => h, fun _ h => h⟩
  · rwa [Active, hsame place] at ha
  · exact hquiet place c ((hsame place).symm.trans hc)

/-! ## Unobserving -/

/-- An observer that its owner takes back. -/
theorem active_unobserveAt {place place' : Place} {id id' : ℤ} :
    (s.unobserveAt place id).Active place' id' ↔
      s.Active place' id' ∧ (place' = place → id' ≠ id) := by
  rw [unobserveAt]
  split
  · rename_i c hc
    rw [active_setCollection]
    split
    · rename_i hplace
      have herase : id' ∈ (c.coll.unobserve id).observers ↔ id' ≠ id ∧ id' ∈ c.coll.observers :=
        AList.mem_erase
      simp only [hplace, herase, Active, hc, Option.some.injEq, exists_eq_left', true_implies]
      exact and_comm
    · rename_i hplace
      simp [hplace]
  · rename_i hnone
    refine ⟨fun h => ⟨h, fun heq => ?_⟩, fun h => h.1⟩
    obtain ⟨c, hc, -⟩ := h
    rw [heq, hnone] at hc
    cases hc

theorem FewerObservers.refl (s : QDocdbServer) : FewerObservers s s :=
  ⟨fun _ _ ha => ⟨ha, rfl, rfl⟩, fun _ _ h => h, fun h => h, rfl, rfl, rfl, fun _ h => h,
    fun _ h => h⟩

theorem fewerObservers_unobserveAt (hI : ObserverInvariant s) (place : Place) (id : ℤ) :
    FewerObservers s (s.unobserveAt place id) := by
  have hactive : ∀ place' id', (s.unobserveAt place id).Active place' id' → s.Active place' id' :=
    fun place' id' ha => (active_unobserveAt.mp ha).1
  revert hactive
  rw [unobserveAt]
  split
  · rename_i c hc
    intro hactive
    have hquiet := hI.quiet place c hc
    refine ⟨fun place' id' ha => ⟨hactive place' id' ha, rfl, rfl⟩, fun _ _ h => h,
      quiet_setCollection, rfl, ?_, rfl, fun _ h => h, fun _ h => h⟩
    simp [setCollection, Collection.unobserve, hquiet]
  · exact fun _ => .refl s

/-- A table entry that leads to a client is not the one that was just overwritten. -/
theorem observeClient_of_update {observeId id : ℤ} {value : Option (Option ClientId)} {c : ClientId}
    (hvalue : value ≠ some (some c))
    (h : Function.update s.observeClient observeId value id = some (some c)) :
    s.observeClient id = some (some c) := by
  rw [Function.update_apply] at h
  split at h
  · exact absurd h hvalue
  · exact h

theorem fewerObservers_unobserve (hI : ObserverInvariant s) (observeId : ℤ) :
    FewerObservers s (s.unobserve client observeId).1 := by
  rw [unobserve]
  split
  · exact .refl s
  · rename_i place hplace
    split
    · -- an entry without a client does not belong to an active observer
      rename_i hnone
      refine { FewerObservers.refl s with
        active := fun place id ha => ⟨ha, Function.update_of_ne (fun hid => ?_) _ _, rfl⟩
        clients := fun id c h => observeClient_of_update (by simp) h }
      obtain ⟨client, -, hclient, -⟩ := hI.routed place id ha
      rw [hid, hnone] at hclient
      cases hclient
    · split
      · -- the observer is active in the place that the table names, and nowhere else
        have hfewer := fewerObservers_unobserveAt hI place observeId
        have hne : ∀ place' id', (s.unobserveAt place observeId).Active place' id' →
            id' ≠ observeId := by
          rintro place' id' ha rfl
          obtain ⟨ha, hid⟩ := active_unobserveAt.mp ha
          obtain ⟨client, -, -, hcoll⟩ := hI.routed place' id' ha
          exact hid (Option.some.inj (hcoll.symm.trans hplace)) rfl
        refine { hfewer with
          active := fun place' id' ha => ?_
          clients := fun id c h => hfewer.clients id c (observeClient_of_update (by simp) h) }
        have hid := hne place' id' ha
        obtain ⟨ha, hclient, hcoll⟩ := hfewer.active place' id' ha
        exact ⟨ha, (Function.update_of_ne hid _ _).trans hclient,
          (Function.update_of_ne hid _ _).trans hcoll⟩
      · exact .refl s

/-! ## Removing a client -/

/-- Erasing some of the keys of a table one by one. -/
theorem mem_foldl_erase {p : ℤ → Prop} [DecidablePred p] {id : ℤ} (keys : List ℤ)
    (obs : Observers) :
    id ∈ keys.foldl (fun obs id => if p id then obs.erase id else obs) obs ↔
      id ∈ obs ∧ (id ∈ keys → ¬ p id) := by
  induction keys generalizing obs with
  | nil => simp
  | cons key keys ih =>
    rw [List.foldl_cons, ih, List.mem_cons]
    by_cases hp : p key
    · rw [if_pos hp, AList.mem_erase]
      constructor
      · rintro ⟨⟨hne, hmem⟩, hkeys⟩
        exact ⟨hmem, fun h => hkeys (h.resolve_left hne)⟩
      · rintro ⟨hmem, hkeys⟩
        exact ⟨⟨fun h => hkeys (.inl h) (h ▸ hp), hmem⟩, fun h => hkeys (.inr h)⟩
    · rw [if_neg hp]
      refine and_congr_right fun _ => ⟨fun hkeys h => ?_, fun hkeys h => hkeys (.inr h)⟩
      rcases h with rfl | h
      · exact hp
      · exact hkeys h

/-- The observers that are left belong to other clients. -/
theorem active_clientRemoved {place : Place} {id : ℤ} :
    (s.clientRemoved client).Active place id ↔ s.Active place id ∧
      ¬ (s.observeClient id = some (some client) ∧ s.observeCollection id = some place) := by
  rw [Active, Active, collection?_clientRemoved]
  cases hc : s.collection? place with
  | none => simp
  | some c =>
    simp only [Option.map_some, Option.some.injEq, exists_eq_left', unobserveClient]
    rw [mem_foldl_erase, AList.mem_keys]
    constructor
    · rintro ⟨h, h'⟩
      exact ⟨h, h' h⟩
    · rintro ⟨h, h'⟩
      exact ⟨h, fun _ => h'⟩

theorem fewerObservers_clientRemoved (hI : ObserverInvariant s) :
    FewerObservers s (s.clientRemoved client) where
  active := fun place id ha => by
    obtain ⟨ha, hne⟩ := active_clientRemoved.mp ha
    obtain ⟨owner, -, howner, hcoll⟩ := hI.routed place id ha
    refine ⟨ha, if_neg fun h => hne ⟨h, hcoll⟩, rfl⟩
  clients := fun id c h => by
    rw [clientRemoved] at h
    dsimp only at h
    split at h
    · cases h
    · exact h
  quiet := fun hquiet place c hc => by
    rw [collection?_clientRemoved, Option.map_eq_some_iff] at hc
    obtain ⟨c, hc, rfl⟩ := hc
    exact hquiet place c hc
  sent := rfl
  signals := rfl
  nextNumber := rfl
  databaseLocks := fun dbName h => by simp [clientRemoved, h]
  unlockWait := fun c h => by
    rw [links_clientRemoved, Function.update_apply]
    split
    · rfl
    · exact h

/-! ## Observing -/

/-- The id that a collection gives to a new observer, and the counter after it. -/
def observeIds (σ : Collection) (preferedId nextNumber : ℤ) : ℤ × ℤ :=
  if preferedId = -1 ∨ (σ.observers.lookup preferedId).isSome then
    (nextNumber, int32 (nextNumber + 1))
  else (preferedId, nextNumber)

/-- A new observer emits its reply at once. -/
theorem emitObserver_insert (σ : Collection) (id : ℤ) (query queryOptions : QJsonObject)
    (reply : List QJsonValue) :
    { σ with observers := σ.observers.insert id ⟨query, queryOptions, reply, true⟩ }.emitObserver id =
      { σ with
        observers := (σ.observers.insert id ⟨query, queryOptions, reply, true⟩).insert id
          ⟨query, queryOptions, reply, false⟩
        emitted := σ.emitted ++ [(id, reply)] } := by
  rw [Collection.emitObserver, AList.lookup_insert]
  rfl

/-- What `observe` of a collection does: the observer is added, and emits its reply. -/
theorem exists_observe (E : Env) (σ : Collection) (query queryOptions : QJsonObject)
    (preferedId nextNumber : ℤ) :
    ∃ σ' reply, σ.observe E query queryOptions preferedId nextNumber =
        ((observeIds σ preferedId nextNumber).1, (observeIds σ preferedId nextNumber).2, σ') ∧
      σ'.emitted = σ.emitted ++ [((observeIds σ preferedId nextNumber).1, reply)] ∧
      ∀ id, id ∈ σ'.observers ↔
        id = (observeIds σ preferedId nextNumber).1 ∨ id ∈ σ.observers := by
  have heq : σ.observe E query queryOptions preferedId nextNumber =
      ((observeIds σ preferedId nextNumber).1, (observeIds σ preferedId nextNumber).2,
        { σ with
          observers := σ.observers.insert (observeIds σ preferedId nextNumber).1
            ⟨query, queryOptions, (find E (σ.reader E) query queryOptions).2.map Prod.fst, true⟩
        }.emitObserver (observeIds σ preferedId nextNumber).1) := by
    rw [Collection.observe, observeIds]
    split <;> rfl
  rw [heq, emitObserver_insert]
  exact ⟨_, _, rfl, rfl, fun id => by simp⟩

/-- An id that is given out safely is new, and the counter is past it. -/
theorem observeIds_of_prefersSafely (hI : ObserverInvariant s) {preferedId : ℤ}
    {c : OpenCollection} (hc : s.collection? o.place = some c)
    (hnext : s.nextNumber < 2 ^ 31 - 1)
    (hsafe : preferedId = -1 ∨ s.Active o.place preferedId ∨
      preferedId < s.nextNumber ∧ (∀ place, ¬ s.Active place preferedId) ∧
        ∀ r ∈ s.pendingRegistrations, r.id = preferedId → r.client = client) :
    (observeIds c.coll preferedId s.nextNumber).1 < (observeIds c.coll preferedId s.nextNumber).2 ∧
      s.nextNumber ≤ (observeIds c.coll preferedId s.nextNumber).2 ∧
      (observeIds c.coll preferedId s.nextNumber).2 ≤ 2 ^ 31 - 1 ∧
      (∀ place, ¬ s.Active place (observeIds c.coll preferedId s.nextNumber).1) ∧
      ∀ r ∈ s.pendingRegistrations, r.id = (observeIds c.coll preferedId s.nextNumber).1 →
        r.client = client := by
  have hpos := hI.counter.1
  have hsucc : int32 (s.nextNumber + 1) = s.nextNumber + 1 := int32_of_lt (by omega) (by omega)
  rw [observeIds]
  split
  · dsimp only
    refine ⟨by omega, by omega, by omega, fun place ha => ?_, fun r hr hid => ?_⟩
    · exact lt_irrefl _ (hI.lt_nextNumber ha)
    · have := hI.bounded r (mem_registrations_of_mem_pending hr)
      omega
  · rename_i hnew
    rw [not_or] at hnew
    have hnone : ¬ s.Active o.place preferedId := by
      rintro ⟨c', hc', hid⟩
      rw [hc] at hc'
      cases hc'
      exact hnew.2 (AList.lookup_isSome.mpr hid)
    obtain ⟨hlt, hactive, hpending⟩ := (hsafe.resolve_left hnew.1).resolve_left hnone
    exact ⟨hlt, le_refl _, hnext.le, hactive, hpending⟩

/-- Registering an observer under a safe id. -/
theorem ObserverInvariant.observe (hI : ObserverInvariant s) {c : OpenCollection}
    (hc : s.collection? o.place = some c) (query queryOptions : QJsonObject) {preferedId : ℤ}
    (hnext : s.nextNumber < 2 ^ 31 - 1)
    (hsafe : preferedId = -1 ∨ s.Active o.place preferedId ∨
      preferedId < s.nextNumber ∧ (∀ place, ¬ s.Active place preferedId) ∧
        ∀ r ∈ s.pendingRegistrations, r.id = preferedId → r.client = client) :
    ∃ s' id,
      s.observe E client o.place c query queryOptions preferedId = (s', ⟨[], .observeReply id⟩) ∧
      (∀ place, ¬ s.Active place id) ∧
      ObserverInvariant (s'.send client (.reply o ⟨[], .observeReply id⟩)) := by
  have hids := observeIds_of_prefersSafely hI hc hnext hsafe
  obtain ⟨σ', reply, heq, hemitted, hmem⟩ := exists_observe (E.env.on c.backend) c.coll query
    queryOptions preferedId s.nextNumber
  generalize observeIds c.coll preferedId s.nextNumber = ids at hids heq hemitted hmem
  obtain ⟨id, next⟩ := ids
  obtain ⟨hlt, hle, hmax, hfresh, hpending⟩ := hids
  refine ⟨_, id, by rw [QDocdbServer.observe, heq], hfresh, ?_⟩
  rw [hI.quiet _ _ hc, List.nil_append] at hemitted
  generalize hs' : send _ client _ = s'
  have hreg : s'.registrations = s.registrations ++ [⟨id, client, o.place⟩] := by
    rw [← hs', registrations_send]
    rfl
  have hsignals : s'.observeQueryChanged = s.observeQueryChanged ++ [(id, reply)] := by
    rw [← hs', ← hemitted]
    rfl
  have hwaiting := pendingRegistrations_of_append hreg hsignals
  have hclient : s'.observeClient = Function.update s.observeClient id (some (some client)) := by
    rw [← hs']
    rfl
  have hcoll : s'.observeCollection = Function.update s.observeCollection id (some o.place) := by
    rw [← hs']
    rfl
  have hactive : ∀ place id', s'.Active place id' ↔
      if place = o.place then id' ∈ σ'.observers else s.Active place id' := by
    rw [← hs']
    exact fun place id' => active_setCollection
  exact {
    counter := by
      rw [← hs']
      exact ⟨hI.counter.1.trans hle, hmax⟩
    bounded := fun r hr => by
      have hnumber : s'.nextNumber = next := by
        rw [← hs']
        rfl
      rw [hreg, List.mem_append, List.mem_singleton] at hr
      rw [hnumber]
      rcases hr with hr | rfl
      · exact (hI.bounded r hr).trans_le hle
      · exact hlt
    quiet := fun place c' hc' => by
      rw [← hs'] at hc'
      exact quiet_setCollection hI.quiet place c' hc'
    routed := fun place id' ha => by
      rw [registrationOf_of_append hreg, hclient, hcoll]
      rw [hactive] at ha
      by_cases hid : id = id'
      · -- the new observer is the only one with its id
        subst hid
        split at ha
        · rename_i hplace
          exact ⟨client, by rw [if_pos rfl, hplace], Function.update_self .., by
            rw [Function.update_self, hplace]⟩
        · exact absurd ha (hfresh place)
      · have hold : s.Active place id' := by
          split at ha
          · rename_i hplace
            exact ⟨c, hplace ▸ hc, ((hmem id').mp ha).resolve_left (Ne.symm hid)⟩
          · exact ha
        rw [if_neg hid, Function.update_of_ne (Ne.symm hid), Function.update_of_ne (Ne.symm hid)]
        exact hI.routed place id' hold
    signals := by
      rw [hwaiting, hsignals, List.map_append, List.map_append, hI.signals]
      rfl
    pending := fun r hr c' hc' => by
      rw [hwaiting, List.mem_append, List.mem_singleton] at hr
      rw [hclient, Function.update_apply] at hc'
      rcases hr with hr | rfl
      · split at hc'
        · rename_i hid
          have howner := hpending r hr hid
          cases hc'
          exact howner.symm
        · exact hI.pending r hr c' hc'
      · rw [if_pos rfl] at hc'
        cases hc'
        rfl
    unlocked := fun dbName => by
      rw [← hs']
      exact hI.unlocked dbName
    empty := fun c' => by
      rw [← hs']
      exact hI.empty c' }

/-! ## Runs -/

theorem PrefersSafely.congr {e : Event} (h : PrefersSafely s e)
    (hactive : ∀ place id, s'.Active place id ↔ s.Active place id)
    (hpending : s'.pendingRegistrations = s.pendingRegistrations)
    (hnumber : s'.nextNumber = s.nextNumber) : PrefersSafely s' e := by
  cases e with
  | received client o =>
    intro query queryOptions preferedId ht
    simp only [hactive, hpending, hnumber]
    exact h query queryOptions preferedId ht
  | _ => trivial

/-- A message that registers nothing. -/
theorem fewerObservers_send {message : Message} (h : registration? (client, message) = none) :
    FewerObservers s (s.send client message) := by
  refine { FewerObservers.refl s with sent := ?_ }
  rw [registrations_send, h]
  simp

/-- The reply to an unobserve request says nothing. -/
theorem unobserve_snd (observeId : ℤ) : (s.unobserve client observeId).2 = .ofError [] := by
  rw [unobserve]
  split
  · rfl
  · split
    · rfl
    · split <;> rfl

/-- **Step** of a request about observers. -/
theorem ObserverInvariant.served (hI : ObserverInvariant s)
    (hevent : ObserverEvent (.received client o)) (hsafe : PrefersSafely s (.received client o))
    {p : QDocdbServer × Reply} (h : Served E s client o p) :
    ObserverInvariant (p.1.send client (.reply o p.2)) ∧
      ∀ id, p.2.value = .observeReply id → ∀ place, ¬ s.Active place id := by
  have hsilent : ∀ {s' : QDocdbServer} {error : QString}, FewerObservers s s' →
      ObserverInvariant (s'.send client (.reply o (.ofError error))) ∧
        ∀ id, (Reply.ofError error).value = .observeReply id → ∀ place, ¬ s.Active place id :=
    fun hfewer => ⟨(hI.of_fewerObservers hfewer).of_fewerObservers (fewerObservers_send rfl),
      fun id hid => by cases hid⟩
  have hopen := hI.of_fewerObservers (fewerObservers_openCollectionOf (E := E) (o := o))
  cases h with
  | @unobserve observeId ht =>
    rw [unobserve_snd]
    exact hsilent (fewerObservers_unobserve hI observeId)
  | cannotOpenDatabase _ => exact hsilent (.refl s)
  | emptyCollectionName _ => exact hsilent (.refl s)
  | cannotOpenCollection _ => exact hsilent fewerObservers_openCollectionOf
  | @observe query queryOptions preferedId c ht hc =>
    have hactive : ∀ place id, (s.openCollectionOf E o).Active place id ↔ s.Active place id :=
      fun place id => active_openCollectionOf
    have hsafe' := hsafe.congr hactive (pendingRegistrations_congr
      (fewerObservers_openCollectionOf (E := E)).sent observeQueryChanged_openCollectionOf)
      nextNumber_openCollectionOf
    obtain ⟨hnext, hid⟩ := hsafe' query queryOptions preferedId ht
    obtain ⟨s', id, heq, hfresh, hI'⟩ := hopen.observe hc query queryOptions hnext hid
    rw [heq]
    refine ⟨hI', fun id' hid' place ha => ?_⟩
    cases hid'
    exact hfresh place ((hactive place id).mpr ha)
  | writeTransaction ht => simp [ObserverEvent, ht] at hevent
  | discardTransaction ht => simp [ObserverEvent, ht] at hevent
  | exclusiveLock ht => simp [ObserverEvent, ht] at hevent
  | unlock ht => simp [ObserverEvent, ht] at hevent
  | newTransaction ht _ => simp [ObserverEvent, ht] at hevent
  | autoCommit ht _ =>
    rcases hevent with ⟨_, _, _, h⟩ | ⟨_, h⟩ <;> rw [h] at ht <;> cases ht
  | operation ht _ =>
    rcases hevent with ⟨_, _, _, h⟩ | ⟨_, h⟩ <;> rw [h] at ht <;> cases ht
  | onCollection hurl _ _ hobserve _ _ =>
    rcases hevent with ⟨_, _, _, h⟩ | ⟨_, h⟩
    · exact absurd h (hobserve _ _ _)
    · rw [h] at hurl
      cases hurl

/-- The oldest signal is taken off the event queue, and its registration with it. -/
theorem ObserverInvariant.notified (hI : ObserverInvariant s)
    {pending : List (ℤ × List QJsonValue)} {signal : ℤ × List QJsonValue}
    (h : s.observeQueryChanged = signal :: pending) :
    ObserverInvariant { s with observeQueryChanged := pending } := by
  have hlength := congrArg List.length hI.signals
  rw [List.length_map, List.length_map, h, pendingRegistrations, List.length_drop, h,
    List.length_cons] at hlength
  have htail : pendingRegistrations { s with observeQueryChanged := pending } =
      s.pendingRegistrations.tail := by
    rw [pendingRegistrations, pendingRegistrations, List.tail_drop, h, List.length_cons]
    change s.registrations.drop (s.registrations.length - pending.length) = _
    exact congrArg (s.registrations.drop ·) (by omega)
  exact { hI with
    signals := by
      rw [htail, List.map_tail, hI.signals, h]
      rfl
    pending := fun r hr => by
      rw [htail] at hr
      exact hI.pending r (List.mem_of_mem_tail hr) }

/-- What is allowed: events about observers, with safe ids. -/
def ObservesSafely (s : QDocdbServer) (e : Event) : Prop := ObserverEvent e ∧ PrefersSafely s e

theorem serverInvariant_observers :
    ServerInvariant E ObservesSafely ObserverInvariant (fun _ _ => ObserverInvariant)
      (fun _ s client o => ObservesSafely s (.received client o)) where
  started := {
    counter := by decide
    bounded := fun r hr => by cases hr
    quiet := fun place c hc => by cases hc
    routed := fun place id ⟨c, hc, _⟩ => by cases hc
    signals := rfl
    pending := fun r hr => by cases hr
    unlocked := fun _ => rfl
    empty := fun _ => rfl }
  connected := fun {s client} hI _ => hI.of_fewerObservers { FewerObservers.refl s with
    unlockWait := fun c h => by
      rw [links_newConnection, Function.update_apply]
      split
      · rfl
      · exact h }
  disconnected := fun hI _ _ => hI.of_fewerObservers (fewerObservers_clientRemoved hI)
  notified := fun {s pending id reply} hI hq =>
    (hI.notified hq).of_fewerObservers (by
      rw [observeChanged]
      split
      · exact fewerObservers_send rfl
      · exact .refl _)
  arrived := fun hI hok _ => ⟨hI, hok⟩
  taken := fun {s client} hI _ _ => hI.of_fewerObservers { FewerObservers.refl s with
    unlockWait := fun c h => by
      by_cases hc : c = client
      · rw [hc, takeUnlocked, links_setLink_self]
        exact hI.empty client
      · rwa [takeUnlocked, links_setLink_of_ne hc] }
  dequeued := fun {s client n o rest} hI _ hq => by
    rw [hI.empty client] at hq
    cases hq
  done := fun hI _ => hI
  opened := fun {s client n o} hI hfit => by
    obtain ⟨databases, heq, hsame⟩ := openDatabaseOf_eq E s o
    refine ⟨hI.of_fewerObservers fewerObservers_openDatabaseOf, hfit.1, hfit.2.congr ?_ ?_ ?_⟩
    · intro place id
      rw [Active, hsame place, Active]
    · rw [heq]
      rfl
    · rw [heq]
  waits := fun {s client n o} hI _ _ hw => by
    obtain ⟨-, owner, -, hlock⟩ := mustWait_iff.mp hw
    rw [hI.unlocked] at hlock
    cases hlock
  served := fun hI hfit _ _ hserved => (hI.served hfit.1 hfit.2 hserved).1

/-- **Observer ids never collide** in any run about observers in which nobody prefers an
unsafe id. -/
theorem observersApart_of_reachable {e : Event} (h : ServerReachable E ObservesSafely s)
    (hok : ObservesSafely s e) : ObserversApart E s e := by
  have hI := serverInvariant_observers.reachable h
  refine ⟨fun s₁ client o p id hcall hp hid => ?_, fun place id ha => ?_, hI.signals, hI.pending⟩
  · obtain ⟨-, hI₁, ⟨hevent, hsafe⟩, -, -⟩ := serverInvariant_observers.calls h hok hcall
    exact (hI₁.served hevent hsafe (served_of_serve hp)).2 id hid
  · obtain ⟨client, hr, hclient, -⟩ := hI.routed place id ha
    exact ⟨client, hr, hclient⟩

/-- A request to observe everything in a collection of the database `D`. -/
def observeIn (serial : ℕ) (collName : QString) (preferedId : ℤ) : QDocdbLinkObject :=
  ⟨serial, serial, .of (qs "D") collName, [], .observe [] [] preferedId⟩

/-- Two clients; the first one observes a collection. -/
def observedC : List Event :=
  [.connected 1, .connected 2, .received 1 (observeIn 0 (qs "c") (-1))]

theorem observesSafely_observeIn {serial : ℕ} {collName : QString}
    (h : s.nextNumber < 2 ^ 31 - 1) :
    ObservesSafely s (.received client (observeIn serial collName (-1))) := by
  refine ⟨.inl ⟨[], [], -1, rfl⟩, fun query queryOptions preferedId ht => ?_⟩
  cases ht
  exact ⟨h, .inl rfl⟩

/-- The second client observes another collection, without a preferred id. -/
theorem observersApart_observedC :
    ∃ s, handleAll emptyServerEnv .init observedC = some s ∧
      ObserversApart emptyServerEnv s (.received 2 (observeIn 0 (qs "d") (-1))) := by
  have hconnected : ServerReachable emptyServerEnv ObservesSafely
      ((init.newConnection 1).newConnection 2) :=
    .handled (e := .connected 2) (.handled (e := .connected 1) .started ⟨trivial, trivial⟩ rfl)
      ⟨trivial, trivial⟩ rfl
  obtain ⟨s, hs⟩ := Option.isSome_iff_exists.mp
    (show (handleAll emptyServerEnv .init observedC).isSome = true by decide)
  have hobserved : ((init.newConnection 1).newConnection 2).handle emptyServerEnv
      (.received 1 (observeIn 0 (qs "c") (-1))) = some s := by
    have heq : handleAll emptyServerEnv .init observedC =
        (((init.newConnection 1).newConnection 2).handle emptyServerEnv
          (.received 1 (observeIn 0 (qs "c") (-1)))).bind some := rfl
    rw [← hs, heq, Option.bind_fun_some]
  have hnumber : some s.nextNumber = some 2 := by
    rw [show some s.nextNumber = (some s).map nextNumber from rfl, ← hs]
    decide
  refine ⟨s, hs, observersApart_of_reachable (.handled hconnected
    (observesSafely_observeIn (by decide)) hobserved) (observesSafely_observeIn ?_)⟩
  rw [Option.some.inj hnumber]
  decide

/-- The second client prefers the id of the first one, on another collection. -/
theorem not_observersApart :
    ¬ ∀ (E : ServerEnv) (s : QDocdbServer) (e : Event),
      ServerReachable E (fun _ => ObserverEvent) s → ObserverEvent e → ObserversApart E s e := by
  intro h
  have hevents : ∀ e ∈ observedC, ObserverEvent e := by
    simp [observedC, ObserverEvent, observeIn]
  obtain ⟨s, hs, hp⟩ := exists_of_handleAll
    (E := emptyServerEnv) (p := fun s =>
      let o := observeIn 0 (qs "d") 1
      let s₁ := s.openDatabaseOf emptyServerEnv o
      decide (2 ∈ s.clients) && !s₁.mustWait 2 o &&
      ((s₁.serve emptyServerEnv 2 o).any fun p =>
        decide ((registration? (2, .reply o p.2)).map Registration.id = some 1)) &&
      (s₁.collection? (qs "D", qs "c")).any fun c => (c.coll.observers.lookup 1).isSome)
    (fun _ => hevents) (by decide)
  simp only [Bool.and_eq_true, Bool.not_eq_true', decide_eq_true_eq, Option.any_eq_true] at hp
  obtain ⟨⟨⟨hclient, hwait⟩, p, hserve, hvalue⟩, c, hc, hlookup⟩ := hp
  have hid : p.2.value = .observeReply 1 := value_of_registration? hvalue
  have hevent : ObserverEvent (.received 2 (observeIn 0 (qs "d") 1)) := Or.inl ⟨_, _, _, rfl⟩
  exact (h _ s _ hs hevent).fresh _ 2 _ p 1 (.received hclient hwait) hserve hid
    (qs "D", qs "c") ⟨c, hc, AList.lookup_isSome.mp hlookup⟩

end QDocdbServer

end Qdocdb
