import Qdocdb.Lib.Announcements
import Qdocdb.ObserverTables

/-!
# Signals of observers

A collection announces the reply of an observer with a signal when it has changed, and a new
observer announces its first reply. The signal waits in the event queue, and the server sends the
reply to the client of the observer when it comes to it. Nothing orders these messages but the
queue, and many handlers between the change and the message write the tables that lead from an
observer to its client. Yet in every run in which an id is not given to observers of different
collections, the last reply that a client was sent, or will be sent for what is in the queue, is
the one that its observer has (`toldCurrent_of_reachable`).
-/

namespace Qdocdb

namespace Collection

variable {E : Env} {σ σ₁ σ' : Collection}

/-! ## Announcements of a collection -/

/-- No observer waits for its signal. -/
def Calm (σ : Collection) : Prop := ∀ id o, σ.observers.lookup id = some o → o.triggered = false

/-- What happened between `σ` and `σ'` was announced, and no signal was left out. -/
structure Announces (σ σ' : Collection) : Prop where
  calm : σ'.Calm
  tells : ∃ news, σ'.emitted = σ.emitted ++ news ∧ Tells news σ.observers.reply σ'.observers.reply

theorem Announces.trans (h : Announces σ σ₁) (h' : Announces σ₁ σ') : Announces σ σ' := by
  obtain ⟨news, hnews, htells⟩ := h.tells
  obtain ⟨news', hnews', htells'⟩ := h'.tells
  refine ⟨h'.calm, news ++ news', ?_, htells.trans htells'⟩
  rw [hnews', hnews, List.append_assoc]

/-- The observers stay as they are. -/
theorem announces_of_eq (hcalm : σ.Calm) (hobservers : σ'.observers = σ.observers)
    (hemitted : σ'.emitted = σ.emitted) : Announces σ σ' := by
  refine ⟨?_, [], by rw [hemitted, List.append_nil], ?_⟩
  · rw [Calm, hobservers]
    exact hcalm
  · rw [hobservers]
    exact .refl _

/-- The signals that `emitObservers` emits. -/
def signals (σ : Collection) : List (ℤ × List QJsonValue) :=
  σ.observers.entries.filterMap fun e => if e.2.triggered then some (e.1, e.2.reply) else none

theorem mem_signals {id : ℤ} {reply : List QJsonValue} :
    (id, reply) ∈ σ.signals ↔
      ∃ o, σ.observers.lookup id = some o ∧ o.triggered = true ∧ o.reply = reply := by
  rw [signals, List.mem_filterMap]
  constructor
  · rintro ⟨e, he, heq⟩
    split at heq
    · rename_i htriggered
      obtain ⟨rfl, rfl⟩ := Prod.mk.inj (Option.some.inj heq)
      exact ⟨e.2, AList.mem_lookup_iff.mpr he, htriggered, rfl⟩
    · cases heq
  · rintro ⟨o, ho, htriggered, rfl⟩
    exact ⟨⟨id, o⟩, AList.mem_lookup_iff.mp ho, if_pos htriggered⟩

/-- An observer that waits for its signal gets it. -/
theorem latest_signals {id : ℤ} {o : Observer} (h : σ.observers.lookup id = some o) :
    latest σ.signals id = if o.triggered then some o.reply else none := by
  split
  · rename_i htriggered
    refine latest_eq_of_mem (mem_signals.mpr ⟨o, h, htriggered, rfl⟩) fun reply hmem => ?_
    obtain ⟨o', ho', -, rfl⟩ := mem_signals.mp hmem
    rw [Option.some.inj (ho'.symm.trans h)]
  · rename_i hcalm
    refine latest_eq_none fun e he hid => ?_
    obtain ⟨o', ho', htriggered, -⟩ := mem_signals.mp (show (e.1, e.2) ∈ σ.signals from he)
    rw [hid, h] at ho'
    exact hcalm (Option.some.inj ho' ▸ htriggered)

/-- **emitObservers** announces a change in which every new reply is marked as triggered. -/
theorem announces_emitObservers (hemitted : σ₁.emitted = σ.emitted)
    (h : ∀ id o, σ.observers.lookup id = some o →
      ∃ o₁, σ₁.observers.lookup id = some o₁ ∧ (o₁.triggered = true ∨ o₁.reply = o.reply)) :
    Announces σ σ₁.emitObservers := by
  refine ⟨fun id o ho => ?_, σ₁.signals, by rw [← hemitted]; rfl, ⟨?_, ?_⟩⟩
  · rw [emitObservers, Observers.lookup_update] at ho
    obtain ⟨o₁, -, rfl⟩ := Option.map_eq_some_iff.mp ho
    rfl
  · rintro ⟨id, reply⟩ he
    obtain ⟨o, ho, -⟩ := mem_signals.mp he
    rw [reply_emitObservers, Observers.reply, ho]
    rfl
  · intro id reply hreply
    obtain ⟨o, ho, rfl⟩ := Option.map_eq_some_iff.mp hreply
    obtain ⟨o₁, ho₁, hmarked⟩ := h id o ho
    rw [reply_emitObservers, latest_signals ho₁, Observers.reply, ho₁]
    split
    · rfl
    · rename_i hcalm
      rw [Option.map_some, hmarked.resolve_left hcalm]
      rfl

theorem announces_reloadObservers (hemitted : σ₁.emitted = σ.emitted)
    (h : ∀ id, id ∈ σ.observers → id ∈ σ₁.observers) : Announces σ (σ₁.reloadObservers E) := by
  refine announces_emitObservers hemitted fun id o ho => ?_
  have hmem := h id (AList.lookup_isSome.mp (by rw [ho]; rfl))
  obtain ⟨o₁, ho₁⟩ := Option.isSome_iff_exists.mp (AList.lookup_isSome.mpr hmem)
  exact ⟨_, by rw [Observers.lookup_update, ho₁]; rfl, .inl rfl⟩

/-- **A commit** announces the replies that it copies. -/
theorem announces_writeTransaction (hcalm : σ.Calm) (tx : Transaction) :
    Announces σ (σ.writeTransaction E tx).2 := by
  rw [writeTransaction]
  split
  · refine announces_emitObservers rfl fun id o ho => ?_
    dsimp only
    rw [lookup_copyReplies id _ (AList.keys_nodup tx.observers), ho]
    split
    · refine ⟨_, rfl, ?_⟩
      rw [Option.getD_some, copyReply]
      split
      · exact .inr rfl
      · exact .inl rfl
    · exact ⟨o, rfl, .inr rfl⟩
  · exact announces_of_eq hcalm rfl rfl

theorem announces_noteSnapshotsError (hcalm : σ.Calm) :
    Announces σ (σ.noteSnapshotsError E) := by
  rw [noteSnapshotsError]
  split <;> exact announces_of_eq hcalm rfl rfl

/-- The result of a commit in the middle of an operation. -/
theorem announces_of_writeTransaction (hcalm : σ.Calm) {tx : Transaction} {r : ResultEnum}
    (h : σ.writeTransaction E tx = (r, σ')) : Announces σ σ' := by
  have hcommit := @announces_writeTransaction E σ hcalm tx
  rwa [h] at hcommit

/-- A commit and a reload of all observers behind it. -/
theorem announces_reload (hcalm : σ.Calm) {tx : Transaction} {r : ResultEnum}
    (h : σ.writeTransaction E tx = (r, σ₁)) (s : Byte) :
    Announces σ ({ σ₁ with snapshotId := s }.reloadObservers E) := by
  have hcommit := announces_of_writeTransaction hcalm h
  have hnumber : Announces σ₁ { σ₁ with snapshotId := s } := announces_of_eq hcommit.calm rfl rfl
  exact hcommit.trans (hnumber.trans (announces_reloadObservers rfl fun _ h => h))

theorem announces_newSnapshot (hcalm : σ.Calm) (snapshotName : QString) :
    Announces σ (σ.newSnapshot E snapshotName).2 := by
  rw [newSnapshot]
  split
  · exact announces_of_eq hcalm rfl rfl
  · split
    · exact announces_of_eq hcalm rfl rfl
    · dsimp only
      split
      · rename_i heq
        have hcommit := announces_of_writeTransaction hcalm heq
        exact hcommit.trans (announces_of_eq hcommit.calm rfl rfl)
      · rename_i heq
        exact announces_of_writeTransaction hcalm heq

theorem announces_revertToSnapshot (hcalm : σ.Calm) (snapshotName : QString) :
    Announces σ (σ.revertToSnapshot E snapshotName).2 := by
  rw [revertToSnapshot]
  split
  · exact announces_noteSnapshotsError hcalm
  · split
    · exact announces_of_eq hcalm rfl rfl
    · dsimp only
      split
      · rename_i heq
        exact announces_reload hcalm heq _
      · rename_i heq
        exact announces_of_writeTransaction hcalm heq

theorem announces_removeSnapshot (hcalm : σ.Calm) {snapshotName : QString}
    {p : ResultEnum × Collection} (h : σ.removeSnapshot E snapshotName = some p) :
    Announces σ p.2 := by
  rw [removeSnapshot] at h
  split at h
  · obtain rfl := Option.some.inj h
    exact announces_noteSnapshotsError hcalm
  · split at h
    · obtain rfl := Option.some.inj h
      exact announces_of_eq hcalm rfl rfl
    · obtain ⟨sIds, -, rfl⟩ := Option.map_eq_some_iff.mp h
      dsimp only
      split
      · rename_i heq
        exact announces_reload hcalm heq _
      · rename_i heq
        exact announces_of_writeTransaction hcalm heq

/-- **A new observer** announces its first reply. -/
theorem exists_announces_observe (hcalm : σ.Calm) (query queryOptions : QJsonObject)
    {preferedId nextNumber id next : ℤ}
    (hids : QDocdbServer.observeIds σ preferedId nextNumber = (id, next)) :
    ∃ σ' reply, σ.observe E query queryOptions preferedId nextNumber = (id, next, σ') ∧
      σ'.Calm ∧ σ'.emitted = σ.emitted ++ [(id, reply)] ∧
      ∀ id', σ'.observers.reply id' = if id' = id then some reply else σ.observers.reply id' := by
  have heq : σ.observe E query queryOptions preferedId nextNumber =
      (id, next, { σ with
        observers := σ.observers.insert id
          ⟨query, queryOptions, (find E (σ.reader E) query queryOptions).2.map Prod.fst, true⟩
      }.emitObserver id) := by
    rw [QDocdbServer.observeIds] at hids
    rw [observe]
    split at hids
    · rename_i hnext
      obtain ⟨rfl, rfl⟩ := Prod.mk.inj hids
      simp only [hnext, if_true]
    · rename_i hnext
      obtain ⟨rfl, rfl⟩ := Prod.mk.inj hids
      simp only [hnext, if_false]
  rw [QDocdbServer.emitObserver_insert] at heq
  refine ⟨_, _, heq, fun id' o ho => ?_, rfl, fun id' => ?_⟩
  · by_cases hid : id' = id
    · subst hid
      rw [AList.lookup_insert] at ho
      rw [← Option.some.inj ho]
    · rw [AList.lookup_insert_ne hid, AList.lookup_insert_ne hid] at ho
      exact hcalm id' o ho
  · rw [Observers.reply]
    split
    · rename_i hid
      rw [hid, AList.lookup_insert]
      rfl
    · rename_i hid
      rw [AList.lookup_insert_ne hid, AList.lookup_insert_ne hid, Observers.reply]

end Collection

namespace QDocdbServer

variable {E : ServerEnv} {s s' : QDocdbServer} {client : ClientId} {o : QDocdbLinkObject}

/-- The requests that concern only a collection announce what they change. -/
theorem announces_onCollection {c c' : OpenCollection} {snapshotName : QString}
    {type : LinkObjectType} {r : Reply} (hcalm : c.coll.Calm)
    (h : onCollection E c snapshotName type = some (c', r)) : c.coll.Announces c'.coll := by
  have hreads : ∀ r', some (afterReaderOf E c snapshotName, r') = some (c', r) →
      c.coll.Announces c'.coll := by
    intro r' h
    rw [← (Prod.mk.inj (Option.some.inj h)).1, afterReaderOf]
    split
    · exact Collection.announces_of_eq hcalm rfl rfl
    · exact Collection.announces_noteSnapshotsError hcalm
  have hsame : ∀ r', some (c, r') = some (c', r) → c.coll.Announces c'.coll := by
    intro r' h
    rw [← (Prod.mk.inj (Option.some.inj h)).1]
    exact Collection.announces_of_eq hcalm rfl rfl
  cases type with
  | find query queryOptions => exact hreads _ h
  | findOne query queryOptions => exact hreads _ h
  | count query queryOptions => exact hreads _ h
  | getModified => exact hreads _ h
  | createIndex fieldName indexName =>
    rw [onCollection] at h
    dsimp only at h
    split at h
    · rw [← (Prod.mk.inj (Option.some.inj h)).1]
      exact Collection.announces_writeTransaction hcalm _
    · exact hsame _ h
  | getSnapshotList =>
    rw [onCollection] at h
    split at h
    · exact hsame _ h
    · rw [← (Prod.mk.inj (Option.some.inj h)).1]
      exact Collection.announces_of_eq hcalm rfl rfl
  | newSnapshot =>
    rw [onCollection] at h
    split at h
    · exact hsame _ h
    · obtain ⟨p, hp, hcoll⟩ := coll_of_snapshotReply h
      rw [hcoll, ← Option.some.inj hp]
      exact Collection.announces_newSnapshot hcalm _
  | revertToSnapshot =>
    rw [onCollection] at h
    split at h
    · exact hsame _ h
    · obtain ⟨p, hp, hcoll⟩ := coll_of_snapshotReply h
      rw [hcoll, ← Option.some.inj hp]
      exact Collection.announces_revertToSnapshot hcalm _
  | removeSnapshot =>
    rw [onCollection] at h
    split at h
    · exact hsame _ h
    · obtain ⟨p, hp, hcoll⟩ := coll_of_snapshotReply h
      rw [hcoll]
      exact Collection.announces_removeSnapshot hcalm hp
  | _ => exact hsame _ h

/-! ## The property -/

/-- What a message tells a client about its observers. -/
def data? (client : ClientId) : ClientId × Message → Option (ℤ × List QJsonValue)
  | (c, .observeData id reply) => if c = client then some (id, reply) else none
  | _ => none

/-- The data that a client was sent, and what waits in the queue for anyone. -/
def announced (s : QDocdbServer) (client : ClientId) : List (ℤ × List QJsonValue) :=
  s.sent.filterMap (data? client) ++ s.observeQueryChanged

/-- The observer stands in the collection that the table names, and the last that the client
hears of it is the reply that it has. -/
def Told (s : QDocdbServer) (client : ClientId) (id : ℤ) : Prop :=
  ∃ place c reply, s.observeCollection id = some place ∧ s.collection? place = some c ∧
    c.coll.observers.reply id = some reply ∧ latest (s.announced client) id = some reply

/-- Every client is told of each of its observers. -/
def ToldCurrent (s : QDocdbServer) : Prop :=
  ∀ id client, s.observeClient id = some (some client) → s.Told client id

/-- A collection has an observer with that id, or an open transaction on it has a copy. -/
def Holds (s : QDocdbServer) (place : Place) (id : ℤ) : Prop :=
  s.Active place id ∨ ∃ txId t, s.transactions.lookup txId = some t ∧ t.place = place ∧
    id ∈ t.tx.observers

/-- The id that an observe request prefers was given out before, and no other collection
holds it. -/
def PrefersHeld (s : QDocdbServer) (o : QDocdbLinkObject) : Prop :=
  ∀ query queryOptions preferedId, o.type = .observe query queryOptions preferedId →
    preferedId = -1 ∨
      preferedId < s.nextNumber ∧ ∀ place, s.Holds place preferedId → place = o.place

/-- The ids of observers come from the counter, which does not overflow, or were given out by it
for the same collection before. A request that has to wait prefers no id. -/
def KeepsIds (s : QDocdbServer) : Event → Prop
  | .received client o =>
    s.PrefersHeld o ∧ (s.mustWait client o = true → PrefersNothing o) ∧
      ∀ query queryOptions preferedId, o.type = .observe query queryOptions preferedId →
        s.nextNumber + 1 < 2 ^ 31
  | .unlocked client => s.nextNumber + (s.links client).unlockWait.length < 2 ^ 31
  | _ => True

/-! ## Invariant -/

/-- What holds of the observers, of the copies that transactions have of them, and of the
signals. -/
structure SignalsInvariant (s : QDocdbServer) : Prop where
  counter : 1 ≤ s.nextNumber ∧ s.nextNumber < 2 ^ 31
  bounded : ∀ place id, s.Holds place id → id < s.nextNumber
  apart : ∀ place place' id, s.Holds place id → s.Holds place' id → place = place'
  quiet : ∀ place c, s.collection? place = some c → c.coll.emitted = [] ∧ c.coll.Calm
  told : s.ToldCurrent

theorem Told.holds {id : ℤ} (h : s.Told client id) :
    ∃ place, s.observeCollection id = some place ∧ s.Holds place id := by
  obtain ⟨place, c, reply, hplace, hc, hreply, -⟩ := h
  refine ⟨place, hplace, .inl ⟨c, hc, AList.lookup_isSome.mp ?_⟩⟩
  obtain ⟨o, ho, -⟩ := Option.map_eq_some_iff.mp hreply
  rw [ho]
  rfl

/-- The collections and the tables stay, nothing more is held, and nobody heard anything new. -/
structure SameSignals (s s' : QDocdbServer) : Prop where
  collection : ∀ place, s'.collection? place = s.collection? place
  holds : ∀ place id, s'.Holds place id → s.Holds place id
  observeClient : s'.observeClient = s.observeClient
  observeCollection : s'.observeCollection = s.observeCollection
  nextNumber : s'.nextNumber = s.nextNumber
  heard : ∀ id client, s.observeClient id = some (some client) →
    latest (s'.announced client) id = latest (s.announced client) id

theorem SignalsInvariant.of_same (hI : SignalsInvariant s) (h : SameSignals s s') :
    SignalsInvariant s' where
  counter := by
    rw [h.nextNumber]
    exact hI.counter
  bounded place id hid := by
    rw [h.nextNumber]
    exact hI.bounded place id (h.holds place id hid)
  apart place place' id hid hid' := hI.apart place place' id (h.holds _ _ hid) (h.holds _ _ hid')
  quiet place c hc := hI.quiet place c ((h.collection place).symm.trans hc)
  told id client hid := by
    rw [h.observeClient] at hid
    rw [Told, h.observeCollection, h.heard id client hid]
    simp only [h.collection]
    exact hI.told id client hid

/-! ## Collections -/

theorem announced_setCollection {place : Place} {c : OpenCollection} :
    (s.setCollection place c).announced client = s.announced client ++ c.coll.emitted := by
  rw [announced, announced, List.append_assoc]
  rfl

theorem holds_setCollection {place place' : Place} {c : OpenCollection} {id : ℤ}
    (h : (s.setCollection place c).Holds place' id) :
    place' = place ∧ id ∈ c.coll.observers ∨ s.Holds place' id := by
  rcases h with hactive | htx
  · rw [active_setCollection] at hactive
    split at hactive
    · rename_i hplace
      exact .inl ⟨hplace, hactive⟩
    · exact .inr (.inl hactive)
  · exact .inr (.inr htx)

/-- **A collection** that is put in its place, with the signals that it emitted. -/
theorem SignalsInvariant.setCollection (hI : SignalsInvariant s) {place : Place}
    {c' : OpenCollection} (hcalm : c'.coll.Calm)
    (hheld : ∀ id ∈ c'.coll.observers, s.Holds place id)
    (hannounces : ∀ c, s.collection? place = some c → c.coll.Announces c'.coll)
    (hopened : s.collection? place = none → c'.coll.emitted = []) :
    SignalsInvariant (s.setCollection place c') := by
  have hholds : ∀ place' id, (s.setCollection place c').Holds place' id → s.Holds place' id := by
    intro place' id h
    rcases holds_setCollection h with ⟨rfl, hid⟩ | h
    · exact hheld id hid
    · exact h
  refine ⟨hI.counter, fun p id h => hI.bounded p id (hholds p id h),
    fun p p' id h h' => hI.apart p p' id (hholds p id h) (hholds p' id h'), ?_, ?_⟩
  · intro place' c hc
    rcases collection?_of_setCollection hc with ⟨-, rfl⟩ | ⟨-, c₀, hc₀, rfl⟩
    · exact ⟨rfl, hcalm⟩
    · rw [OpenCollection.emitted_sharingWith, Collection.Calm,
        OpenCollection.observers_sharingWith]
      exact hI.quiet place' c₀ hc₀
  · intro id client hid
    have htold := hI.told id client hid
    obtain ⟨place', hplace', hheld'⟩ := htold.holds
    obtain ⟨place₀, c₀, reply, hplace, hc₀, hreply, hlatest⟩ := htold
    obtain rfl := Option.some.inj (hplace.symm.trans hplace')
    by_cases heq : place₀ = place
    · -- the observer is in this collection, and its reply is the one announced last
      subst heq
      obtain ⟨news, hnews, htells⟩ := (hannounces c₀ hc₀).tells
      rw [(hI.quiet _ c₀ hc₀).1, List.nil_append] at hnews
      have hcurrent := htells.latest_eq hreply hlatest
      rw [htells.current id reply hreply] at hcurrent
      refine ⟨place₀, _, _, hplace, collection?_setCollection_self,
        htells.current id reply hreply, ?_⟩
      rw [announced_setCollection, hnews, hcurrent]
    · -- no other collection has an observer with its id to announce
      refine ⟨place₀, _, reply, hplace, collection?_setCollection_of_ne heq hc₀, ?_, ?_⟩
      · rw [OpenCollection.observers_sharingWith]
        exact hreply
      · have hnone : latest c'.coll.emitted id = none := by
          refine latest_eq_none fun e he hkey => ?_
          cases hc : s.collection? place with
          | none =>
            rw [hopened hc] at he
            cases he
          | some c =>
            obtain ⟨news, hnews, htells⟩ := (hannounces c hc).tells
            rw [(hI.quiet _ c hc).1, List.nil_append] at hnews
            obtain ⟨v, hv⟩ := Option.isSome_iff_exists.mp (htells.known e (hnews ▸ he))
            obtain ⟨o, ho, -⟩ := Option.map_eq_some_iff.mp hv
            have hmem : id ∈ c'.coll.observers := by
              rw [← hkey]
              exact AList.lookup_isSome.mp (by rw [ho]; rfl)
            exact heq (hI.apart _ _ id hheld' (hheld id hmem))
        rw [announced_setCollection, latest_append, hnone]
        exact hlatest

theorem SignalsInvariant.openCollectionOf (hI : SignalsInvariant s) :
    SignalsInvariant (s.openCollectionOf E o) := by
  rcases openCollectionOf_cases E s o with heq | ⟨hnone, B, path, db, -, heq⟩
  · rw [heq]
    exact hI
  · obtain ⟨hobservers, hemitted⟩ := observers_open (E.env.on B) db
    have hempty : ∀ id, id ∉ (Collection.open (E.env.on B) db).observers := by
      rw [hobservers]
      exact fun id => AList.notMem_empty id
    rw [heq]
    refine hI.setCollection (fun id o ho => ?_) (fun id hid => absurd hid (hempty id))
      (fun c hc => ?_) fun _ => hemitted
    · exact absurd (AList.lookup_isSome.mp (by rw [ho]; rfl)) (hempty id)
    · rw [hnone] at hc
      cases hc

/-- A collection that announced what happened to it, without new observers. -/
theorem SignalsInvariant.setCollection_of_announces (hI : SignalsInvariant s) {place : Place}
    {c c' : OpenCollection} (hc : s.collection? place = some c)
    (hannounces : c.coll.Calm → c.coll.Announces c'.coll)
    (hheld : ∀ id ∈ c'.coll.observers, s.Holds place id) :
    SignalsInvariant (s.setCollection place c') := by
  have h := hannounces (hI.quiet place c hc).2
  refine hI.setCollection h.calm hheld (fun c₁ hc₁ => ?_) fun hnone => ?_
  · rwa [Option.some.inj (hc₁.symm.trans hc)]
  · rw [hc] at hnone
    cases hnone

/-! ## Requests -/

/-- Nothing but the transactions changes, and no new observers are copied. -/
theorem sameSignals_transactions {transactions : AList fun _ : ℤ => OpenTransaction}
    (h : ∀ txId t, transactions.lookup txId = some t → ∀ id ∈ t.tx.observers, s.Holds t.place id) :
    SameSignals s { s with transactions := transactions } where
  collection _ := rfl
  holds place id hid := by
    rcases hid with hactive | ⟨txId, t, ht, rfl, hid⟩
    · exact .inl hactive
    · exact h txId t ht id hid
  observeClient := rfl
  observeCollection := rfl
  nextNumber := rfl
  heard _ _ _ := rfl

theorem sameSignals_erase (txId : ℤ) :
    SameSignals s { s with transactions := s.transactions.erase txId } := by
  refine sameSignals_transactions fun txId' t ht id hid => .inr ⟨txId', t, ?_, rfl, hid⟩
  by_cases heq : txId' = txId
  · rw [heq, AList.lookup_erase] at ht
    cases ht
  · rwa [AList.lookup_erase_ne heq] at ht

/-- A transaction whose observers are held. -/
theorem sameSignals_insert {txId : ℤ} {t : OpenTransaction}
    (h : ∀ id ∈ t.tx.observers, s.Holds t.place id) :
    SameSignals s { s with transactions := s.transactions.insert txId t } := by
  refine sameSignals_transactions fun txId' t' ht' id hid => ?_
  by_cases heq : txId' = txId
  · rw [heq, AList.lookup_insert] at ht'
    rw [← Option.some.inj ht'] at hid ⊢
    exact h id hid
  · rw [AList.lookup_insert_ne heq] at ht'
    exact .inr ⟨txId', t', ht', rfl, hid⟩

theorem sameSignals_openDatabaseOf : SameSignals s (s.openDatabaseOf E o) := by
  obtain ⟨databases, heq, hsame⟩ := openDatabaseOf_eq E s o
  have hactive : ∀ place id, (s.openDatabaseOf E o).Active place id → s.Active place id := by
    intro place id h
    rwa [Active, hsame place] at h
  refine ⟨hsame, fun place id h => ?_, ?_, ?_, ?_, fun id client _ => ?_⟩
  · rcases h with h | h
    · exact .inl (hactive place id h)
    · rw [heq] at h
      exact .inr h
  all_goals rw [heq]
  rfl

/-- An answer tells nothing about observers. -/
theorem sameSignals_send {reply : Reply} : SameSignals s (s.send client (.reply o reply)) where
  collection _ := rfl
  holds _ _ h := h
  observeClient := rfl
  observeCollection := rfl
  nextNumber := rfl
  heard id c _ := by
    have hdata : [(client, Message.reply o reply)].filterMap (data? c) = [] := rfl
    rw [announced, announced, send, List.filterMap_append, hdata, List.append_nil]

theorem SignalsInvariant.writeTransaction (hI : SignalsInvariant s) (txId : ℤ) :
    SignalsInvariant (s.writeTransaction E txId).1 := by
  rw [QDocdbServer.writeTransaction]
  split
  · exact hI
  · rename_i t ht
    dsimp only
    split
    · exact hI.of_same (sameSignals_erase txId)
    · rename_i c hc
      have hcommit : SignalsInvariant (s.setCollection t.place
          { c with coll := (c.coll.writeTransaction (E.env.on c.backend) t.tx).2 }) := by
        refine hI.setCollection_of_announces hc
          (fun hcalm => Collection.announces_writeTransaction hcalm t.tx) fun id hid => ?_
        by_cases hsuccess : (c.coll.writeTransaction (E.env.on c.backend) t.tx).1 = .success
        · rcases (Collection.mem_observers_writeTransaction hsuccess).mp hid with hid | hid
          · exact .inr ⟨txId, t, ht, rfl, hid⟩
          · exact .inl ⟨c, hc, hid⟩
        · dsimp only at hid
          rw [Collection.observers_writeTransaction_of_failed hsuccess] at hid
          exact .inl ⟨c, hc, hid⟩
      exact hcommit.of_same (sameSignals_erase txId)

theorem SignalsInvariant.discardTransaction (hI : SignalsInvariant s) (txId : ℤ) :
    SignalsInvariant (s.discardTransaction txId).1 := by
  rw [QDocdbServer.discardTransaction]
  split
  · exact hI.of_same (sameSignals_erase txId)
  · exact hI

theorem SignalsInvariant.operation (hI : SignalsInvariant s) (txId : ℤ) (op : TxOp) :
    SignalsInvariant (s.operation E txId op).1 := by
  rw [QDocdbServer.operation]
  split
  · exact hI
  · rename_i t ht
    split
    · exact hI
    · rename_i c hc
      refine hI.of_same (sameSignals_insert fun id hid => .inr ⟨txId, t, ht, rfl, ?_⟩)
      exact (Transaction.sameObservers_run op id).mp hid

theorem SignalsInvariant.autoCommit (hI : SignalsInvariant s) {place : Place} {c : OpenCollection}
    (hc : s.collection? place = some c) (op : TxOp) :
    SignalsInvariant (s.autoCommit E place c op).1 := by
  refine hI.setCollection_of_announces hc
    (fun hcalm => Collection.announces_writeTransaction hcalm _) fun id hid => .inl ⟨c, hc, ?_⟩
  exact (Collection.mem_observers_writeTransaction_of_same
    (Transaction.sameObservers_run op)).mp hid

theorem SignalsInvariant.newTransaction (hI : SignalsInvariant s) {place : Place}
    {c : OpenCollection} (hc : s.collection? place = some c) :
    SignalsInvariant (s.newTransaction place c).1 := by
  have hinsert := @sameSignals_insert s s.getNextTransactionId.1 ⟨place, c.coll.newTransaction⟩
    fun id hid => .inl ⟨c, hc, hid⟩
  exact hI.of_same { hinsert with }

theorem SignalsInvariant.exclusiveLock (hI : SignalsInvariant s) (dbName : QString) :
    SignalsInvariant (s.exclusiveLock client dbName).1 := by
  rw [QDocdbServer.exclusiveLock]
  split
  · exact hI.of_same ⟨fun _ => rfl, fun _ _ h => h, rfl, rfl, rfl, fun _ _ _ => rfl⟩
  · exact hI

theorem SignalsInvariant.unlock (hI : SignalsInvariant s) (dbName : QString) :
    SignalsInvariant (s.unlock client dbName).1 := by
  rw [QDocdbServer.unlock]
  split
  · exact hI
  · split
    · exact hI.of_same ⟨fun _ => rfl, fun _ _ h => h, rfl, rfl, rfl, fun _ _ _ => rfl⟩
    · exact hI

/-- Some observers are gone from their collections and from the tables. -/
structure FewerHeld (s s' : QDocdbServer) : Prop where
  collection : ∀ place c', s'.collection? place = some c' → ∃ c, s.collection? place = some c ∧
    c'.coll.emitted = c.coll.emitted ∧
      ∀ id o, c'.coll.observers.lookup id = some o → c.coll.observers.lookup id = some o
  registered : ∀ id client, s'.observeClient id = some (some client) →
    s.observeClient id = some (some client) ∧ s'.observeCollection id = s.observeCollection id ∧
      ∀ place c, s.observeCollection id = some place → s.collection? place = some c →
        ∃ c', s'.collection? place = some c' ∧
          c'.coll.observers.lookup id = c.coll.observers.lookup id
  transactions : s'.transactions = s.transactions
  nextNumber : s'.nextNumber = s.nextNumber
  announced : ∀ client, s'.announced client = s.announced client

theorem SignalsInvariant.of_fewer (hI : SignalsInvariant s) (h : FewerHeld s s') :
    SignalsInvariant s' := by
  have hholds : ∀ place id, s'.Holds place id → s.Holds place id := by
    intro place id hid
    rcases hid with ⟨c', hc', hmem⟩ | htx
    · obtain ⟨c, hc, -, hsub⟩ := h.collection place c' hc'
      obtain ⟨o, ho⟩ := Option.isSome_iff_exists.mp (AList.lookup_isSome.mpr hmem)
      exact .inl ⟨c, hc, AList.lookup_isSome.mp (by rw [hsub id o ho]; rfl)⟩
    · rw [h.transactions] at htx
      exact .inr htx
  refine ⟨by rw [h.nextNumber]; exact hI.counter, fun p id hid => ?_,
    fun p p' id hid hid' => hI.apart p p' id (hholds p id hid) (hholds p' id hid'),
    fun place c' hc' => ?_, fun id client hid => ?_⟩
  · rw [h.nextNumber]
    exact hI.bounded p id (hholds p id hid)
  · obtain ⟨c, hc, hemitted, hsub⟩ := h.collection place c' hc'
    obtain ⟨hquiet, hcalm⟩ := hI.quiet place c hc
    exact ⟨hemitted.trans hquiet, fun id o ho => hcalm id o (hsub id o ho)⟩
  · obtain ⟨hclient, hplace, hsame⟩ := h.registered id client hid
    obtain ⟨place, c, reply, hc, hcoll, hreply, hlatest⟩ := hI.told id client hclient
    obtain ⟨c', hc', hlookup⟩ := hsame place c hc hcoll
    refine ⟨place, c', reply, hplace.trans hc, hc', ?_, by rw [h.announced]; exact hlatest⟩
    rw [Observers.reply, hlookup]
    exact hreply

theorem fewerHeld_unobserve (hI : SignalsInvariant s) (observeId : ℤ) :
    FewerHeld s (s.unobserve client observeId).1 := by
  have hrefl : FewerHeld s s :=
    ⟨fun place c hc => ⟨c, hc, rfl, fun _ _ h => h⟩,
      fun id client hid => ⟨hid, rfl, fun place c _ hc => ⟨c, hc, rfl⟩⟩, rfl, rfl, fun _ => rfl⟩
  rw [QDocdbServer.unobserve]
  split
  · exact hrefl
  · rename_i place hplace
    split
    · -- an entry without a client is nobody's observer
      refine ⟨hrefl.collection, fun id client hid => hrefl.registered id client ?_, rfl, rfl,
        fun _ => rfl⟩
      exact observeClient_of_update (by simp) hid
    · split
      · rename_i hclient howner
        subst howner
        obtain ⟨place', c, reply, hplace', hc, -⟩ := hI.told observeId client hclient
        obtain rfl := Option.some.inj (hplace.symm.trans hplace')
        have hat : s.unobserveAt place observeId =
            s.setCollection place { c with coll := c.coll.unobserve observeId } := by
          rw [unobserveAt, hc]
        have hemitted := (hI.quiet place c hc).1
        have hne : ∀ id c', Function.update s.observeClient observeId none id = some (some c') →
            id ≠ observeId := by
          rintro id c' hid rfl
          rw [Function.update_self] at hid
          cases hid
        rw [hat]
        refine ⟨fun place₁ c₁ hc₁ => ?_, fun id client' hid => ?_, rfl, rfl, fun client' => ?_⟩
        · replace hc₁ : (s.setCollection place _).collection? place₁ = some c₁ := hc₁
          rcases collection?_of_setCollection hc₁ with ⟨rfl, rfl⟩ | ⟨-, c₀, hc₀, rfl⟩
          · refine ⟨c, hc, hemitted.symm, fun id o ho => ?_⟩
            by_cases hid : id = observeId
            · subst hid
              rw [Collection.unobserve, AList.lookup_erase] at ho
              cases ho
            · rwa [Collection.unobserve, AList.lookup_erase_ne hid] at ho
          · refine ⟨c₀, hc₀, ?_, fun _ _ h => ?_⟩
            · rw [OpenCollection.emitted_sharingWith]
            · rwa [OpenCollection.observers_sharingWith] at h
        · have hid' := hne id client' hid
          refine ⟨observeClient_of_update (by simp) hid, Function.update_of_ne hid' .., ?_⟩
          intro place₁ c₁ _ hc₁
          by_cases heq : place₁ = place
          · subst heq
            obtain rfl := Option.some.inj (hc₁.symm.trans hc)
            refine ⟨_, collection?_setCollection_self, ?_⟩
            exact AList.lookup_erase_ne hid'
          · refine ⟨_, collection?_setCollection_of_ne heq hc₁, ?_⟩
            rw [OpenCollection.observers_sharingWith]
        · have h := @announced_setCollection s client' place
            { c with coll := c.coll.unobserve observeId }
          rw [show (c.coll.unobserve observeId).emitted = [] from hemitted, List.append_nil] at h
          exact h
      · exact hrefl

/-- Erasing some of the keys of a table one by one. -/
theorem lookup_foldl_erase {p : ℤ → Prop} [DecidablePred p] {id : ℤ} (keys : List ℤ)
    (obs : Observers) :
    (keys.foldl (fun obs id => if p id then obs.erase id else obs) obs).lookup id =
      if id ∈ keys ∧ p id then none else obs.lookup id := by
  induction keys generalizing obs with
  | nil => simp
  | cons key keys ih =>
    rw [List.foldl_cons, ih]
    by_cases hid : id = key
    · subst hid
      by_cases hp : p id
      · simp [hp]
      · simp [hp]
    · by_cases hp : p key
      · simp [hid, hp, AList.lookup_erase_ne hid]
      · simp [hid, hp]

theorem fewerHeld_clientRemoved : FewerHeld s (s.clientRemoved client) := by
  refine ⟨fun place c' hc' => ?_, fun id client' hid => ?_, rfl, rfl, fun _ => rfl⟩
  · rw [collection?_clientRemoved] at hc'
    obtain ⟨c, hc, rfl⟩ := Option.map_eq_some_iff.mp hc'
    refine ⟨c, hc, rfl, fun id o ho => ?_⟩
    rw [unobserveClient, lookup_foldl_erase] at ho
    split at ho
    · cases ho
    · exact ho
  · -- the observers of other clients stay
    rw [clientRemoved] at hid
    dsimp only at hid
    split at hid
    · cases hid
    · rename_i hother
      refine ⟨hid, rfl, fun place c hplace hc => ?_⟩
      refine ⟨_, (collection?_clientRemoved client place).trans (by rw [hc]; rfl), ?_⟩
      rw [unobserveClient, lookup_foldl_erase, if_neg fun h => hother h.2.1]

/-- The id that an observe request gets: the counter is past it, and no other collection
holds it. -/
theorem exists_observeIds (hI : SignalsInvariant s) (c : OpenCollection) {preferedId : ℤ}
    (hnext : s.nextNumber + 1 < 2 ^ 31)
    (hprefers : preferedId = -1 ∨
      preferedId < s.nextNumber ∧ ∀ place, s.Holds place preferedId → place = o.place) :
    ∃ id next, observeIds c.coll preferedId s.nextNumber = (id, next) ∧ id < next ∧
      s.nextNumber ≤ next ∧ next ≤ s.nextNumber + 1 ∧
        ∀ place, s.Holds place id → place = o.place := by
  have hpos := hI.counter.1
  rw [observeIds]
  split
  · rw [int32_of_lt (by omega) hnext]
    refine ⟨_, _, rfl, by omega, by omega, le_refl _, fun place h => ?_⟩
    have := hI.bounded place _ h
    omega
  · rename_i hnew
    obtain ⟨hlt, hplaces⟩ := hprefers.resolve_left fun h => hnew (.inl h)
    exact ⟨_, _, rfl, hlt, le_refl _, by omega, hplaces⟩

theorem SignalsInvariant.observe (hI : SignalsInvariant s) {c : OpenCollection}
    (hc : s.collection? o.place = some c) (query queryOptions : QJsonObject) {preferedId : ℤ}
    (hnext : s.nextNumber + 1 < 2 ^ 31)
    (hprefers : preferedId = -1 ∨
      preferedId < s.nextNumber ∧ ∀ place, s.Holds place preferedId → place = o.place) :
    SignalsInvariant (s.observe E client o.place c query queryOptions preferedId).1 ∧
      (s.observe E client o.place c query queryOptions preferedId).1.nextNumber ≤
        s.nextNumber + 1 := by
  obtain ⟨id, next, hids, hlt, hle, hmax, hplaces⟩ := exists_observeIds hI c hnext hprefers
  obtain ⟨hquiet, hcalm⟩ := hI.quiet _ c hc
  obtain ⟨σ', reply, hobserve, hcalm', hemitted, hreply⟩ :=
    Collection.exists_announces_observe (E := E.env.on c.backend) hcalm query queryOptions hids
  rw [hquiet, List.nil_append] at hemitted
  rw [QDocdbServer.observe, hobserve]
  refine ⟨?_, hmax⟩
  have hannounced : ∀ client', (s.setCollection o.place { c with coll := σ' }).announced client' =
      s.announced client' ++ [(id, reply)] := by
    intro client'
    rw [announced_setCollection, hemitted]
  have hholds : ∀ place id', (s.setCollection o.place { c with coll := σ' }).Holds place id' →
      place = o.place ∧ id' = id ∨ s.Holds place id' := by
    intro place id' h
    rcases holds_setCollection h with ⟨rfl, hmem⟩ | h
    · by_cases hid : id' = id
      · exact .inl ⟨rfl, hid⟩
      · have hsome := hreply id'
        rw [if_neg hid, Observers.reply, Observers.reply] at hsome
        refine .inr (.inl ⟨c, hc, AList.lookup_isSome.mp ?_⟩)
        rw [← Option.isSome_map, ← hsome, Option.isSome_map]
        exact AList.lookup_isSome.mpr hmem
    · exact .inr h
  refine ⟨⟨hI.counter.1.trans hle, hmax.trans_lt hnext⟩, ?_, ?_, ?_, ?_⟩
  · intro place id' h
    rcases hholds place id' h with ⟨-, rfl⟩ | h
    · exact hlt
    · exact (hI.bounded place id' h).trans_le hle
  · intro place place' id' h h'
    rcases hholds place id' h with ⟨rfl, rfl⟩ | h₁
    · rcases hholds place' id' h' with ⟨rfl, -⟩ | h₁'
      · rfl
      · exact (hplaces place' h₁').symm
    · rcases hholds place' id' h' with ⟨rfl, rfl⟩ | h₁'
      · exact hplaces place h₁
      · exact hI.apart place place' id' h₁ h₁'
  · intro place c' hc'
    replace hc' : (s.setCollection o.place _).collection? place = some c' := hc'
    rcases collection?_of_setCollection hc' with ⟨-, rfl⟩ | ⟨-, c₀, hc₀, rfl⟩
    · exact ⟨rfl, hcalm'⟩
    · rw [OpenCollection.emitted_sharingWith, Collection.Calm,
        OpenCollection.observers_sharingWith]
      exact hI.quiet place c₀ hc₀
  · intro id' client' hid'
    by_cases heq : id' = id
    · -- the new observer, with the reply that is on its way
      subst heq
      refine ⟨o.place, _, reply, Function.update_self .., collection?_setCollection_self,
        (hreply id').trans (if_pos rfl), ?_⟩
      refine (congrArg (latest · id') (hannounced client')).trans ?_
      rw [latest_append, latest_singleton, if_pos rfl, Option.some_or]
    · -- the other ones hear nothing
      have hold : Function.update s.observeClient id (some (some client)) id' =
          some (some client') := hid'
      rw [Function.update_of_ne heq] at hold
      obtain ⟨place, c₀, reply₀, hplace, hc₀, hreply₀, hlatest⟩ := hI.told id' client' hold
      have hsilent :
          latest ((s.setCollection o.place { c with coll := σ' }).announced client') id' =
            some reply₀ := by
        rw [hannounced, latest_append, latest_singleton, if_neg fun h => heq h.symm, Option.none_or]
        exact hlatest
      by_cases hp : place = o.place
      · subst hp
        obtain rfl := Option.some.inj (hc.symm.trans hc₀)
        exact ⟨_, _, reply₀, (Function.update_of_ne heq ..).trans hplace,
          collection?_setCollection_self,
          (hreply id').trans ((if_neg heq).trans hreply₀), hsilent⟩
      · refine ⟨place, _, reply₀, (Function.update_of_ne heq ..).trans hplace,
          collection?_setCollection_of_ne hp hc₀, ?_, hsilent⟩
        rw [OpenCollection.observers_sharingWith]
        exact hreply₀

/-! ## Runs -/

/-- What can be said of a request when it is received, while `n` other ones are waiting. -/
def FitsIds (n : ℕ) (s : QDocdbServer) (client : ClientId) (o : QDocdbLinkObject) : Prop :=
  s.PrefersHeld o ∧ (s.mustWait client o = true → PrefersNothing o) ∧
    ∀ query queryOptions preferedId, o.type = .observe query queryOptions preferedId →
      s.nextNumber + n + 1 < 2 ^ 31

/-- The requests that wait prefer no id. -/
def WaitPlainly (s : QDocdbServer) : Prop :=
  ∀ client, ∀ o ∈ (s.links client).unlockWait, PrefersNothing o

theorem waitPlainly_congr (h : s.WaitPlainly)
    (hlinks : ∀ c, (s'.links c).unlockWait = (s.links c).unlockWait) : s'.WaitPlainly :=
  fun c o ho => h c o (hlinks c ▸ ho)

theorem waitPlainly_setLink (h : s.WaitPlainly) {link : QDocdbLinkBase}
    (hlink : ∀ o ∈ link.unlockWait, PrefersNothing o) : (s.setLink client link).WaitPlainly := by
  intro c o ho
  rcases mem_unlockWait_setLink ho with ⟨-, ho⟩ | ⟨-, ho⟩
  · exact hlink o ho
  · exact h c o ho

theorem waitPlainly_newConnection (h : s.WaitPlainly) : (s.newConnection client).WaitPlainly :=
  waitPlainly_setLink h fun _ ho => nomatch ho

theorem waitPlainly_clientRemoved (h : s.WaitPlainly) : (s.clientRemoved client).WaitPlainly :=
  waitPlainly_setLink h fun _ ho => nomatch ho

theorem waitPlainly_dequeue (h : s.WaitPlainly) : (s.dequeue client).WaitPlainly :=
  waitPlainly_setLink h fun o ho => h client o (List.mem_of_mem_tail ho)

theorem waitPlainly_appendUnlockWait (h : s.WaitPlainly) (ho : PrefersNothing o) :
    (s.appendUnlockWait client o).WaitPlainly := by
  refine waitPlainly_setLink h fun o' ho' => ?_
  rcases List.mem_append.mp ho' with ho' | ho'
  · exact h client o' ho'
  · rwa [List.mem_singleton.mp ho']

/-- Only an observe request takes an id from the counter. -/
theorem Served.nextNumber {p : QDocdbServer × Reply} (h : Served E s client o p) :
    p.1.nextNumber = s.nextNumber ∨
      (∃ query queryOptions preferedId, o.type = .observe query queryOptions preferedId) ∧
        p.1.nextNumber = int32 (s.nextNumber + 1) := by
  cases h with
  | writeTransaction ht =>
    refine .inl ?_
    rw [QDocdbServer.writeTransaction]
    split
    · rfl
    · dsimp only
      split <;> rfl
  | discardTransaction ht => exact .inl (sameTables_discardTransaction _).nextNumber
  | unobserve ht =>
    refine .inl ?_
    rw [QDocdbServer.unobserve]
    split
    · rfl
    · split
      · rfl
      · split
        · rw [unobserveAt]
          split <;> rfl
        · rfl
  | cannotOpenDatabase hurl => exact .inl rfl
  | exclusiveLock ht => exact .inl (sameTables_exclusiveLock _).nextNumber
  | unlock ht => exact .inl (sameTables_unlock _).nextNumber
  | emptyCollectionName hurl => exact .inl rfl
  | cannotOpenCollection hurl => exact .inl nextNumber_openCollectionOf
  | autoCommit ht hc => exact .inl nextNumber_openCollectionOf
  | operation ht hne =>
    exact .inl ((sameTables_operation _ _).nextNumber.trans nextNumber_openCollectionOf)
  | newTransaction ht hc => exact .inl nextNumber_openCollectionOf
  | observe ht hc =>
    rw [QDocdbServer.observe, Collection.observe, nextNumber_openCollectionOf]
    dsimp only
    split
    · exact .inr ⟨⟨_, _, _, ht⟩, rfl⟩
    · exact .inl rfl
  | onCollection hurl hdoc hnew _ hc hr => exact .inl nextNumber_openCollectionOf

/-- **Step** of a request. -/
theorem SignalsInvariant.served (hI : SignalsInvariant s) {n : ℕ} (hfit : FitsIds n s client o)
    {p : QDocdbServer × Reply} (h : Served E s client o p) : SignalsInvariant p.1 := by
  have hopen := @SignalsInvariant.openCollectionOf E s o hI
  cases h with
  | writeTransaction ht => exact hI.writeTransaction _
  | discardTransaction ht => exact hI.discardTransaction _
  | unobserve ht => exact hI.of_fewer (fewerHeld_unobserve hI _)
  | cannotOpenDatabase hurl => exact hI
  | exclusiveLock ht => exact hI.exclusiveLock _
  | unlock ht => exact hI.unlock _
  | emptyCollectionName hurl => exact hI
  | cannotOpenCollection hurl => exact hopen
  | autoCommit ht hc => exact hopen.autoCommit hc _
  | operation ht hne => exact hopen.operation _ _
  | newTransaction ht hc => exact hopen.newTransaction hc
  | observe ht hc =>
    have hnumber := hfit.2.2 _ _ _ ht
    refine (hopen.observe hc _ _ (by rw [nextNumber_openCollectionOf]; omega) ?_).1
    rw [nextNumber_openCollectionOf]
    refine (hfit.1 _ _ _ ht).imp_right fun hheld => ⟨hheld.1, fun place hid => hheld.2 place ?_⟩
    rwa [Holds, active_openCollectionOf, transactions_openCollectionOf] at hid
  | onCollection hurl hdoc hnew hobserve hc hr =>
    exact hopen.setCollection_of_announces hc (fun hcalm => announces_onCollection hcalm hr)
      fun id hid => .inl ⟨_, hc, (mem_observers_onCollection hr).mp hid⟩

theorem signalsInvariant_init : SignalsInvariant init where
  counter := by decide
  bounded place id h := by
    rcases h with ⟨c, hc, -⟩ | ⟨txId, t, ht, -⟩
    · cases hc
    · cases ht
  apart place place' id h := by
    rcases h with ⟨c, hc, -⟩ | ⟨txId, t, ht, -⟩
    · cases hc
    · cases ht
  quiet place c hc := by cases hc
  told id client h := by cases h

/-- **A signal** that reaches the server is sent to the client of its observer. -/
theorem sameSignals_observeChanged {id : ℤ} {reply : List QJsonValue}
    {pending : List (ℤ × List QJsonValue)} (hq : s.observeQueryChanged = (id, reply) :: pending) :
    SameSignals s ({ s with observeQueryChanged := pending }.observeChanged id reply) := by
  have hskip : ∀ id' client', id' ≠ id →
      latest (s.sent.filterMap (data? client') ++ pending) id' =
        latest (s.announced client') id' := by
    intro id' client' hne
    rw [announced, hq, List.append_cons, latest_append, latest_append, latest_append,
      latest_singleton, if_neg (Ne.symm hne), Option.none_or]
  rw [QDocdbServer.observeChanged]
  split
  · rename_i client hclient
    refine ⟨fun _ => rfl, fun _ _ h => h, rfl, rfl, rfl, fun id' client' hid' => ?_⟩
    rw [announced, send, List.filterMap_append]
    by_cases heq : client = client'
    · -- the signal of its own observer is now a message
      rw [announced, hq]
      simp [data?, heq]
    · have hdata : [(client, Message.observeData id reply)].filterMap (data? client') = [] := by
        simp [data?, heq]
      rw [hdata, List.append_nil]
      refine hskip id' client' ?_
      rintro rfl
      rw [hclient] at hid'
      exact heq (Option.some.inj (Option.some.inj hid'))
  · rename_i hnobody
    refine ⟨fun _ => rfl, fun _ _ h => h, rfl, rfl, rfl, fun id' client' hid' => ?_⟩
    refine hskip id' client' ?_
    rintro rfl
    exact hnobody client' hid'

theorem serverInvariant_signals :
    ServerInvariant E KeepsIds (fun s => SignalsInvariant s ∧ WaitPlainly s)
      (fun _ n s => SignalsInvariant s ∧ WaitPlainly s ∧ s.nextNumber + n < 2 ^ 31) FitsIds where
  started := ⟨signalsInvariant_init, fun _ _ h => by cases h⟩
  connected hI _ :=
    ⟨hI.1.of_same ⟨fun _ => rfl, fun _ _ h => h, rfl, rfl, rfl, fun _ _ _ => rfl⟩,
      waitPlainly_newConnection hI.2⟩
  disconnected hI _ _ := ⟨hI.1.of_fewer fewerHeld_clientRemoved, waitPlainly_clientRemoved hI.2⟩
  notified hI hq := by
    refine ⟨hI.1.of_same (sameSignals_observeChanged hq), waitPlainly_congr hI.2 fun c => ?_⟩
    rw [QDocdbServer.observeChanged]
    split <;> rfl
  arrived hI hok _ := by
    refine ⟨⟨hI.1, hI.2, by simpa using hI.1.counter.2⟩, hok.1, hok.2.1, fun q qo i ht => ?_⟩
    simpa using hok.2.2 q qo i ht
  taken hI hok _ :=
    ⟨hI.1.of_same ⟨fun _ => rfl, fun _ _ h => h, rfl, rfl, rfl, fun _ _ _ => rfl⟩,
      waitPlainly_setLink hI.2 fun o ho => hI.2 _ o ho, hok⟩
  dequeued {s client n o rest} hJ _ hq := by
    obtain ⟨hI, hwait, hbound⟩ := hJ
    have hhead := hwait client o (hq ▸ List.mem_cons_self)
    have hnumber : (s.dequeue client).nextNumber = s.nextNumber := rfl
    exact ⟨⟨hI.of_same ⟨fun _ => rfl, fun _ _ h => h, rfl, rfl, rfl, fun _ _ _ => rfl⟩,
      waitPlainly_dequeue hwait, by omega⟩, fun q qo i ht => .inl (hhead q qo i ht),
      fun _ => hhead, fun _ _ _ _ => by omega⟩
  done hJ _ := ⟨hJ.1, hJ.2.1⟩
  opened {s client n o} hJ hfit := by
    obtain ⟨hI, hwait, hbound⟩ := hJ
    have hsame := @sameSignals_openDatabaseOf E s o
    obtain ⟨databases, heq, -⟩ := openDatabaseOf_eq E s o
    refine ⟨⟨hI.of_same hsame, ?_, by rwa [hsame.nextNumber]⟩, fun q qo i ht => ?_, ?_, ?_⟩
    · rw [WaitPlainly, heq]
      exact hwait
    · refine (hfit.1 q qo i ht).imp_right fun hheld => ⟨?_, fun place h => ?_⟩
      · rw [hsame.nextNumber]
        exact hheld.1
      · exact hheld.2 place (hsame.holds place i h)
    · rw [heq]
      exact hfit.2.1
    · rw [hsame.nextNumber]
      exact hfit.2.2
  waits hJ hfit _ hw :=
    ⟨hJ.1.of_same ⟨fun _ => rfl, fun _ _ h => h, rfl, rfl, rfl, fun _ _ _ => rfl⟩,
      waitPlainly_appendUnlockWait hJ.2.1 (hfit.2.1 hw), hJ.2.2⟩
  served {s client n o p} hJ hfit _ _ h := by
    obtain ⟨hI, hwait, hbound⟩ := hJ
    refine ⟨(hI.served hfit h).of_same sameSignals_send, waitPlainly_congr hwait h.unlockWait, ?_⟩
    have hnumber : (p.1.send client (.reply o p.2)).nextNumber = p.1.nextNumber := rfl
    rw [hnumber]
    rcases h.nextNumber with heq | ⟨⟨q, qo, i, ht⟩, heq⟩
    · rwa [heq]
    · have hlt := hfit.2.2 q qo i ht
      have hpos := hI.counter.1
      rw [heq, int32_of_lt (by omega) (by omega)]
      omega

/-- **Clients are told**: in every run in which the ids of observers come from the counter, or
were given out for the same collection before, a client that observes has heard its observer's
reply as the last one, or will hear it from what waits in the queue. This is so across commits
that bring observers back, clients that disconnect, and requests that wait for locks. -/
theorem toldCurrent_of_reachable (h : ServerReachable E KeepsIds s) : s.ToldCurrent :=
  (serverInvariant_signals.reachable h).1.told

/-- A client observes a collection, and a document is inserted in a transaction. -/
def insertedC : List Event :=
  [.received 1 (requestD 1 .newTransaction), .received 1 (requestD 2 (insertAIn 0)),
    .received 1 (requestD 3 (.writeTransaction 0)), .observeQueryChanged, .observeQueryChanged]

theorem exists_insertedC {ok : QDocdbServer → Event → Prop} (hconnected : ok .init (.connected 1))
    (hobserves : ok (init.newConnection 1) (.received 1 (observeIn 0 (qs "c") (-1))))
    (hinserts : ∀ s, ∀ e ∈ insertedC, ok s e) :
    ∃ s, handleAll emptyServerEnv .init
        (.connected 1 :: .received 1 (observeIn 0 (qs "c") (-1)) :: insertedC) = some s ∧
      ServerReachable emptyServerEnv ok s := by
  obtain ⟨s₁, hs₁⟩ := Option.isSome_iff_exists.mp (show ((init.newConnection 1).handle
    emptyServerEnv (.received 1 (observeIn 0 (qs "c") (-1)))).isSome = true by decide)
  obtain ⟨s, hs⟩ := Option.isSome_iff_exists.mp (show (handleAll emptyServerEnv .init
    (.connected 1 :: .received 1 (observeIn 0 (qs "c") (-1)) :: insertedC)).isSome = true by
      decide +kernel)
  have hrest : handleAll emptyServerEnv s₁ insertedC = some s := by
    have heq : handleAll emptyServerEnv .init
        (.connected 1 :: .received 1 (observeIn 0 (qs "c") (-1)) :: insertedC) =
        ((init.newConnection 1).handle emptyServerEnv
          (.received 1 (observeIn 0 (qs "c") (-1)))).bind
            fun s => handleAll emptyServerEnv s insertedC := rfl
    rw [← hs, heq, hs₁]
    rfl
  exact ⟨s, hs, reachable_of_handleAll
    (.handled (.handled (e := .connected 1) .started hconnected rfl) hobserves hs₁) hinserts hrest⟩

theorem keepsIds_observeIn :
    KeepsIds (init.newConnection 1) (.received 1 (observeIn 0 (qs "c") (-1))) := by
  refine ⟨?_, fun _ => ?_, fun _ _ _ _ => by decide⟩
  · rintro query queryOptions preferedId ht
    cases ht
    exact .inl rfl
  · rintro query queryOptions preferedId ht
    cases ht
    rfl

theorem keepsIds_insertedC (s : QDocdbServer) : ∀ e ∈ insertedC, KeepsIds s e := by
  simp [insertedC, KeepsIds, PrefersHeld, PrefersNothing, requestD, insertAIn]

theorem toldCurrent_insertedC :
    ∃ s, handleAll emptyServerEnv .init
        (.connected 1 :: .received 1 (observeIn 0 (qs "c") (-1)) :: insertedC) = some s ∧
      s.ToldCurrent := by
  obtain ⟨s, hs, hreachable⟩ := exists_insertedC trivial keepsIds_observeIn keepsIds_insertedC
  exact ⟨s, hs, toldCurrent_of_reachable hreachable⟩

end QDocdbServer

end Qdocdb
