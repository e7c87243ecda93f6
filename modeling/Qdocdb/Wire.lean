import Qdocdb.LinkObjects
import Qdocdb.Network

/-!
# Calls as bytes

A link object goes over a connection as the length and the bytes of its map. The receiver finds
the maps that were sent in the bytes, however they are cut into pieces (`received_of_maps`), and
reads from them what the sender has put in: the server reads the requests of a client as they
were asked (`requests_arrive`), and a client reads the messages of a server in any reachable
state as they were meant, so a method returns the error and the value that were found for its
request (`messages_arrive`).
-/

namespace Qdocdb

/-! ## Maps that can be written -/

/-- The values of a map are valid. -/
def QVariantMap.Valid (m : QVariantMap) : Prop := ∀ f ∈ m.entries, f.2.Valid

theorem QVariantMap.Valid.set {m : QVariantMap} (h : m.Valid) {value : QVariant}
    (hvalue : value.Valid) (key : String) : (QVariantMap.set m key value).Valid := by
  rintro ⟨k, v⟩ hf
  have hfind := SortedMap.find?_eq_some_iff.mpr hf
  rw [QVariantMap.set, SortedMap.find?_insert] at hfind
  split at hfind
  · obtain rfl := Option.some.inj hfind
    exact hvalue
  · exact h (k, v) (SortedMap.find?_eq_some_iff.mp hfind)

theorem valid_newLinkObject {id : ℤ} (hid : IsInt id) (type : LinkObjectKind) :
    (QDocdbLinkObject.newLinkObject id type).Valid := by
  have hempty : QVariantMap.Valid .empty := fun f hf => by cases hf
  exact (hempty.set (.int hid) "id").set (.string _) "func"

/-- A map that a link can carry: it has a field, and its length is an `int` together with the
four bytes in front. -/
structure QVariantMap.Writable (m : QVariantMap) : Prop where
  valid : m.Valid
  nonempty : m.entries ≠ []
  length : (writeMap m).length + 4 < 2 ^ 31

/-! ## Bodies of messages -/

/-- **Maps arrive** as they were sent, however their bytes are cut into pieces. -/
theorem received_of_maps {ms : List QVariantMap} (h : ∀ m ∈ ms, m.Writable)
    {chunks : List QByteArray} (hchunks : chunks.flatten = bodies.sent (ms.map body)) :
    ∃ link, LinkReader.readChunks bodies chunks .new = some link ∧
      link.received.map (fun b => readMap b.val) = ms := by
  have hread : ∀ m ∈ ms, readMap (body m).val = m := fun m hm =>
    readMap_writeMap (h m hm).valid (by have := (h m hm).length; omega)
  have hsendable : ∀ b ∈ ms.map body, Sendable bodies b := by
    refine List.forall_mem_map.mpr fun m hm => ⟨?_, (h m hm).length⟩
    have hempty : bodies.isEmpty (body m) = (readMap (body m).val).entries.isEmpty := rfl
    rw [hempty, hread m hm]
    exact List.isEmpty_eq_false_iff.mpr (h m hm).nonempty
  have hstart : Receiving bodies (ms.map body) (chunks.flatten ++ []) LinkReader.new :=
    .between rfl rfl (by simpa [LinkReader.new] using hchunks)
  obtain ⟨link, done, todo, hchunks, hdone, hreceived, hrec, hstopped⟩ :=
    LinkReader.receiving_readChunks hsendable hstart (.inl rfl)
  obtain ⟨rfl, -⟩ := LinkReader.eq_nil_of_receiving hrec hstopped
  refine ⟨link, hchunks, ?_⟩
  have hall : link.received = ms.map body := by
    rw [hreceived, hdone, List.append_nil]
    rfl
  rw [hall, List.map_map]
  exact (List.map_congr_left hread).trans (List.map_id' ms)

/-! ## Requests -/

/-- The arguments of a method can be written. -/
def ClientMethod.Valid : ClientMethod → Prop
  | find query queryOptions _ => query.Valid ∧ queryOptions.Valid
  | findOne query queryOptions _ => query.Valid ∧ queryOptions.Valid
  | count query queryOptions _ => query.Valid ∧ queryOptions.Valid
  | writeTransaction transactionId => IsInt transactionId
  | discardTransaction transactionId => IsInt transactionId
  | insert doc _ _ transactionId => doc.Valid ∧ IsInt transactionId
  | remove query transactionId => query.Valid ∧ IsInt transactionId
  | removeId _ _ transactionId => IsInt transactionId
  | set query docs transactionId =>
    query.Valid ∧ (∀ doc ∈ docs, doc.Valid) ∧ IsInt transactionId
  | observe query queryOptions preferedId =>
    query.Valid ∧ queryOptions.Valid ∧ IsInt preferedId
  | unobserve observeId => IsInt observeId
  | _ => True

/-- A call of a method. -/
structure ClientCall where
  id : ℤ
  url : QString
  method : ClientMethod

/-- What a client writes for a call. -/
def ClientCall.linkObject (c : ClientCall) : QVariantMap := c.method.linkObject c.id c.url

/-- A call that can be written. -/
structure ClientCall.Writable (c : ClientCall) : Prop where
  id : IsInt c.id
  method : c.method.Valid
  length : (writeMap c.linkObject).length + 4 < 2 ^ 31

theorem ClientCall.Writable.map {c : ClientCall} (h : c.Writable) : c.linkObject.Writable := by
  refine ⟨?_, ?_, h.length⟩
  · obtain ⟨id, url, m⟩ := c
    have hnew := fun type => valid_newLinkObject h.id type
    have hurl := fun type => (hnew type).set (.string url) "url"
    have hm := h.method
    cases m with
    | find query queryOptions snapshot =>
      exact (((hurl _).set (.string _) _).set (.map hm.1) _).set (.map hm.2) _
    | findOne query queryOptions snapshot =>
      exact (((hurl _).set (.string _) _).set (.map hm.1) _).set (.map hm.2) _
    | count query queryOptions snapshot =>
      exact (((hurl _).set (.string _) _).set (.map hm.1) _).set (.map hm.2) _
    | createIndex => exact ((hurl _).set (.string _) _).set (.string _) _
    | newSnapshot => exact (hurl _).set (.string _) _
    | revertToSnapshot => exact (hurl _).set (.string _) _
    | removeSnapshot => exact (hurl _).set (.string _) _
    | getSnapshotList => exact hurl _
    | getModified => exact (hurl _).set (.string _) _
    | newTransaction => exact hurl _
    | writeTransaction => exact (hnew _).set (.int hm) _
    | discardTransaction => exact (hnew _).set (.int hm) _
    | insert =>
      exact ((((hurl _).set (.int hm.2) _).set (.map hm.1) _).set (.bool _) _).set (.bool _) _
    | remove => exact ((hurl _).set (.map hm.1) _).set (.int hm.2) _
    | removeId => exact (((hurl _).set (.byteArray _) _).set (.int hm) _).set (.bool _) _
    | set =>
      exact (((hurl _).set (.map hm.1) _).set (.list hm.2.1) _).set (.int hm.2.2) _
    | exclusiveLock => exact hurl _
    | unlock => exact hurl _
    | observe =>
      exact (((hurl _).set (.map hm.1) _).set (.map hm.2.1) _).set (.int hm.2.2) _
    | unobserve => exact (hnew _).set (.int hm) _
  · -- the id is a field
    intro hnil
    have hid : c.linkObject.get "id" = .int c.id := by
      obtain ⟨id, url, m⟩ := c
      cases m <;>
        simp +decide [linkObject, ClientMethod.linkObject, ClientMethod.queryObject,
          ClientMethod.snapshotObject, ClientMethod.urlObject, QDocdbLinkObject.newLinkObject,
          QVariantMap.get_set]
    rw [QVariantMap.get, SortedMap.find?, hnil] at hid
    cases hid

/-- **Requests arrive**: whatever calls a client makes, and however the bytes of its link objects
are cut into pieces, the server receives these calls, in their order, and reads from each of them
what was asked. -/
theorem requests_arrive (C : Conversions) (parseUrl : QString → Url)
    (gens : ℕ → ℕ → Transaction.IdGen) {calls : List ClientCall} (h : ∀ c ∈ calls, c.Writable)
    {chunks : List QByteArray}
    (hchunks : chunks.flatten = bodies.sent (calls.map fun c => body c.linkObject)) :
    ∃ link, LinkReader.readChunks bodies chunks .new = some link ∧
      (link.received.mapIdx fun i b =>
          QDocdbServer.readRequest C (gens i) (readMap b.val) parseUrl i) =
        calls.mapIdx fun i c =>
          ⟨c.id, i, parseUrl (if c.method.sendsUrl then c.url else []), c.method.snapshot,
            c.method.type C (gens i)⟩ := by
  have hmaps : ∀ m ∈ calls.map ClientCall.linkObject, m.Writable :=
    List.forall_mem_map.mpr fun c hc => (h c hc).map
  obtain ⟨link, hread, hreceived⟩ := received_of_maps hmaps (by rwa [List.map_map])
  refine ⟨link, hread, List.ext_getElem? fun i => ?_⟩
  have hi : link.received[i]?.map (fun b => readMap b.val) =
      calls[i]?.map ClientCall.linkObject := by
    rw [← List.getElem?_map, ← List.getElem?_map, hreceived]
  rw [List.getElem?_mapIdx, List.getElem?_mapIdx]
  cases hc : calls[i]? with
  | none =>
    rw [hc] at hi
    rw [Option.map_eq_none_iff.mp hi]
    rfl
  | some c =>
    rw [hc] at hi
    obtain ⟨b, hb, hmap⟩ := Option.map_eq_some_iff.mp hi
    rw [hb, Option.map_some, Option.map_some, hmap]
    exact congrArg some (QDocdbServer.readRequest_linkObject C (gens i) parseUrl i c.id c.url _)

/-- Text for variants of other kinds; the numbers are not used. -/
def plainConversions : Conversions where
  toInt := fun _ => 0
  toBool := fun _ => false
  toQString := fun v =>
    match v with
    | .byteArray b => fromLatin1 b
    | _ => []
  toByteArray := fun _ => []
  toStringList := fun _ => []
  toList := fun _ => []

/-- Two calls: a query, and the end of a transaction. -/
def callsC : List ClientCall :=
  [⟨1, qs "/D", .find (.insert .empty (qs "n") (.int 1)) .empty []⟩, ⟨2, [], .writeTransaction 0⟩]

/-- The bytes of both, the first piece ends in the middle of a length. -/
def chunksC : List QByteArray :=
  let sent := bodies.sent (callsC.map fun c => body c.linkObject)
  [sent.take 2, sent.drop 2]

theorem requests_arrive_callsC :
    ∃ link, LinkReader.readChunks bodies chunksC .new = some link ∧
      (link.received.mapIdx fun i b =>
          QDocdbServer.readRequest plainConversions (fun _ => ⟨[], []⟩) (readMap b.val)
            (fun text => ⟨text, none⟩) i) =
        callsC.mapIdx fun i c =>
          ⟨c.id, i, ⟨if c.method.sendsUrl then c.url else [], none⟩, c.method.snapshot,
            c.method.type plainConversions fun _ => ⟨[], []⟩⟩ := by
  refine requests_arrive plainConversions (fun text => ⟨text, none⟩) (fun _ _ => ⟨[], []⟩)
    (fun c hc => ?_) ?_
  · have hempty : QVariantMap.Valid .empty := fun f hf => by cases hf
    have hquery : QVariantMap.Valid (.insert .empty (qs "n") (.int 1)) :=
      hempty.set (.int (by decide)) "n"
    rcases List.mem_cons.mp hc with rfl | hc
    · exact ⟨by decide, ⟨hquery, hempty⟩, by decide +kernel⟩
    · obtain rfl := List.mem_singleton.mp hc
      exact ⟨by decide, show IsInt 0 by decide, by decide⟩
  · rw [chunksC, List.flatten_cons, List.flatten_cons, List.flatten_nil, List.append_nil,
      List.take_append_drop]

/-! ## Messages of the server -/

/-- A value that can be written: its JSON is valid, and its number is an `int`. -/
def ReplyValue.Valid : ReplyValue → Prop
  | findReply reply => ∀ v ∈ reply, v.Valid
  | findOneReply reply => (QJsonValue.object reply).Valid
  | countReply n => n < 2 ^ 31
  | newTransactionReply transactionId => IsInt transactionId
  | observeReply observeId => IsInt observeId
  | _ => True

/-- The numbers and values of a message can be written. -/
def Message.Valid : Message → Prop
  | reply linkObject r => IsInt linkObject.id ∧ r.value.Valid
  | observeData observeId l => IsInt observeId ∧ ∀ v ∈ l, v.Valid

theorem valid_field {value : ReplyValue} (h : value.Valid) {f : String × QVariant}
    (hf : value.field? = some f) : f.2.Valid := by
  cases value with
  | unknown => cases hf
  | findReply reply =>
    obtain rfl := Option.some.inj hf
    exact valid_toVariant (.array h)
  | findOneReply reply =>
    obtain rfl := Option.some.inj hf
    exact valid_toVariant h
  | countReply n =>
    obtain rfl := Option.some.inj hf
    have hn : n < 2 ^ 31 := h
    exact .int (by omega)
  | getModifiedReply documentIds =>
    obtain rfl := Option.some.inj hf
    exact .list (List.forall_mem_map.mpr fun id _ => .byteArray id)
  | newTransactionReply transactionId =>
    obtain rfl := Option.some.inj hf
    exact .int h
  | insertReply documentId =>
    obtain rfl := Option.some.inj hf
    exact .byteArray documentId
  | getSnapshotListReply snapshotList =>
    obtain rfl := Option.some.inj hf
    exact .stringList snapshotList
  | observeReply observeId =>
    obtain rfl := Option.some.inj hf
    exact .int h

theorem valid_linkObject {m : Message} (h : m.Valid) : m.linkObject.Valid := by
  cases m with
  | reply o r =>
    have hnew := valid_newLinkObject h.1 r.value.kind
    rw [Message.linkObject, Reply.linkObject]
    refine QVariantMap.Valid.set ?_ (.string _) _
    split
    · rename_i key value hf
      exact hnew.set (valid_field h.2 hf) key
    · exact hnew
  | observeData observeId l =>
    have hnone : IsInt (-1) := by decide
    have hnew := valid_newLinkObject hnone .typeObserveData
    exact (hnew.set (valid_toVariant (.array h.2)) _).set (.int h.1) _

/-- A message that can be written. -/
structure Message.Writable (m : Message) : Prop where
  valid : m.Valid
  length : (writeMap m.linkObject).length + 4 < 2 ^ 31

theorem Message.Writable.map {m : Message} (h : m.Writable) : m.linkObject.Writable := by
  refine ⟨valid_linkObject h.valid, fun hnil => ?_, h.length⟩
  -- the name of the type is a field
  have hfunc : ∃ name, m.linkObject.get "func" = .string name := by
    cases m with
    | reply o r =>
      obtain ⟨error, value⟩ := r
      cases value <;>
        simp +decide [linkObject, Reply.linkObject, ReplyValue.field?,
          QDocdbLinkObject.newLinkObject, QVariantMap.get_set]
    | observeData observeId l =>
      simp +decide [linkObject, QDocdbLinkObject.newLinkObject, QVariantMap.get_set]
  obtain ⟨name, hname⟩ := hfunc
  rw [QVariantMap.get, SortedMap.find?, hnil] at hname
  cases hname

/-- What a client has to read from a message: the id and the data of an observer, or the id of the
request, with the error and the value that were found for it. -/
inductive Understood (C : Conversions) : Message → ClientMessage → Prop
  | observeData (observeId : ℤ) (l : List QJsonValue) :
    Understood C (.observeData observeId l) (.observeData observeId l)
  | reply {o : QDocdbLinkObject} {r : Reply} {fMap : QVariantMap}
    (error : (fMap.get "error").toQString C = r.error)
    (result : ∀ (m : ClientMethod) gens, o.type = m.type C gens →
      m.result C fMap = m.resultOf r.value) :
    Understood C (.reply o r) (.reply o.id fMap)

theorem understood_read (C : Conversions) {m : Message} (h : m.Valid)
    (hfits : ∀ o r, m = .reply o r → r.value.Fits o.type) :
    Understood C m (.read C m.linkObject) := by
  cases m with
  | reply o r =>
    have hkind : r.value.kind ≠ .typeObserveData := by
      cases r.value <;> nofun
    rw [ClientMessage.read, Message.linkObject, type_linkObject, if_neg hkind, id_linkObject]
    refine .reply (error_linkObject C o.id r) fun m gens hm => result_linkObject C o.id r ?_
    rw [← replyKind_type C gens m, ← hm]
    exact hfits o r rfl
  | observeData observeId l =>
    have hl : QVariant.toJsonArray C (QJsonValue.toVariantList l) = l :=
      toJsonArray_toVariantList h.2
    have hread : ClientMessage.read C (Message.linkObject (.observeData observeId l)) =
        .observeData observeId l := by
      simp +decide [ClientMessage.read, Message.linkObject, QDocdbLinkObject.newLinkObject,
        QVariantMap.type, QVariantMap.get_set, QVariant.toQString, QVariant.toInt, QVariant.toList,
        hl]
    rw [hread]
    exact .observeData observeId l

namespace QDocdbServer

variable {E : ServerEnv} {s : QDocdbServer} {client : ClientId} {o : QDocdbLinkObject}

theorem fits_readReply {c : OpenCollection} {result : ResultEnum} {value : ReplyValue}
    {type : LinkObjectType} (h : value.kind = type.replyKind) :
    (readReply c result value).value.Fits type := by
  rw [readReply]
  split
  · exact .inr h
  · exact .inl rfl

theorem fits_operationReply {E : Env} {db : Store} {tx : Transaction} {type : LinkObjectType}
    {txId : ℤ} {op : TxOp} (h : type.document? = some (txId, op)) :
    (operationReply E db tx op).Fits type := by
  cases type with
  | insert txId document gen overwrite ignoreReadOnlyValue =>
    obtain ⟨-, rfl⟩ := Prod.mk.inj (Option.some.inj h)
    rw [operationReply]
    dsimp only
    split
    · exact .inr rfl
    · exact .inl rfl
  | remove | removeId | set =>
    obtain ⟨-, rfl⟩ := Prod.mk.inj (Option.some.inj h)
    exact .inl rfl
  | _ => cases h

theorem fits_snapshotReply {c : OpenCollection} {result : Option (ResultEnum × Collection)}
    {p : OpenCollection × Reply} {type : LinkObjectType} (h : snapshotReply c result = some p) :
    p.2.value.Fits type := by
  obtain ⟨q, -, rfl⟩ := Option.map_eq_some_iff.mp h
  exact .inl rfl

theorem fits_of_onCollection {c : OpenCollection} {snapshotName : QString}
    {type : LinkObjectType} {p : OpenCollection × Reply}
    (h : onCollection E c snapshotName type = some p) : p.2.value.Fits type := by
  cases type with
  | find =>
    obtain rfl := Option.some.inj h
    exact fits_readReply rfl
  | findOne =>
    obtain rfl := Option.some.inj h
    exact fits_readReply rfl
  | count =>
    obtain rfl := Option.some.inj h
    exact fits_readReply rfl
  | getModified =>
    obtain rfl := Option.some.inj h
    exact .inr rfl
  | createIndex =>
    rw [onCollection] at h
    dsimp only at h
    split at h <;> obtain rfl := Option.some.inj h <;> exact .inl rfl
  | getSnapshotList =>
    rw [onCollection] at h
    split at h
    · obtain rfl := Option.some.inj h
      exact .inr rfl
    · obtain rfl := Option.some.inj h
      exact .inl rfl
  | newSnapshot | revertToSnapshot | removeSnapshot =>
    rw [onCollection] at h
    split at h
    · obtain rfl := Option.some.inj h
      exact .inl rfl
    · exact fits_snapshotReply h
  | _ =>
    obtain rfl := Option.some.inj h
    exact .inl rfl

/-- **A reply carries what its request asks for**, or nothing. -/
theorem Served.fits {p : QDocdbServer × Reply} (h : Served E s client o p) :
    p.2.value.Fits o.type := by
  cases h with
  | @writeTransaction txId ht =>
    rw [QDocdbServer.writeTransaction]
    split
    · exact .inl rfl
    · dsimp only
      split <;> exact .inl rfl
  | discardTransaction ht =>
    rw [QDocdbServer.discardTransaction]
    split <;> exact .inl rfl
  | unobserve ht =>
    rw [QDocdbServer.unobserve]
    split
    · exact .inl rfl
    · split
      · exact .inl rfl
      · split <;> exact .inl rfl
  | exclusiveLock ht =>
    rw [QDocdbServer.exclusiveLock]
    split <;> exact .inl rfl
  | unlock ht =>
    rw [QDocdbServer.unlock]
    split
    · exact .inl rfl
    · split <;> exact .inl rfl
  | autoCommit ht hc => exact fits_operationReply ht
  | operation ht hne =>
    rw [QDocdbServer.operation]
    split
    · exact .inl rfl
    · split
      · exact .inl rfl
      · exact fits_operationReply ht
  | newTransaction ht hc =>
    rw [ht]
    exact .inr rfl
  | observe ht hc =>
    rw [ht]
    exact .inr rfl
  | onCollection hurl hdoc hnew hobserve hc hr => exact fits_of_onCollection hr
  | _ => exact .inl rfl

/-- The replies that were written fit their requests. -/
def RepliesFit (s : QDocdbServer) : Prop :=
  ∀ client o r, (client, .reply o r) ∈ s.sent → r.value.Fits o.type

theorem RepliesFit.send (h : s.RepliesFit) {m : Message}
    (hm : ∀ o r, m = .reply o r → r.value.Fits o.type) : (s.send client m).RepliesFit := by
  intro client' o r hmem
  rcases List.mem_append.mp hmem with hmem | hmem
  · exact h client' o r hmem
  · exact hm o r (Prod.mk.inj (List.mem_singleton.mp hmem)).2.symm

theorem serverInvariant_repliesFit (ok : QDocdbServer → Event → Prop) :
    ServerInvariant E ok RepliesFit (fun _ _ => RepliesFit) (fun _ _ _ _ => True) where
  started := fun _ _ _ h => by cases h
  connected := fun hI _ => hI
  disconnected := fun hI _ _ => hI
  notified := fun {s pending id reply} hI _ => by
    rw [observeChanged]
    split
    · exact RepliesFit.send hI (fun _ _ h => by cases h)
    · exact hI
  arrived := fun hI _ _ => ⟨hI, trivial⟩
  taken := fun hI _ _ => hI
  dequeued := fun hI _ _ => ⟨hI, trivial⟩
  done := fun hI _ => hI
  opened := fun {s client n o} hI _ => by
    obtain ⟨databases, h, -⟩ := openDatabaseOf_eq E s o
    rw [h]
    exact ⟨hI, trivial⟩
  waits := fun hI _ _ _ => hI
  served := fun {s client n o p} hI _ _ _ hserved => by
    have hsent : p.1.RepliesFit := fun client' o' r h => hI client' o' r (hserved.sent ▸ h)
    refine hsent.send fun o' r h => ?_
    obtain ⟨rfl, rfl⟩ := Message.reply.inj h
    exact hserved.fits

/-- **Messages arrive**: in any state that a server reaches, and however the bytes of its messages
to a client are cut into pieces, the client receives these messages, in their order. It reads from
each of them the data of the observer, or the id of the request with its error, and the method
that has asked hands out the value that the server has found. -/
theorem messages_arrive (C : Conversions) {ok : QDocdbServer → Event → Prop}
    (hs : ServerReachable E ok s) (h : ∀ m ∈ s.messagesTo client, m.Writable)
    {chunks : List QByteArray}
    (hchunks : chunks.flatten =
      bodies.sent ((s.messagesTo client).map fun m => body m.linkObject)) :
    ∃ link, LinkReader.readChunks bodies chunks .new = some link ∧
      List.Forall₂ (Understood C) (s.messagesTo client)
        (link.received.map fun b => .read C (readMap b.val)) := by
  have hmaps : ∀ m ∈ (s.messagesTo client).map Message.linkObject, m.Writable :=
    List.forall_mem_map.mpr fun m hm => (h m hm).map
  obtain ⟨link, hread, hreceived⟩ := received_of_maps hmaps (by rwa [List.map_map])
  refine ⟨link, hread, ?_⟩
  have hmap : link.received.map (fun b => ClientMessage.read C (readMap b.val)) =
      (s.messagesTo client).map fun m => ClientMessage.read C m.linkObject := by
    have hall := congrArg (List.map (ClientMessage.read C)) hreceived
    rwa [List.map_map, List.map_map] at hall
  have hfits := (serverInvariant_repliesFit ok).reachable hs
  rw [hmap, List.forall₂_map_right_iff, List.forall₂_same]
  intro m hm
  refine understood_read C (h m hm).valid ?_
  rintro o r rfl
  exact hfits client o r (mem_messagesTo.mp hm)

/-- `{"_id":"a"}` -/
def documentA : QJsonValue := .object [(qs "_id", .string (qs "a"))]

theorem valid_documentA : documentA.Valid := by
  refine .object (o := .insert .empty (qs "_id") (.string (qs "a"))) fun f hf => ?_
  obtain rfl := List.mem_singleton.mp hf
  exact .string _

/-- A number in a value is an `int`, and each document is that one. -/
def ShortValue : ReplyValue → Bool
  | .findReply reply => reply.all fun v => decide (v = documentA)
  | .findOneReply _ => false
  | .countReply n => decide (n < 2 ^ 31)
  | .newTransactionReply id => decide (IsInt id)
  | .observeReply id => decide (IsInt id)
  | _ => true

theorem valid_of_shortValue {value : ReplyValue} (h : ShortValue value = true) : value.Valid := by
  cases value with
  | findReply reply =>
    intro v hv
    rw [of_decide_eq_true (List.all_eq_true.mp h v hv)]
    exact valid_documentA
  | findOneReply => cases h
  | countReply n =>
    have hn : n < 2 ^ 31 := of_decide_eq_true h
    exact hn
  | newTransactionReply id =>
    have hid : IsInt id := of_decide_eq_true h
    exact hid
  | observeReply id =>
    have hid : IsInt id := of_decide_eq_true h
    exact hid
  | _ => trivial

/-- A message with such a value, or with such documents, that is short enough to be written. -/
def ShortMessage (m : Message) : Bool :=
  decide ((writeMap m.linkObject).length + 4 < 2 ^ 31) &&
    match m with
    | .reply o r => decide (IsInt o.id) && ShortValue r.value
    | .observeData id l => decide (IsInt id) && l.all fun v => decide (v = documentA)

theorem writable_of_shortMessage {m : Message} (h : ShortMessage m = true) : m.Writable := by
  obtain ⟨hlength, h⟩ := (Bool.and_eq_true _ _).mp h
  refine ⟨?_, of_decide_eq_true hlength⟩
  cases m with
  | reply o r =>
    obtain ⟨hid, hvalue⟩ := (Bool.and_eq_true _ _).mp h
    exact ⟨of_decide_eq_true hid, valid_of_shortValue hvalue⟩
  | observeData id l =>
    obtain ⟨hid, hl⟩ := (Bool.and_eq_true _ _).mp h
    refine ⟨of_decide_eq_true hid, fun v hv => ?_⟩
    rw [of_decide_eq_true (List.all_eq_true.mp hl v hv)]
    exact valid_documentA

/-- Client 1 observes a collection, inserts a document in a transaction and finds it. -/
def findsInserted : List Event :=
  [.connected 1, .received 1 (requestD 0 (.observe [] [] (-1))),
    .received 1 (requestD 1 .newTransaction), .received 1 (requestD 2 (insertAIn 0)),
    .received 1 (requestD 3 (.writeTransaction 0)), .observeQueryChanged, .observeQueryChanged,
    .received 1 (requestD 4 (.find [] []))]

/-- The kinds of the messages that the client is sent. -/
def kindsInserted : List LinkObjectKind :=
  [.typeObserveReply, .typeNewTransactionReply, .typeInsertReply, .typeUnknown, .typeObserveData,
    .typeObserveData, .typeFindReply]

/-- All of them in three pieces, cut in the middle of a length and of a body. -/
def threeChunks (s : QDocdbServer) : List QByteArray :=
  let sent := bodies.sent ((s.messagesTo 1).map fun m => body m.linkObject)
  [sent.take 2, (sent.drop 2).take 200, (sent.drop 2).drop 200]

theorem messages_arrive_findsInserted :
    ∃ s, handleAll emptyServerEnv .init findsInserted = some s ∧
      (s.messagesTo 1).map (fun m => m.linkObject.type plainConversions) = kindsInserted ∧
      ∃ link, LinkReader.readChunks bodies (threeChunks s) .new = some link ∧
        List.Forall₂ (Understood plainConversions) (s.messagesTo 1)
          (link.received.map fun b => .read plainConversions (readMap b.val)) := by
  obtain ⟨s, hs, htest⟩ := (Option.any_eq_true _ _).mp
    (show (handleAll emptyServerEnv .init findsInserted).any (fun s =>
      decide ((s.messagesTo 1).map (fun m => m.linkObject.type plainConversions) = kindsInserted) &&
        (s.messagesTo 1).all ShortMessage) = true by decide +kernel)
  obtain ⟨hkinds, hall⟩ := (Bool.and_eq_true _ _).mp htest
  have hreach : ServerReachable emptyServerEnv (fun _ _ => True) s :=
    reachable_of_handleAll .started (fun _ _ _ => trivial) hs
  refine ⟨s, hs, of_decide_eq_true hkinds, messages_arrive plainConversions hreach
    (fun m hm => writable_of_shortMessage (List.all_eq_true.mp hall m hm)) ?_⟩
  rw [threeChunks, List.flatten_cons, List.flatten_cons, List.flatten_cons, List.flatten_nil,
    List.append_nil, List.take_append_drop, List.take_append_drop]

end QDocdbServer

end Qdocdb
