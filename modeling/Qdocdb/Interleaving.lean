import Qdocdb.RemoveSnapshot

/-!
# Open transactions and snapshots

Clients open transactions, insert and remove documents in them and commit them, while
snapshots are taken and removed on the same collection, in any order. A transaction
keeps the snapshot number of the moment it was opened. A commit leaves the named
snapshots alone and makes the inserted documents visible when that number is still the
current one and what the transaction saw of the start keys is still right
(`commitComposes_of_interleaving`).
-/

namespace Qdocdb

/-! ## Clients -/

/-- An open transaction, with the documents that it inserted and did not remove again,
as they were given, and the answers of the id generator. -/
structure Client where
  tx : Transaction
  inserted : QByteArray → Option (QJsonObject × Transaction.IdGen)

namespace Client

/-- A client that opens a transaction. -/
def opened (σ : Collection) : Client where
  tx := σ.newTransaction
  inserted := fun _ => none

/-- A client inserts a document. -/
def insert (E : Env) (db : Store) (client : Client) (doc : QJsonObject)
    (gen : Transaction.IdGen) (overwrite ignoreReadOnlyValue : Bool) : Client :=
  let (r, id, tx) := client.tx.insert E db doc gen overwrite ignoreReadOnlyValue
  if r = .success then
    ⟨tx, Function.update client.inserted id
      ((Transaction.documentId doc gen).map fun p => (p.2, gen))⟩
  else { client with tx := tx }

/-- A client removes a document. -/
def removeById (E : Env) (db : Store) (client : Client) (id : QByteArray)
    (ignoreReadOnlyValue : Bool) : Client :=
  let (r, tx) := client.tx.removeById E db id ignoreReadOnlyValue
  if r = .success then ⟨tx, Function.update client.inserted id none⟩
  else { client with tx := tx }

end Client

/-- A collection and the open transactions, by their numbers. -/
structure World where
  collection : Collection
  clients : ℕ → Option Client

/-- Put a client in its place, or take it away. -/
def World.setClient (w : World) (c : ℕ) (client : Option Client) : World :=
  { w with clients := Function.update w.clients c client }

/-- A step of one of the clients, or a snapshot operation that succeeds. -/
inductive World.Step (E : Env) (F : Set QByteArray) : World → World → Prop
  | newTransaction (w : World) (c : ℕ) :
    Step E F w (w.setClient c (some (.opened w.collection)))
  | insert {w : World} {c : ℕ} {client : Client} (hc : w.clients c = some client)
    (doc : QJsonObject) (gen : Transaction.IdGen) (overwrite ignoreReadOnlyValue : Bool)
    (hids : TxIds F (.insert doc gen overwrite ignoreReadOnlyValue)) :
    Step E F w (w.setClient c
      (some (client.insert E w.collection.db doc gen overwrite ignoreReadOnlyValue)))
  | removeById {w : World} {c : ℕ} {client : Client} (hc : w.clients c = some client)
    (id : QByteArray) (ignoreReadOnlyValue : Bool) (hid : id ∈ F) :
    Step E F w (w.setClient c
      (some (client.removeById E w.collection.db id ignoreReadOnlyValue)))
  | writeTransaction {w : World} {c : ℕ} {client : Client} (hc : w.clients c = some client) :
    Step E F w { w.setClient c none with
      collection := (w.collection.writeTransaction E client.tx).2 }
  | newSnapshot {w : World} {σ' : Collection} (snapshotName : QString)
    (hroom : ∀ l, w.collection.getSnapshotsValue E = .ok l → l.length ≤ 255)
    (hr : w.collection.newSnapshot E snapshotName = (.success, σ')) :
    Step E F w { w with collection := σ' }
  | removeSnapshot {w : World} {σ' : Collection} (snapshotName : QString)
    (hname : snapshotName ≠ currentName)
    (hr : w.collection.removeSnapshot E snapshotName = some (.success, σ')) :
    Step E F w { w with collection := σ' }

/-- What any interleaving of steps leads to, from a collection opened on an empty store. -/
inductive Interleaving (E : Env) (F : Set QByteArray) : World → Prop
  | opened : Interleaving E F ⟨Collection.open E .empty, fun _ => none⟩
  | step {w w' : World} : Interleaving E F w → w.Step E F w' → Interleaving E F w'

/-! ## The writes of a client -/

variable {E : Env} {F : Set QByteArray}

/-- The writes `ws` of a client: to documents under its own snapshot number, among them
the documents it inserted, each the last write of its keys. -/
structure ClientInv (E : Env) (F : Set QByteArray) (client : Client)
    (ws : List (WriteOp QByteArray Blob)) : Prop where
  kvdb : client.tx.kvdb = KVTransaction.new.writes E.backend ws
  key : ∀ w ∈ ws, ∃ I ∈ F, w.key = constructDocumentStartKey I ∨
    w.key = constructDocumentLinkKey I client.tx.snapshotId
  good : ∀ k v, WriteOp.put k v ∈ ws → GoodBinding F k v
  inserted : ∀ I d gen, client.inserted I = some (d, gen) →
    I ∈ F ∧ lastWrite ws (constructDocumentStartKey I) = some (some .empty) ∧
      ∃ o, Transaction.StoredAs E gen d o ∧
        lastWrite ws (constructDocumentLinkKey I client.tx.snapshotId) = some (some (.document o))

theorem clientInv_opened (σ : Collection) : ClientInv E F (.opened σ) [] where
  kvdb := rfl
  key := by simp
  good := by simp
  inserted := fun _ _ _ h => by cases h

/-- Writes to one id do not change what is written last to the others. -/
theorem lastWrite_append_of_ne (hF : Separated F) {id I : QByteArray} (hid : id ∈ F)
    (hI : I ∈ F) (hne : I ≠ id) {ws ws' : List (WriteOp QByteArray Blob)}
    (hws' : ∀ w ∈ ws', IsKeyOf id w.key) {k : QByteArray} (hk : IsKeyOf I k) :
    lastWrite (ws ++ ws') k = lastWrite ws k := by
  have hnone : lastWrite ws' k = none := lastWrite_eq_none_iff.mpr fun w hw hwk =>
    hne (hF.eq_of_isKeyOf hid hI (hwk ▸ hws' w hw) hk)
  rw [lastWrite_append, hnone, Option.none_or]

theorem lastWrite_putJsonValue (hF : Separated F) {id : QByteArray} (hid : id ∈ F) (s : Byte)
    (o : QJsonObject) (ws : List (WriteOp QByteArray Blob)) :
    lastWrite (ws ++ Transaction.putJsonValue id s o) (constructDocumentStartKey id) =
        some (some .empty) ∧
      lastWrite (ws ++ Transaction.putJsonValue id s o) (constructDocumentLinkKey id s) =
        some (some (.document o)) := by
  have hne := hF.startKey_ne_linkKey hid hid s
  rw [lastWrite_append, lastWrite_append, Transaction.putJsonValue, lastWrite_cons, lastWrite_cons,
    lastWrite_cons, lastWrite_cons]
  simp [hne, hne.symm]

namespace ClientInv

variable {client : Client} {ws : List (WriteOp QByteArray Blob)}

/-- Without indexes in the store, a client sees none. -/
theorem getIndexes (h : ClientInv E F client ws) {db : Store} (hdb : db.find? indexesKey = none) :
    (client.tx.reader E db).getIndexes = [] := by
  have hget : ((client.tx.reader E db).getValue indexesKey).toOption = none := by
    rw [Transaction.reader, h.kvdb]
    simp only
    rw [KVTransaction.getValue_writes, SortedMap.find?_applyLog_of_forall_ne _ fun w hw hk => ?_, hdb]
    obtain ⟨I, -, hkey | hkey⟩ := h.key w hw
    · exact (isKeyOf_startKey I).ne_indexesKey (hkey.symm.trans hk)
    · exact (isKeyOf_linkKey I _).ne_indexesKey (hkey.symm.trans hk)
  rw [Reader.getIndexes]
  rcases hv : (client.tx.reader E db).getValue indexesKey with e | b
  · rfl
  · rw [hv] at hget
    cases hget

/-- A client that only changed its observers or its error text. -/
theorem of_wrote_nil (h : ClientInv E F client ws) {tx : Transaction}
    (hw : Transaction.Wrote E [] client.tx tx) : ClientInv E F { client with tx := tx } ws where
  kvdb := hw.kvdb.trans h.kvdb
  key := by
    rw [hw.snapshotId]
    exact h.key
  good := h.good
  inserted := by
    rw [hw.snapshotId]
    exact h.inserted

/-- A client that wrote to one id, and notes for it what it wrote last. -/
theorem append (hF : Separated F) (h : ClientInv E F client ws) {id : QByteArray} (hid : id ∈ F)
    {ws' : List (WriteOp QByteArray Blob)} {tx : Transaction}
    (hw : Transaction.Wrote E ws' client.tx tx)
    (hkey : ∀ w ∈ ws', w.key = constructDocumentStartKey id ∨
      w.key = constructDocumentLinkKey id client.tx.snapshotId)
    (hgood : ∀ k v, WriteOp.put k v ∈ ws' → GoodBinding F k v)
    {entry : Option (QJsonObject × Transaction.IdGen)}
    (hentry : ∀ d gen, entry = some (d, gen) →
      lastWrite (ws ++ ws') (constructDocumentStartKey id) = some (some .empty) ∧
        ∃ o, Transaction.StoredAs E gen d o ∧
          lastWrite (ws ++ ws') (constructDocumentLinkKey id client.tx.snapshotId) =
            some (some (.document o))) :
    ClientInv E F ⟨tx, Function.update client.inserted id entry⟩ (ws ++ ws') := by
  have hs := hw.snapshotId
  refine ⟨hw.kvdb_eq h.kvdb, fun w hmem => ?_, fun k v hmem => ?_, fun I d gen hI => ?_⟩
  · rw [hs]
    rcases List.mem_append.mp hmem with hmem | hmem
    · exact h.key w hmem
    · exact ⟨id, hid, hkey w hmem⟩
  · rcases List.mem_append.mp hmem with hmem | hmem
    · exact h.good k v hmem
    · exact hgood k v hmem
  · rw [hs]
    simp only at hI
    by_cases hne : I = id
    · subst hne
      rw [Function.update_self] at hI
      exact ⟨hid, hentry d gen hI⟩
    · rw [Function.update_of_ne hne] at hI
      obtain ⟨hIF, hstart, o, ho, hlink⟩ := h.inserted I d gen hI
      have hkeys : ∀ w ∈ ws', IsKeyOf id w.key := fun w hmem =>
        (hkey w hmem).imp_right fun h => ⟨_, h⟩
      have hkeep : ∀ {k}, IsKeyOf I k → lastWrite (ws ++ ws') k = lastWrite ws k :=
        lastWrite_append_of_ne hF hid hIF hne hkeys
      exact ⟨hIF, (hkeep (isKeyOf_startKey I)).trans hstart, o, ho,
        (hkeep (isKeyOf_linkKey I _)).trans hlink⟩

theorem insert (hF : Separated F) (h : ClientInv E F client ws) {db : Store}
    (hdb : db.find? indexesKey = none) {doc : QJsonObject} {gen : Transaction.IdGen}
    {overwrite ignoreReadOnlyValue : Bool}
    (hids : TxIds F (.insert doc gen overwrite ignoreReadOnlyValue)) :
    ∃ ws', ClientInv E F (client.insert E db doc gen overwrite ignoreReadOnlyValue) ws' := by
  obtain ⟨-, -, ws', hP, hw, -⟩ := Transaction.insert_sim (.of_writes db h.kvdb) doc gen overwrite
    ignoreReadOnlyValue fun _ _ _ => rfl
  rw [h.getIndexes hdb] at hP
  rw [Client.insert]
  generalize client.tx.insert E db doc gen overwrite ignoreReadOnlyValue = run at hP hw ⊢
  obtain ⟨r, id, tx⟩ := run
  simp only at hP hw ⊢
  cases hP with
  | refused hr =>
    rw [if_neg hr]
    exact ⟨ws, h.of_wrote_nil hw⟩
  | @stored _ d o iws hid ho _ hnone =>
    obtain ⟨sid, hsid, hlatin⟩ := ho.value_id hid
    have hidF := hids id d hid
    rw [hnone rfl, List.append_nil] at hw
    rw [hid, if_pos rfl]
    refine ⟨_, h.append hF hidF hw (fun w hmem => Transaction.putJsonValue_key_eq hmem)
      (fun k v hmem => goodBinding_of_mem_putJsonValue hidF hsid hlatin hmem) ?_⟩
    rintro d' gen' heq
    cases heq
    obtain ⟨hstart, hlink⟩ := lastWrite_putJsonValue hF hidF client.tx.snapshotId o ws
    exact ⟨hstart, o, ho, hlink⟩

theorem removeById (hF : Separated F) (h : ClientInv E F client ws) {db : Store}
    (hdb : db.find? indexesKey = none) {id : QByteArray} (hid : id ∈ F)
    (ignoreReadOnlyValue : Bool) :
    ∃ ws', ClientInv E F (client.removeById E db id ignoreReadOnlyValue) ws' := by
  obtain ⟨-, ws', hP, hw, -⟩ :=
    Transaction.removeById_sim (.of_writes db h.kvdb) id ignoreReadOnlyValue rfl
  rw [h.getIndexes hdb] at hP
  rw [Client.removeById]
  generalize client.tx.removeById E db id ignoreReadOnlyValue = run at hP hw ⊢
  obtain ⟨r, tx⟩ := run
  simp only at hP hw ⊢
  cases hP with
  | refused hr =>
    rw [if_neg hr]
    exact ⟨ws, h.of_wrote_nil hw⟩
  | @removed scan doc iws r _ _ _ hnone =>
    obtain ⟨rfl, rfl⟩ := hnone rfl
    rw [List.append_nil] at hw
    rw [if_pos rfl]
    exact ⟨_, h.append hF hid hw (fun w hmem => Transaction.removeVersion_key_eq hmem)
      (fun k v hmem => goodBinding_of_mem_removeVersion hid hmem) fun _ _ heq => by cases heq⟩

end ClientInv

/-! ## The invariant -/

/-- The store is numbered, and every client holds writes of the kind above. -/
structure WorldInv (E : Env) (F : Set QByteArray) (w : World) : Prop where
  numbered : NumberedStore F w.collection.snapshotId w.collection.db
  clients : ∀ c client, w.clients c = some client → ∃ ws, ClientInv E F client ws

/-- A client that is put in its place keeps the invariant. -/
theorem WorldInv.setClient {w : World} (h : WorldInv E F w) (c : ℕ) {client : Option Client}
    (hclient : ∀ client', client = some client' → ∃ ws, ClientInv E F client' ws) :
    WorldInv E F (w.setClient c client) where
  numbered := h.numbered
  clients := by
    intro c' client' hc'
    rw [World.setClient] at hc'
    simp only at hc'
    by_cases hne : c' = c
    · rw [hne, Function.update_self] at hc'
      exact hclient client' hc'
    · rw [Function.update_of_ne hne] at hc'
      exact h.clients c' client' hc'

/-- The commit of a client keeps the store numbered. -/
theorem NumberedStore.writeTransaction {σ : Collection} (h : NumberedStore F σ.snapshotId σ.db)
    {client : Client} {ws : List (WriteOp QByteArray Blob)} (hclient : ClientInv E F client ws) :
    NumberedStore F (σ.writeTransaction E client.tx).2.snapshotId
      (σ.writeTransaction E client.tx).2.db := by
  obtain ⟨hc, -⟩ := Collection.writeTransaction_spec (σ := σ) hclient.kvdb
  have hmeta : ∀ k, (∀ I, ¬ IsKeyOf I k) →
      (σ.writeTransaction E client.tx).2.db.find? k = σ.db.find? k := fun k hk =>
    hc.find?_of_forall_ne fun w hw hwk => by
      obtain ⟨I, -, hkey | hkey⟩ := hclient.key w hw
      · exact hk I (.inl (hwk.symm.trans hkey))
      · exact hk I (.inr ⟨_, hwk.symm.trans hkey⟩)
  rw [hc.snapshotId]
  refine ⟨hc.preserves h.good hclient.good, ?_, ?_⟩
  · rw [hmeta _ fun I => isMetaKey_indexesKey.not_isKeyOf, h.noIndexes]
  · rw [hmeta _ fun I => isMetaKey_snapshotsKey.not_isKeyOf]
    exact h.names

/-- **Step**: every step keeps the invariant. -/
theorem worldInv_step (hF : PlainIds F) {w w' : World} (h : WorldInv E F w)
    (hstep : w.Step E F w') : WorldInv E F w' := by
  have hdb := h.numbered.noIndexes
  cases hstep with
  | newTransaction c =>
    refine h.setClient c fun client' heq => ?_
    cases heq
    exact ⟨[], clientInv_opened _⟩
  | @insert c client hc doc gen overwrite ignoreReadOnlyValue hids =>
    refine h.setClient c fun client' heq => ?_
    cases heq
    obtain ⟨ws, hws⟩ := h.clients c client hc
    exact hws.insert hF.separated hdb hids
  | @removeById c client hc id ignoreReadOnlyValue hid =>
    refine h.setClient c fun client' heq => ?_
    cases heq
    obtain ⟨ws, hws⟩ := h.clients c client hc
    exact hws.removeById hF.separated hdb hid ignoreReadOnlyValue
  | @writeTransaction c client hc =>
    obtain ⟨ws, hws⟩ := h.clients c client hc
    exact ⟨h.numbered.writeTransaction hws,
      (show WorldInv E F (w.setClient c none) from
        h.setClient c fun _ heq => by cases heq).clients⟩
  | @newSnapshot σ' snapshotName hroom hr =>
    have hroom' : ∀ l, w.collection.getSnapshotsValue E = .ok l →
        snapshotName ∈ l ∨ l.length ≤ 255 := fun l hl => .inr (hroom l hl)
    have hnumbered := (h.numbered.newSnapshot hroom').1
    rw [hr] at hnumbered
    exact ⟨hnumbered, h.clients⟩
  | @removeSnapshot σ' snapshotName hname hr =>
    exact ⟨h.numbered.removeSnapshot hF hname hr, h.clients⟩

/-- **Run**: the invariant holds after any interleaving. -/
theorem worldInv_of_interleaving (hF : PlainIds F) {w : World} (h : Interleaving E F w) :
    WorldInv E F w := by
  induction h with
  | opened => exact ⟨numberedStore_open, fun _ _ hc => by cases hc⟩
  | step _ hstep ih => exact worldInv_step hF ih hstep

/-! ## When a commit composes with the snapshots -/

/-- What committing a transaction should do: the documents of every named snapshot stay,
and the inserted documents can be seen on the current collection. -/
structure CommitComposes (E : Env) (σ : Collection) (client : Client) : Prop where
  snapshots : ∀ n j, n ≠ currentName → σ.getSnapshotId E n = .ok j →
    ((σ.writeTransaction E client.tx).2.getSnapshot E j).documents E =
      (σ.getSnapshot E j).documents E
  inserted : ∀ I d gen, client.inserted I = some (d, gen) →
    ∃ o, Transaction.StoredAs E gen d o ∧
      (I, o) ∈ ((σ.writeTransaction E client.tx).2.reader E).documents E

/-- A transaction that may be committed: it wrote nothing under the number of a named
snapshot, and of the documents that a named snapshot has it sees the start keys as they
are in the store; if it inserted a document, its number is the current one, and the map
holds the keys it deletes. -/
structure MayCommit (E : Env) (F : Set QByteArray) (σ : Collection) (client : Client) :
    Prop where
  written : (∃ k, client.tx.kvdb.isDeleted k ≠ none) → σ.snapshotId ≤ client.tx.snapshotId
  startKeys : ∀ I ∈ F, ∀ j < σ.snapshotId, visible σ.db j I ≠ none →
    ((client.tx.kvdb.getValue E.backend σ.db (constructDocumentStartKey I)).toOption = none ↔
      σ.db.find? (constructDocumentStartKey I) = none)
  inserted : (∃ I, client.inserted I ≠ none) → client.tx.snapshotId = σ.snapshotId ∧
    (E.backend = .map → ∀ k, client.tx.kvdb.isDeleted k = some true → σ.db.find? k ≠ none)

/-- **Open transactions and snapshots compose** when the transaction may be committed,
whatever the other clients and the snapshot operations did before. -/
theorem commitComposes_of_interleaving (hF : PlainIds F) {w : World} (h : Interleaving E F w)
    {c : ℕ} {client : Client} (hc : w.clients c = some client)
    (hmay : MayCommit E F w.collection client) :
    CommitComposes E w.collection client := by
  obtain ⟨hnumbered, hclients⟩ := worldInv_of_interleaving hF h
  obtain ⟨ws, hws⟩ := hclients c client hc
  generalize w.collection = σ at hmay hnumbered ⊢
  have hnumbered' := hnumbered.writeTransaction hws
  obtain ⟨hcommitted, -⟩ := Collection.writeTransaction_spec (σ := σ) hws.kvdb
  have hlookup : ∀ k, client.tx.kvdb.isDeleted k = (lastWrite ws k).map Option.isNone := by
    intro k
    rw [hws.kvdb, KVTransaction.isDeleted_writes]
  have hwritten : ∀ w ∈ ws, σ.snapshotId ≤ client.tx.snapshotId := fun w hw =>
    hmay.written ⟨w.key, by
      rw [hlookup, Ne, Option.map_eq_none_iff, lastWrite_eq_none_iff]
      exact fun hne => hne w hw rfl⟩
  refine ⟨fun n j hn hj => ?_, fun I d gen hI => ?_⟩
  · -- the number of a named snapshot is below the current one
    have hjlt : j < σ.snapshotId := by
      obtain ⟨names, hnames, hlen⟩ := Collection.exists_names hnumbered.names E
      obtain ⟨hmem, rfl⟩ := (Collection.getSnapshotId_eq_ok_iff hnames hn).mp hj
      exact (ofNat_idxOf_lt hlen hmem).2
    ext ⟨I, o⟩
    rw [Reader.mem_documents_iff hF.separated hnumbered'.good.shape,
      Reader.mem_documents_iff hF.separated hnumbered.good.shape]
    refine and_congr_right fun hI => ?_
    have hlink : ∀ t ≤ j, (σ.writeTransaction E client.tx).2.db.find? (constructDocumentLinkKey I t) =
        σ.db.find? (constructDocumentLinkKey I t) := fun t ht =>
      hcommitted.find?_of_forall_ne fun w hw hwk => by
        obtain ⟨J, hJ, hkey | hkey⟩ := hws.key w hw
        · exact hF.separated.startKey_ne_linkKey hJ hI t (hkey.symm.trans hwk)
        · have ht' := (constructDocumentLinkKey_inj.mp (hwk.symm.trans hkey)).2
          exact absurd (ht' ▸ ht) (not_le_of_gt (hjlt.trans_le (hwritten w hw)))
    have hvis : visible (σ.writeTransaction E client.tx).2.db j I = visible σ.db j I :=
      visible_congr hlink
    simp only [Collection.getSnapshot, Collection.reader, hvis]
    refine and_congr_left fun hsome => not_congr ?_
    have hsee := hmay.startKeys I hI j hjlt (by rw [hsome]; simp)
    rw [hws.kvdb, KVTransaction.getValue_writes] at hsee
    -- a start key that the transaction deleted last is not there anyway
    have hdeleted : lastWrite ws (constructDocumentStartKey I) = some none →
        σ.db.find? (constructDocumentStartKey I) = none := fun hd => hsee.mp (by
      rw [SortedMap.find?_applyLog, hd, Option.getD_some])
    rw [hcommitted.db]
    rcases find?_commit_eq_or (B := E.backend) hdeleted with hfind | hfind
    · rw [hfind]
    · rw [hfind, hsee]
  · obtain ⟨hIF, hstart, o, ho, hlink⟩ := hws.inserted I d gen hI
    obtain ⟨hcurrent, hstored⟩ := hmay.inserted ⟨I, by simp [hI]⟩
    have hsuccess : (commit E.backend σ.db ws).1 = .success :=
      commit_success_iff.mpr fun hB k hk => hstored hB k (by rw [hlookup, hk]; rfl)
    rw [hcurrent] at hlink
    refine ⟨o, ho, (Reader.mem_documents_iff hF.separated hnumbered'.good.shape).mpr ⟨hIF, ?_, ?_⟩⟩
    · rw [Collection.reader, hcommitted.db, find?_commit_of_put hsuccess hstart]
      simp
    · simp only [Collection.reader, hcommitted.snapshotId]
      refine visible_of_document ?_
      rw [hcommitted.db, find?_commit_of_put hsuccess hlink]

/-! ## Two clients and a snapshot -/

namespace World

/-- A new collection without transactions. -/
def start : World := ⟨Collection.open (Env.plain .levelDB) .empty, fun _ => none⟩

/-- A client opens a transaction. -/
def opens (w : World) (c : ℕ) : World := w.setClient c (some (.opened w.collection))

/-- `{"_id":id,"n":null}` -/
def withNull (id : String) : QJsonObject :=
  QJsonObject.insert [(qs "_id", .string (qs id))] (qs "n") .null

/-- A client with a transaction inserts a document. -/
def inserts (w : World) (c : ℕ) (id : String) : World :=
  match w.clients c with
  | some client => w.setClient c (some
      (client.insert (Env.plain .levelDB) w.collection.db (withNull id) ⟨[], []⟩ false false))
  | none => w

/-- A client with a transaction commits it. -/
def commits (w : World) (c : ℕ) : World :=
  match w.clients c with
  | some client => { w.setClient c none with
      collection := (w.collection.writeTransaction (Env.plain .levelDB) client.tx).2 }
  | none => w

/-- A snapshot is taken. -/
def snapshots (w : World) (name : String) : World :=
  { w with collection := (w.collection.newSnapshot (Env.plain .levelDB) (qs name)).2 }

end World

namespace Interleaving

variable {w : World}

theorem opens (h : Interleaving E F w) (c : ℕ) : Interleaving E F (w.opens c) :=
  h.step (.newTransaction w c)

theorem inserts (h : Interleaving (Env.plain .levelDB) F w) (c : ℕ) {id : String}
    (hid : toLatin1 (qs id) ∈ F) : Interleaving (Env.plain .levelDB) F (w.inserts c id) := by
  rw [World.inserts]
  split
  · rename_i client hc
    refine h.step (.insert hc _ _ false false fun id' d hid' => ?_)
    obtain rfl : toLatin1 (qs id) = id' := (Prod.mk.inj (Option.some.inj hid')).1
    exact hid
  · exact h

theorem commits (h : Interleaving (Env.plain .levelDB) F w) (c : ℕ) :
    Interleaving (Env.plain .levelDB) F (w.commits c) := by
  rw [World.commits]
  split
  · rename_i client hc
    exact h.step (.writeTransaction hc)
  · exact h

theorem snapshots (h : Interleaving (Env.plain .levelDB) F w) {name : String}
    (hroom : ∀ l, w.collection.getSnapshotsValue (Env.plain .levelDB) = .ok l → l.length ≤ 255)
    (hr : (w.collection.newSnapshot (Env.plain .levelDB) (qs name)).1 = .success) :
    Interleaving (Env.plain .levelDB) F (w.snapshots name) :=
  h.step (.newSnapshot (qs name) hroom (Prod.ext hr rfl))

end Interleaving

/-- A client has committed `a`, and `A` is a snapshot with it. -/
def namedA : World := (((World.start.opens 0).inserts 0 "a").commits 0).snapshots "A"

theorem interleaving_namedA : Interleaving (Env.plain .levelDB) oneByteIds namedA :=
  (((Interleaving.opened.opens 0).inserts 0 (by decide)).commits 0).snapshots
    (fun l hl => by cases hl; decide) (by decide)

/-- Two clients have opened transactions behind the snapshot, and the second one has committed
`c` before the first one commits `b`. -/
def committedC : World :=
  ((((namedA.opens 0).opens 1).inserts 0 "b").inserts 1 "c").commits 1

theorem interleaving_committedC : Interleaving (Env.plain .levelDB) oneByteIds committedC :=
  ((((interleaving_namedA.opens 0).opens 1).inserts 0 (by decide)).inserts 1 (by decide)).commits 1

/-- The client that has still to commit. -/
def clientB : Client :=
  (Client.opened namedA.collection).insert (Env.plain .levelDB) namedA.collection.db
    (World.withNull "b") ⟨[], []⟩ false false

/-- Of all documents that are not its own the client sees what the store holds. -/
theorem getValue_clientB {I : QByteArray} (hF : I ∈ oneByteIds) (hI : I ≠ bytes "b") :
    (clientB.tx.kvdb.getValue .levelDB committedC.collection.db
        (constructDocumentStartKey I)).toOption =
      committedC.collection.db.find? (constructDocumentStartKey I) := by
  have hkvdb : clientB.tx.kvdb = KVTransaction.new.writes .levelDB
      (Transaction.putJsonValue (bytes "b") 1 (World.withNull "b")) := rfl
  rw [hkvdb, KVTransaction.getValue_writes]
  refine SortedMap.find?_applyLog_of_forall_ne _ fun w hw hk => ?_
  have hkey : IsKeyOf (bytes "b") w.key := (Transaction.putJsonValue_key_eq hw).imp_right
    fun h => ⟨_, h⟩
  exact hI (safeIds_oneByteIds.separated.eq_of_isKeyOf (by decide) hF hkey
    (hk ▸ isKeyOf_startKey I))

/-- The commit of the first client leaves the snapshot alone and shows `b`. -/
theorem commitComposes_committedC :
    (committedC.collection.getSnapshotId (Env.plain .levelDB) (qs "A") = .ok 0 ∧
      (clientB.inserted (bytes "b")).isSome) ∧
    CommitComposes (Env.plain .levelDB) committedC.collection clientB := by
  refine ⟨by decide, commitComposes_of_interleaving safeIds_oneByteIds.plain interleaving_committedC
    (show committedC.clients 0 = some clientB from rfl) ?_⟩
  refine ⟨fun _ => by decide, fun I hI j hj hne => ?_, fun _ => ⟨by decide, fun hB => by cases hB⟩⟩
  by_cases hb : I = bytes "b"
  · -- the snapshot does not show it
    have hlt : j.val < 1 := hj
    have hzero : j = 0 := Fin.ext (Nat.lt_one_iff.mp hlt)
    subst hb hzero
    exact absurd (by decide) hne
  · exact iff_of_eq (congrArg (· = none) (getValue_clientB hI hb))

/-- A snapshot that was taken while the transaction was open shows what it inserted. -/
theorem not_commitComposes :
    ¬ ∀ (E : Env) (F : Set QByteArray) (w : World) (c : ℕ) (client : Client), SafeIds F →
      Interleaving E F w → w.clients c = some client → CommitComposes E w.collection client := by
  intro h
  have hopened : Interleaving (Env.plain .levelDB) oneByteIds
      ((World.start.opens 0).inserts 0 "a") := (Interleaving.opened.opens 0).inserts 0 (by decide)
  have hrun : Interleaving (Env.plain .levelDB) oneByteIds
      (((World.start.opens 0).inserts 0 "a").snapshots "A") :=
    hopened.snapshots (fun l hl => by cases hl; decide) (by decide)
  have hsame := (h _ _ _ 0 _ safeIds_oneByteIds hrun rfl).snapshots (qs "A") 0 (by decide)
    (by decide)
  have hmem : (bytes "a", World.withNull "a") ∈
      ((((World.start.opens 0).inserts 0 "a").snapshots "A").collection.getSnapshot
        (Env.plain .levelDB) 0).documents (Env.plain .levelDB) := by
    rw [← hsame]
    show _ ∈ Qdocdb.documents _ _ _
    decide
  revert hmem
  show ¬ _ ∈ Qdocdb.documents _ _ _
  decide

end Qdocdb
