import Qdocdb.Operations
import Qdocdb.Replies
import Qdocdb.Locks

/-!
# Failed requests

A request without a transaction runs its operation in a transaction of its own, and the
server writes that transaction whatever the operation returned. So what an operation wrote
before it failed is committed. An insertion fails before it writes. A removal fails after
it wrote when an indexed value has no entry, and `remove` and `set` fail at any of several
documents. When an operation that fails has not written yet (`FailsClean`), the request
changes nothing (`failedChangesNothing_of_failsClean`).
-/

namespace Qdocdb

/-- The keys that were written stay noted. -/
theorem KVTransaction.writes_ne_new {K V : Type} [LinearOrder K] (B : Backend)
    (tx : KVTransaction K V) {ws : List (WriteOp K V)} (hws : ws ≠ []) :
    tx.writes B ws ≠ .new := by
  rw [← List.dropLast_append_getLast hws, writes_concat]
  intro hnew
  have hdeleted := congrArg cacheDeleted hnew
  rw [cacheDeleted_write] at hdeleted
  have hmem : (ws.getLast hws).key ∈ (new : KVTransaction K V).cacheDeleted := by
    rw [← hdeleted]
    exact (AList.mem_insert _).mpr (.inl rfl)
  exact AList.notMem_empty _ hmem

namespace Transaction

variable {E : Env} {db : Store} {tx tx' : Transaction}

/-! ## Removing several documents -/

/-- All ids are found, and the links of each can be taken away when its turn comes. -/
def AllRemovable (E : Env) (db : Store) (s : Byte) (indexes : List (QString × QString))
    (t : LinkTable QByteArray QByteArray) (ids : List QByteArray) : Prop :=
  (∀ id ∈ ids, (removable E db s id false).isSome) ∧
    t.Removable (ids.flatMap (removalLinks E db s indexes false))

/-- The first id is not found, or its document may not be removed. -/
def FirstRefused (E : Env) (db : Store) (s : Byte) : List QByteArray → Prop
  | [] => False
  | id :: _ => removable E db s id false = none

/-- **Removing several documents** goes through exactly when each can be removed. -/
theorem removeByIds_success_iff (ids : List QByteArray) :
    (removeByIds E db ids tx).1 = .success ↔
      AllRemovable E db tx.snapshotId (tx.reader E db).getIndexes (tx.links E db) ids := by
  induction ids generalizing tx with
  | nil => simp [removeByIds, AllRemovable, LinkTable.Removable]
  | cons id ids ih =>
    rw [removeByIds, AllRemovable, List.flatMap_cons, ← LinkTable.removeAll_isSome_iff,
      LinkTable.removeAll_append]
    cases hid : removable E db tx.snapshotId id false with
    | none =>
      obtain ⟨r, lastError, hr, heq⟩ := removeById_of_removable_eq_none hid
      simp only [heq]
      have hnot : ¬ ∀ id' ∈ id :: ids, (removable E db tx.snapshotId id' false).isSome := fun h => by
        have := h id List.mem_cons_self
        rw [hid] at this
        cases this
      cases r <;> simp_all
    | some p =>
      obtain ⟨doc, scan⟩ := p
      obtain ⟨hextends, hremoves, -⟩ := removeById_of_removable hid
      have hfound : (∀ id' ∈ id :: ids, (removable E db tx.snapshotId id' false).isSome) ↔
          ∀ id' ∈ ids, (removable E db tx.snapshotId id' false).isSome := by
        simp [hid]
      rw [hfound]
      generalize tx.removeById E db id false = result at hextends hremoves ⊢
      cases hremoves with
      | failed hall => simp [hall]
      | @removed tx' hall hs =>
        have hindexes : (tx'.reader E db).getIndexes = (tx.reader E db).getIndexes :=
          hextends.indexes.trans (getIndexes_writes removeVersion_key_ne_indexesKey)
        rw [hall, Option.bind_some]
        dsimp only
        rw [ih, AllRemovable, hs, hindexes, ← LinkTable.removeAll_isSome_iff]

/-- A first id that is refused ends the loop before anything was written. -/
theorem removeByIds_of_firstRefused {ids : List QByteArray}
    (h : FirstRefused E db tx.snapshotId ids) :
    (removeByIds E db ids tx).2.kvdb = tx.kvdb ∧
      (removeByIds E db ids tx).2.observers = tx.observers := by
  cases ids with
  | nil => exact ⟨rfl, rfl⟩
  | cons id ids =>
    obtain ⟨r, lastError, hr, heq⟩ := removeById_of_removable_eq_none h
    rw [removeByIds, heq]
    cases r with
    | success => exact absurd rfl hr
    | _ => exact ⟨rfl, rfl⟩

/-- `tx'` is `tx` with at least one more call. -/
def Touched (E : Env) (tx tx' : Transaction) : Prop :=
  ∃ ws, ws ≠ [] ∧ tx'.kvdb = tx.kvdb.writes E.backend ws

theorem Extends.touched {ws : List (WriteOp QByteArray Blob)} (hws : ws ≠ [])
    (h : Extends E db (tx.writes E ws) tx') : Touched E tx tx' := by
  obtain ⟨ws', hws'⟩ := h.kvdb
  refine ⟨ws ++ ws', List.append_ne_nil_of_left_ne_nil hws _, ?_⟩
  rw [hws', writes, KVTransaction.writes_append]

theorem Touched.trans_extends {tx'' : Transaction} (h : Touched E tx tx')
    (h' : Extends E db tx' tx'') : Touched E tx tx'' := by
  obtain ⟨ws, hws, heq⟩ := h
  obtain ⟨ws', heq'⟩ := h'.kvdb
  exact ⟨ws ++ ws', List.append_ne_nil_of_left_ne_nil hws _, by
    rw [heq', heq, KVTransaction.writes_append]⟩

theorem Touched.kvdb_ne_new (h : Touched E tx tx') : tx'.kvdb ≠ .new := by
  obtain ⟨ws, hws, heq⟩ := h
  rw [heq]
  exact KVTransaction.writes_ne_new _ _ hws

theorem removeVersion_ne_nil (id : QByteArray) (s : Byte) (scan : ValueScan) :
    removeVersion id s scan ≠ [] := by
  rw [removeVersion]
  split <;> simp

theorem extends_removeById (id : QByteArray) (ignoreReadOnlyValue : Bool) :
    Extends E db tx (tx.removeById E db id ignoreReadOnlyValue).2 := by
  cases hid : removable E db tx.snapshotId id ignoreReadOnlyValue with
  | none =>
    obtain ⟨r, lastError, -, heq⟩ := removeById_of_removable_eq_none hid
    rw [heq]
    exact ⟨⟨[], rfl⟩, rfl, rfl⟩
  | some p =>
    exact (extends_writes removeVersion_key_ne_indexesKey).trans (removeById_of_removable hid).1

theorem touched_removeById {id : QByteArray} {ignoreReadOnlyValue : Bool}
    (h : removable E db tx.snapshotId id ignoreReadOnlyValue ≠ none) :
    Touched E tx (tx.removeById E db id ignoreReadOnlyValue).2 := by
  obtain ⟨p, hid⟩ := Option.ne_none_iff_exists'.mp h
  exact (removeById_of_removable hid).1.touched (removeVersion_ne_nil _ _ _)

theorem extends_removeByIds (ids : List QByteArray) :
    Extends E db tx (removeByIds E db ids tx).2 := by
  induction ids generalizing tx with
  | nil => exact .refl tx
  | cons id ids ih =>
    have hfirst := @extends_removeById E db tx id false
    rw [removeByIds]
    split
    · rename_i tx' heq
      rw [heq] at hfirst
      exact hfirst.trans ih
    · rename_i r tx' _ heq
      rw [heq] at hfirst
      exact hfirst

/-- A first id that is found is written about, whatever happens then. -/
theorem touched_removeByIds {id : QByteArray} {ids : List QByteArray}
    (h : removable E db tx.snapshotId id false ≠ none) :
    Touched E tx (removeByIds E db (id :: ids) tx).2 := by
  have hfirst := touched_removeById h
  rw [removeByIds]
  split
  · rename_i tx' heq
    rw [heq] at hfirst
    exact hfirst.trans_extends (extends_removeByIds ids)
  · rename_i r tx' _ heq
    rw [heq] at hfirst
    exact hfirst

/-! ## The documents of set -/

/-- What the document loop of `set` comes to: the ids that are left to remove, the
documents it stores, and whether it fails at one. -/
structure SetPlan where
  ids : List QByteArray
  stored : List (QByteArray × QJsonObject)
  failed : Bool

/-- The plan of the document loop, which the committed store settles. -/
def setPlan (E : Env) (db : Store) (s : Byte) (query : QJsonObject) (reply : List QJsonValue) :
    List (QJsonValue × IdGen) → List QByteArray → SetPlan
  | [], ids => ⟨ids, [], false⟩
  | (.object doc, gen) :: docs, ids =>
    match reply.find? fun v => v.eq (.object doc) with
    | some v =>
      let id := toLatin1 (QJsonObject.value v.toObject (qs "_id")).toQString
      setPlan E db s query reply docs (ids.filter (· ≠ id))
    | none =>
      match checkQuery E query (.object doc) with
      | none => ⟨ids, [], true⟩
      | some false => setPlan E db s query reply docs (ids.filter (· ≠ []))
      | some true =>
        match accepted E db s doc gen true false with
        | none => ⟨ids, [], true⟩
        | some (id, o, _) =>
          let plan := setPlan E db s query reply docs (ids.filter (· ≠ id))
          { plan with stored := (id, o) :: plan.stored }
  | _ :: docs, ids => setPlan E db s query reply docs ids

/-- The links of the documents that a plan stores. -/
def SetPlan.links (E : Env) (s : Byte) (indexes : List (QString × QString)) (plan : SetPlan) :
    List (QByteArray × QByteArray) :=
  plan.stored.flatMap fun p => addedLinks E s indexes p.2 p.1

/-- The calls that store the documents of a plan, on a collection without indexes. -/
def SetPlan.writes (s : Byte) (plan : SetPlan) : List (WriteOp QByteArray Blob) :=
  plan.stored.flatMap fun p => putJsonValue p.1 s p.2

/-- The document loop of `set` carries out a plan. -/
structure CarriesOut (E : Env) (db : Store) (tx : Transaction) (plan : SetPlan)
    (result : ResultEnum × List QByteArray × Transaction) : Prop where
  success_iff : result.1 = .success ↔ plan.failed = false
  ids : result.1 = .success → result.2.1 = plan.ids
  extends' : Extends E db tx result.2.2
  links : result.2.2.links E db =
    (tx.links E db).addAll (plan.links E tx.snapshotId (tx.reader E db).getIndexes)
  untouched : plan.stored = [] → result.2.2.kvdb = tx.kvdb ∧ result.2.2.observers = tx.observers
  touched : plan.stored ≠ [] → Touched E tx result.2.2
  wrote : (tx.reader E db).getIndexes = [] → Wrote E (plan.writes tx.snapshotId) tx result.2.2

theorem carriesOut_failed (ids : List QByteArray) {r : ResultEnum} {lastError : String}
    (hr : r ≠ .success) :
    CarriesOut E db tx ⟨ids, [], true⟩ (r, ids, { tx with lastError := lastError }) where
  success_iff := by simp [hr]
  ids := fun h => absurd h hr
  extends' := ⟨⟨[], rfl⟩, rfl, rfl⟩
  links := rfl
  untouched := fun _ => ⟨rfl, rfl⟩
  touched := fun h => absurd rfl h
  wrote := fun _ => wrote_nil rfl rfl

/-- Without indexes, storing a document writes its keys only. -/
theorem wrote_store_of_no_indexes (h : (tx.reader E db).getIndexes = []) (id : QByteArray)
    (o : QJsonObject) (isOld : Bool) :
    Wrote E (putJsonValue id tx.snapshotId o) tx (tx.store E db id o isOld) := by
  rw [store, getIndexes_writes putJsonValue_key_ne_indexesKey, h]
  exact (wrote_writes tx _).congr rfl rfl

/-- A plan goes on after a document was stored. -/
theorem CarriesOut.cons {plan : SetPlan} {result : ResultEnum × List QByteArray × Transaction}
    {id : QByteArray} {o : QJsonObject} {isOld : Bool}
    (h : CarriesOut E db (tx.store E db id o isOld) plan result) :
    CarriesOut E db tx { plan with stored := (id, o) :: plan.stored } result := by
  have hstore := @extends_store E db tx id o isOld
  refine ⟨h.success_iff, h.ids, hstore.trans h.extends', ?_,
    fun hnil => absurd hnil (List.cons_ne_nil _ _), fun _ => ?_, fun hindexes => ?_⟩
  · rw [h.links, links_store, ← LinkTable.addAll_append, hstore.snapshotId, hstore.indexes]
    rfl
  · have htouched : Extends E db (tx.writes E (putJsonValue id tx.snapshotId o))
        (tx.store E db id o isOld) := by
      have haux := @extends_addIndexValues E db (tx.writes E (putJsonValue id tx.snapshotId o)) o id
        ((tx.writes E (putJsonValue id tx.snapshotId o)).reader E db).getIndexes
      exact ⟨haux.kvdb, haux.snapshotId, haux.indexes⟩
    exact (htouched.touched (by simp [putJsonValue])).trans_extends h.extends'
  · have hwrote := h.wrote (hstore.indexes.trans hindexes)
    rw [hstore.snapshotId] at hwrote
    exact (wrote_store_of_no_indexes hindexes id o isOld).trans hwrote

theorem setDocuments_carriesOut (query : QJsonObject) (reply : List QJsonValue)
    (docs : List (QJsonValue × IdGen)) (ids : List QByteArray) :
    CarriesOut E db tx (setPlan E db tx.snapshotId query reply docs ids)
      (setDocuments E db query reply docs ids tx) := by
  induction docs generalizing tx ids with
  | nil =>
    exact {
      success_iff := by simp [setDocuments, setPlan]
      ids := fun _ => rfl
      extends' := .refl tx
      links := rfl
      untouched := fun _ => ⟨rfl, rfl⟩
      touched := fun h => absurd rfl h
      wrote := fun _ => wrote_nil rfl rfl }
  | cons p docs ih =>
    obtain ⟨v, gen⟩ := p
    cases v with
    | object doc =>
      rw [setDocuments, setPlan]
      cases reply.find? fun v => v.eq (.object doc) with
      | some v => exact ih _
      | none =>
        dsimp only
        cases checkQuery E query (.object doc) with
        | none => exact carriesOut_failed ids (by decide)
        | some valid =>
          cases valid with
          | false => exact ih _
          | true =>
            dsimp only
            cases hacc : accepted E db tx.snapshotId doc gen true false with
            | none =>
              obtain ⟨r, id, lastError, hr, heq⟩ := insert_of_accepted_eq_none hacc
              rw [heq]
              cases r with
              | success => exact absurd rfl hr
              | _ => exact carriesOut_failed ids (by decide)
            | some p =>
              obtain ⟨id, o, isOld⟩ := p
              rw [insert_of_accepted hacc]
              have hrest := @ih (tx.store E db id o isOld) (ids.filter (· ≠ id))
              rw [(extends_store id o isOld).snapshotId] at hrest
              exact hrest.cons
    | _ => exact ih _

end Transaction

open Transaction

variable {E : Env} {σ : Collection}

/-! ## Operations that fail before they write -/

/-- `links` of a collection: what a new transaction reads. -/
def Collection.links (E : Env) (σ : Collection) : LinkTable QByteArray QByteArray :=
  σ.newTransaction.links E σ.db

/-- The removals that end `remove` and `set` fail at the first document, or not at all. -/
def RemovesClean (E : Env) (σ : Collection) (ids : List QByteArray) : Prop :=
  FirstRefused E σ.db σ.snapshotId ids ∨
    AllRemovable E σ.db σ.snapshotId (σ.newTransaction.reader E σ.db).getIndexes (σ.links E) ids

/-- The document loop of `set` fails before it stores a document; or it does not fail, and
neither do the removals behind it, unless they fail at the first document and nothing was
stored. -/
def SetsClean (E : Env) (σ : Collection) (plan : SetPlan) : Prop :=
  if plan.failed then plan.stored = []
  else
    plan.stored = [] ∧ FirstRefused E σ.db σ.snapshotId plan.ids ∨
      AllRemovable E σ.db σ.snapshotId (σ.newTransaction.reader E σ.db).getIndexes
        ((σ.links E).addAll
          (plan.links E σ.snapshotId (σ.newTransaction.reader E σ.db).getIndexes)) plan.ids

/-- If the operation fails, it does so before it writes. -/
def FailsClean (E : Env) (σ : Collection) : TxOp → Prop
  | .insert _ _ _ _ => True
  | .removeById id ignoreReadOnlyValue =>
    removable E σ.db σ.snapshotId id ignoreReadOnlyValue = none ∨
      (σ.links E).Removable (removalLinks E σ.db σ.snapshotId
        (σ.newTransaction.reader E σ.db).getIndexes ignoreReadOnlyValue id)
  | .remove query => ∀ reply,
    find E (σ.newTransaction.reader E σ.db) query [] = (.success, reply) →
      RemovesClean E σ (reply.map Prod.snd)
  | .set query docs =>
    let reply := (find E (σ.newTransaction.reader E σ.db) query []).2
    SetsClean E σ (setPlan E σ.db σ.snapshotId query (reply.map Prod.fst) docs
      (reply.map Prod.snd))
  | .createIndex _ _ => True

/-- The operation went through, or the transaction is as it was. -/
def Untouched (tx : Transaction) (result : ResultEnum × Transaction) : Prop :=
  result.1 = .success ∨ result.2.kvdb = tx.kvdb ∧ result.2.observers = tx.observers

theorem removesClean_iff (ids : List QByteArray) :
    RemovesClean E σ ids ↔ Untouched σ.newTransaction
      (removeByIds E σ.db ids σ.newTransaction) := by
  rw [Untouched, removeByIds_success_iff, RemovesClean]
  refine ⟨fun h => h.elim (fun h => .inr (removeByIds_of_firstRefused h)) .inl, ?_⟩
  rintro (h | ⟨hkvdb, -⟩)
  · exact .inr h
  · cases ids with
    | nil => exact .inr ⟨List.forall_mem_nil _, fun pre k l post h => by simp at h⟩
    | cons id ids =>
      refine .inl (Classical.byContradiction fun hne => ?_)
      exact (@touched_removeByIds E σ.db σ.newTransaction id ids hne).kvdb_ne_new hkvdb

theorem removeById_clean_iff (id : QByteArray) (ignoreReadOnlyValue : Bool) :
    FailsClean E σ (.removeById id ignoreReadOnlyValue) ↔ Untouched σ.newTransaction
      (σ.newTransaction.removeById E σ.db id ignoreReadOnlyValue) := by
  rw [FailsClean, Untouched]
  cases hid : removable E σ.db σ.snapshotId id ignoreReadOnlyValue with
  | none =>
    obtain ⟨r, lastError, -, heq⟩ :=
      @removeById_of_removable_eq_none E σ.db σ.newTransaction id ignoreReadOnlyValue hid
    rw [heq]
    exact iff_of_true (.inl rfl) (.inr ⟨rfl, rfl⟩)
  | some p =>
    have hremoves :=
      (@removeById_of_removable E σ.db σ.newTransaction id ignoreReadOnlyValue _ _ hid).2.1
    have htouched : Touched E σ.newTransaction
        (σ.newTransaction.removeById E σ.db id ignoreReadOnlyValue).2 :=
      touched_removeById (fun h => by cases hid.symm.trans h)
    rw [hremoves.success_iff]
    refine ⟨fun h => .inl (h.resolve_left (by simp)), fun h => .inr (h.resolve_right ?_)⟩
    exact fun ⟨hkvdb, _⟩ => htouched.kvdb_ne_new hkvdb

theorem insert_untouched (doc : QJsonObject) (gen : IdGen) (overwrite ignoreReadOnlyValue : Bool) :
    Untouched σ.newTransaction
      ((TxOp.insert doc gen overwrite ignoreReadOnlyValue).run E σ.db σ.newTransaction) := by
  rw [Untouched, TxOp.run]
  cases hacc : accepted E σ.db σ.newTransaction.snapshotId doc gen overwrite ignoreReadOnlyValue with
  | none =>
    obtain ⟨r, id, lastError, -, heq⟩ := insert_of_accepted_eq_none hacc
    rw [heq]
    exact .inr ⟨rfl, rfl⟩
  | some p =>
    obtain ⟨id, o, isOld⟩ := p
    rw [insert_of_accepted hacc]
    exact .inl rfl

theorem set_clean_iff (query : QJsonObject) (docs : List (QJsonValue × IdGen)) :
    FailsClean E σ (.set query docs) ↔
      Untouched σ.newTransaction (σ.newTransaction.set E σ.db query docs) := by
  rw [FailsClean, Transaction.set]
  generalize (find E (σ.newTransaction.reader E σ.db) query []).2 = reply
  have hloop := @setDocuments_carriesOut E σ.db σ.newTransaction query
    (reply.map Prod.fst) docs (reply.map Prod.snd)
  rw [show σ.newTransaction.snapshotId = σ.snapshotId from rfl] at hloop
  generalize setPlan E σ.db σ.snapshotId query (reply.map Prod.fst) docs (reply.map Prod.snd) = plan
    at hloop ⊢
  generalize setDocuments E σ.db query _ docs _ σ.newTransaction = result at hloop ⊢
  obtain ⟨r, ids, tx⟩ := result
  rw [SetsClean]
  by_cases hr : r = .success
  · subst hr
    obtain rfl : ids = plan.ids := hloop.ids rfl
    have hall := @removeByIds_success_iff E σ.db tx plan.ids
    rw [hloop.extends'.snapshotId, hloop.extends'.indexes, hloop.links] at hall
    rw [if_neg (by simpa using hloop.success_iff.mp rfl), Untouched]
    constructor
    · rintro (⟨hnil, hfirst⟩ | h)
      · obtain ⟨hkvdb, hobservers⟩ := hloop.untouched hnil
        rw [← show tx.snapshotId = σ.snapshotId from hloop.extends'.snapshotId] at hfirst
        obtain ⟨hkvdb', hobservers'⟩ := removeByIds_of_firstRefused hfirst
        exact .inr ⟨hkvdb'.trans hkvdb, hobservers'.trans hobservers⟩
      · exact .inl (hall.mpr h)
    · rintro (h | ⟨hkvdb, -⟩)
      · exact .inr (hall.mp h)
      · -- a stored document or a removal that began would have been written
        have hnil : plan.stored = [] := Classical.byContradiction fun hne =>
          ((hloop.touched hne).trans_extends (extends_removeByIds plan.ids)).kvdb_ne_new hkvdb
        cases hids : plan.ids with
        | nil =>
          exact .inr ⟨List.forall_mem_nil _, fun pre k l post h => by simp at h⟩
        | cons id ids =>
          refine .inl ⟨hnil, Classical.byContradiction fun hne => ?_⟩
          rw [hids] at hkvdb
          refine (@touched_removeByIds E σ.db tx id ids (fun h => hne ?_)).kvdb_ne_new hkvdb
          rwa [hloop.extends'.snapshotId] at h
  · have hfailed : plan.failed = true := by simpa using mt hloop.success_iff.mpr hr
    rw [if_pos hfailed]
    have hstored : plan.stored = [] ↔ Untouched σ.newTransaction (r, tx) := by
      refine ⟨fun hnil => .inr (hloop.untouched hnil), fun h => ?_⟩
      obtain ⟨hkvdb, -⟩ := h.resolve_left hr
      exact Classical.byContradiction fun hne => (hloop.touched hne).kvdb_ne_new hkvdb
    cases r with
    | success => exact absurd rfl hr
    | _ => exact hstored

/-- **Failing clean** means that the operation goes through or has written nothing. -/
theorem failsClean_iff {op : TxOp} (hop : ∀ f n, op ≠ .createIndex f n) :
    FailsClean E σ op ↔ Untouched σ.newTransaction (op.run E σ.db σ.newTransaction) := by
  cases op with
  | insert doc gen overwrite ignoreReadOnlyValue =>
    exact iff_of_true trivial (insert_untouched doc gen overwrite ignoreReadOnlyValue)
  | removeById id ignoreReadOnlyValue => exact removeById_clean_iff id ignoreReadOnlyValue
  | remove query =>
    rw [FailsClean, TxOp.run, Transaction.remove]
    generalize find E (σ.newTransaction.reader E σ.db) query [] = result
    obtain ⟨r, reply⟩ := result
    cases r with
    | success =>
      dsimp only
      rw [← removesClean_iff]
      exact ⟨fun h => h reply rfl, fun h reply' heq => by cases heq; exact h⟩
    | _ => exact iff_of_true (fun _ h => by cases h) (.inr ⟨rfl, rfl⟩)
  | set query docs => exact set_clean_iff query docs
  | createIndex fieldName indexName => exact absurd rfl (hop fieldName indexName)

/-! ## The request -/

namespace QDocdbServer

/-- The request gets to a collection: its url leads to one that is open or can be opened. -/
structure GetsTo (E : ServerEnv) (s : QDocdbServer) (o : QDocdbLinkObject)
    (c : OpenCollection) : Prop where
  database : (s.databases o.url.dbName).isSome
  name : o.url.collName ≠ []
  collection : (s.openCollectionOf E o).collection? o.place = some c

/-- If the operation of a request without a transaction fails, the content and the replies
of its collection stay as they were. -/
def FailedChangesNothing (E : ServerEnv) (s : QDocdbServer) (client : ClientId)
    (o : QDocdbLinkObject) : Prop :=
  ∀ op c p, o.type.document? = some (-1, op) → GetsTo E s o c →
    (op.run (E.env.on c.backend) c.coll.db c.coll.newTransaction).1 ≠ .success →
    s.serve E client o = some p →
    ∃ c', p.1.collection? o.place = some c' ∧ c'.coll.db = c.coll.db ∧
      ∀ id, c'.coll.observers.reply id = c.coll.observers.reply id

/-- The operation of the request writes nothing before it fails. -/
def RequestFailsClean (E : ServerEnv) (s : QDocdbServer) (o : QDocdbLinkObject) : Prop :=
  ∀ op c, o.type.document? = some (-1, op) → GetsTo E s o c →
    FailsClean (E.env.on c.backend) c.coll op

/-- A request that gets to a collection is served there. -/
theorem serve_of_getsTo {E : ServerEnv} {s : QDocdbServer} {client : ClientId}
    {o : QDocdbLinkObject} {c : OpenCollection} (hc : GetsTo E s o c)
    (hwrite : ∀ i, o.type ≠ .writeTransaction i) (hdiscard : ∀ i, o.type ≠ .discardTransaction i)
    (hunobserve : ∀ i, o.type ≠ .unobserve i) (hlock : o.type ≠ .exclusiveLock)
    (hunlock : o.type ≠ .unlock) : s.serve E client o =
      (s.openCollectionOf E o).serveCollection E client o o.place c := by
  have hdb : (s.databases o.url.dbName).isNone = false := by
    rw [Option.isNone_eq_false_iff]
    exact hc.database
  rw [serve]
  cases htype : o.type with
  | writeTransaction i => exact absurd htype (hwrite i)
  | discardTransaction i => exact absurd htype (hdiscard i)
  | unobserve i => exact absurd htype (hunobserve i)
  | exclusiveLock => exact absurd htype hlock
  | unlock => exact absurd htype hunlock
  | _ => simp [hdb, hc.name, hc.collection]

/-- A request that changes documents runs its operation. -/
theorem serve_of_document {E : ServerEnv} {s : QDocdbServer} {client : ClientId}
    {o : QDocdbLinkObject} {op : TxOp} {c : OpenCollection}
    (ht : o.type.document? = some (-1, op)) (hc : GetsTo E s o c) :
    s.serve E client o = some ((s.openCollectionOf E o).autoCommit E o.place c op) := by
  rw [serve_of_getsTo hc, serveCollection, ht]
  · rfl
  all_goals
    intros
    intro htype
    simp [htype, LinkObjectType.document?] at ht

/-- The operations of requests. -/
theorem ne_createIndex_of_document {type : LinkObjectType} {txId : ℤ} {op : TxOp}
    (h : type.document? = some (txId, op)) (f n : QString) : op ≠ .createIndex f n := by
  rintro rfl
  cases type <;> cases h

/-- **A failed request changes nothing** when its operation fails before it writes. -/
theorem failedChangesNothing_of_failsClean {E : ServerEnv} {s : QDocdbServer}
    {client : ClientId} {o : QDocdbLinkObject} (h : RequestFailsClean E s o) :
    FailedChangesNothing E s client o := by
  intro op c p ht hc hr hp
  obtain ⟨hkvdb, hobservers⟩ :=
    ((failsClean_iff (ne_createIndex_of_document ht)).mp (h op c ht hc)).resolve_left hr
  rw [serve_of_document ht hc] at hp
  obtain rfl := Option.some.inj hp
  obtain ⟨hdb, hreply⟩ := Collection.writeTransaction_of_untouched
    (E := E.env.on c.backend) (σ := c.coll) hkvdb hobservers
  rw [autoCommit, collection?_setCollection, if_pos rfl]
  exact ⟨_, rfl, hdb, hreply⟩

/-- The document `a` with an array under `f`. -/
def arrayA : LinkObjectType :=
  .insert (-1) (QJsonObject.insert [(qs "_id", .string (qs "a"))] (qs "f") (.array [.string (qs "x")]))
    ⟨[], []⟩ false false

/-- A client makes an index of the field `f` and inserts the document `a`. -/
def indexedArray : List Event :=
  [.connected 1, .received 1 (requestD 0 (.createIndex (qs "f") (qs "i"))),
    .received 1 (requestD 1 arrayA)]

/-- Inserting the document again fails, and changes nothing. -/
theorem failedChangesNothing_indexedArray :
    ∃ s, handleAll emptyServerEnv .init indexedArray = some s ∧
      FailedChangesNothing emptyServerEnv s 1 (requestD 2 arrayA) := by
  obtain ⟨s, hs⟩ := Option.isSome_iff_exists.mp
    (show (handleAll emptyServerEnv .init indexedArray).isSome = true by decide)
  refine ⟨s, hs, failedChangesNothing_of_failsClean fun op c ht _ => ?_⟩
  cases ht
  trivial

/-- Removing the document fails, because the index has no entry for the element of the
array, and leaves the collection without it. -/
theorem not_failedChangesNothing :
    ¬ ∀ (E : ServerEnv) (s : QDocdbServer) (client : ClientId) (o : QDocdbLinkObject),
      ServerReachable E (fun _ _ => True) s → FailedChangesNothing E s client o := by
  intro h
  let o := requestD 2 (.removeId (-1) (bytes "a") false)
  let op := TxOp.removeById (bytes "a") false
  obtain ⟨s, hs, hp⟩ := exists_of_handleAll
    (E := emptyServerEnv) (p := fun s => (s.databases o.url.dbName).isSome &&
      ((s.openCollectionOf emptyServerEnv o).collection? o.place).any fun c =>
        let E := emptyServerEnv.env.on c.backend
        decide ((op.run E c.coll.db c.coll.newTransaction).1 ≠ .success) &&
        decide (((s.openCollectionOf emptyServerEnv o).autoCommit emptyServerEnv o.place c
          op).1.content o.place ≠ some c.coll.db))
    (fun _ e (_ : e ∈ indexedArray) => trivial) (by decide)
  simp only [Bool.and_eq_true, Option.any_eq_true, decide_eq_true_eq] at hp
  obtain ⟨hdb, c, hc, hr, hchanged⟩ := hp
  have hgets : GetsTo emptyServerEnv s o c := ⟨hdb, by decide, hc⟩
  obtain ⟨c', hc', hsame, -⟩ := h emptyServerEnv s 1 o hs op c _ rfl hgets hr
    (serve_of_document rfl hgets)
  exact hchanged (by rw [content, hc', Option.map_some, hsame])

end QDocdbServer

end Qdocdb
