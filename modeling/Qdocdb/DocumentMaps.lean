import Qdocdb.ErrorReports
import Qdocdb.ObserverViews
import Qdocdb.ReadOnly

/-!
# A collection as a map of documents

A collection in serial use is a map from ids to documents. A search by a well-formed query
without an `_id` answers from it: the documents that satisfy the query, in the order of their
keys, with the options applied (`SerialInv.search`). An insertion in a transaction of its own puts
one document into the map, and a removal takes one out, or the map stays (`SerialInv.insert`,
`SerialInv.removeById`). What the caller is told says which of them it was, except that a removal
of a read-only document is refused without a word.
-/

namespace Qdocdb

/-! ## Searching -/

/-- The documents that satisfy a query, in the order of their keys. -/
structure View.Lists (V : View) (query : QJsonObject) (l : List (QByteArray × QJsonObject)) :
    Prop where
  ordered : l.Pairwise fun p q => constructDocumentStartKey p.1 < constructDocumentStartKey q.1
  mem : ∀ id o, (id, o) ∈ l ↔ V id = some o ∧ Sat (.object query) (.object o)

/-- What `find` replies with before the options are applied. -/
def repliesOf (l : List (QByteArray × QJsonObject)) : List (QJsonValue × QByteArray) :=
  l.map fun p => (.object p.2, p.1)

section Search

variable {E : Env} {F : Set QByteArray} {σ : Collection} {query : QJsonObject}

/-- The documents that a loop over the documents selects. -/
theorem filter_selects (B : Backend) (db : Store) (s : Byte) :
    (enumerate B db s).filter (selects E query) = repliesOf ((documents B db s).filter fun p =>
      checkQuery E query (.object p.2) = some true) := by
  rw [documents]
  induction enumerate B db s with
  | nil => rfl
  | cons e es ih =>
    obtain ⟨v, id⟩ := e
    cases v with
    | object o =>
      rw [List.filterMap_cons, List.filter_cons, ih]
      by_cases h : checkQuery E query (.object o) = some true <;>
        simp [selects, QJsonValue.isObject, repliesOf, h]
    | _ => exact ih

theorem pairwise_documents (hF : Separated F) {db : Store} (hS : Shape F db) (B : Backend)
    (s : Byte) : (documents B db s).Pairwise fun p q =>
      constructDocumentStartKey p.1 < constructDocumentStartKey q.1 := by
  rw [documents, List.pairwise_filterMap, enumerate, List.pairwise_map]
  refine (stops_spec hF hS B s).increasing.imp_of_mem ?_
  intro it it' hit hit' hlt p hp q hq
  have hkey : ∀ it ∈ stops B db s, ∀ o, (it.value B db).1.jsonValue = .object o →
      it.beginKey = constructDocumentStartKey it.key := fun it hit o hv =>
    beginKey_of_isObject hF hS hit (by rw [hv]; rfl)
  dsimp only at hp hq
  split at hp
  · split at hq
    · rename_i o hv _ o' hv'
      obtain rfl := Option.some.inj hp
      obtain rfl := Option.some.inj hq
      rwa [← hkey it hit o hv, ← hkey it' hit' o' hv']
    · cases hq
  · cases hp

/-- **Searching** a collection without indexes by a query without an `_id`. -/
theorem SerialInv.search (hF : PlainIds F) (h : SerialInv F σ) (hq : WellFormed (.object query))
    (hid : ∀ f ∈ query, f.1 ≠ qs "_id") (options : QJsonObject) :
    ∃ l, View.Lists (visible σ.db σ.snapshotId) query l ∧
      find E (σ.reader E) query options = (.success, applyOptions (repliesOf l) options) := by
  refine ⟨(documents E.backend σ.db σ.snapshotId).filter fun p =>
      checkQuery E query (.object p.2) = some true,
    ⟨(pairwise_documents hF.separated h.good.shape E.backend σ.snapshotId).filter _,
      fun id o => ?_⟩, ?_⟩
  · obtain ⟨b, hb, hsat⟩ := checkQuery_of_wellFormed (E := E) hq (.object o)
    have hmem : (id, o) ∈ documents E.backend σ.db σ.snapshotId ↔
        id ∈ F ∧ visible σ.db σ.snapshotId id = some o :=
      h.mem_documents_iff hF.separated (R := σ.reader E)
    rw [List.mem_filter, hmem, hb, ← hsat]
    refine and_congr (and_iff_right_of_imp fun hv => ?_) (by simp)
    exact h.good.shape.mem_of_visible hF.colonFree hv
  · rw [find_of_not_indexed hq, ← filter_selects]
    · rfl
    · rintro ⟨f, hf, h' | h'⟩
      · exact hid f hf h'
      · rw [h.getIndexes_eq_nil, consultedIndex] at h'
        split at h' <;> cases h'

end Search

/-! ## Writing -/

/-- **The answer to an operation** in a transaction of its own, with the documents before and after
it. With a read-only key, a removal that is refused can look like one that went through. -/
inductive Tells (E : Env) (V : View) : TxOp → Reply → View → Prop
  | inserted {doc d o : QJsonObject} {gen : Transaction.IdGen}
    {overwrite ignoreReadOnlyValue : Bool} {id : QByteArray}
    (hid : Transaction.documentId doc gen = some (id, d))
    (ho : Transaction.StoredAs E gen d o) (hnew : overwrite = false → V id = none) :
    Tells E V (.insert doc gen overwrite ignoreReadOnlyValue) ⟨[], .insertReply id⟩
      (Function.update V id (some o))
  | notInserted {doc : QJsonObject} {gen : Transaction.IdGen} {overwrite ignoreReadOnlyValue : Bool}
    {r : Reply} (hr : r.value = .unknown) :
    Tells E V (.insert doc gen overwrite ignoreReadOnlyValue) r V
  | removed {id : QByteArray} {ignoreReadOnlyValue : Bool} :
    Tells E V (.removeById id ignoreReadOnlyValue) (.ofError []) (Function.update V id none)
  | notRemoved {id : QByteArray} {ignoreReadOnlyValue : Bool} {r : Reply}
    (hr : r.error ≠ [] ∨ E.readOnlyKey ≠ []) :
    Tells E V (.removeById id ignoreReadOnlyValue) r V

namespace SerialInv

variable {E : Env} {F : Set QByteArray} {σ : Collection}

/-- A commit that deletes stored keys goes through. -/
theorem commit_success_of_stored {B : Backend} {db : Store} {ws : List (WriteOp QByteArray Blob)}
    (h : B = .map → ∀ k, WriteOp.delete k ∈ ws → db.find? k ≠ none) :
    (commit B db ws).1 = .success := by
  refine commit_success_iff.mpr fun hB k hk => ?_
  obtain ⟨w, hw, hwk, ho⟩ := exists_mem_of_lastWrite_eq_some hk
  have hdel : w = .delete k := WriteOp.ext_key_outcome hwk ho
  exact h hB k (hdel ▸ hw)

/-- The commit of one operation goes through. -/
theorem writeTransaction_success (hF : PlainIds F) (h : SerialInv F σ) {op : TxOp}
    (hop : TxIds F op) :
    (σ.writeTransaction E (op.run E σ.db σ.newTransaction).2).1 = .success := by
  obtain ⟨ws, hws, hw⟩ := Transaction.run_wrote (E := E) σ.db
    (Collection.kvdb_newTransaction (σ := σ)) hop.onDocuments
  rw [Collection.getIndexes_newTransaction, h.getIndexes_eq_nil] at hws
  exact (Collection.writeTransaction_spec hw.kvdb).2.mpr
    (commit_success_of_stored (h.documentWrites hF hop hws).2)

theorem tells_insert (hF : PlainIds F) (h : SerialInv F σ) {doc : QJsonObject}
    {gen : Transaction.IdGen} {overwrite ignoreReadOnlyValue : Bool}
    (hop : TxIds F (.insert doc gen overwrite ignoreReadOnlyValue)) (lastError : String) :
    Tells E (visible σ.db σ.snapshotId) (.insert doc gen overwrite ignoreReadOnlyValue)
      ⟨QDocdbServer.errorText (σ.newTransaction.insert E σ.db doc gen overwrite
          ignoreReadOnlyValue).1 lastError,
        QDocdbServer.operationReply E σ.db σ.newTransaction
          (.insert doc gen overwrite ignoreReadOnlyValue)⟩
      (visible (σ.transact E (.insert doc gen overwrite ignoreReadOnlyValue)).2.db
        σ.snapshotId) := by
  cases hacc : Transaction.accepted E σ.db σ.snapshotId doc gen overwrite ignoreReadOnlyValue with
  | none =>
    have hrefused : ∃ r id lastError, r ≠ .success ∧
        σ.newTransaction.insert E σ.db doc gen overwrite ignoreReadOnlyValue =
          (r, id, { σ.newTransaction with lastError := lastError }) :=
      Transaction.insert_of_accepted_eq_none hacc
    obtain ⟨r, id, lastError', hr, heq⟩ := hrefused
    rw [(Collection.transact_insert_of_refused hacc).1]
    refine .notInserted ?_
    rw [QDocdbServer.operationReply, heq]
    exact if_neg hr
  | some p =>
    obtain ⟨id, o, isOld⟩ := p
    obtain ⟨d, hid, ho⟩ := Transaction.documentId_of_accepted hacc
    have hname : NamesId o id := Transaction.value_id_of_accepted hacc
    obtain ⟨iws, hiws, hdb, -⟩ := Collection.transact_insert_of_accepted hacc
    have hview : visible (σ.transact E (.insert doc gen overwrite ignoreReadOnlyValue)).2.db
        σ.snapshotId = Function.update (visible σ.db σ.snapshotId) id (some o) := by
      rw [← visible_putJsonValue hF (hop id d hid) h.documentStore hname, hdb]
      refine funext fun I => visible_congr fun t _ => ?_
      rw [SortedMap.applyLog_append, SortedMap.find?_applyLog_of_forall_ne _ fun w hw heq =>
        (heq ▸ (hiws w hw).isMetaKey).not_isKeyOf (isKeyOf_linkKey I t)]
    have hinsert : σ.newTransaction.insert E σ.db doc gen overwrite ignoreReadOnlyValue =
        (.success, id, σ.newTransaction.store E σ.db id o isOld) :=
      Transaction.insert_of_accepted hacc
    rw [hview, QDocdbServer.operationReply, hinsert]
    refine .inserted hid ho fun hnew => Option.eq_none_iff_forall_ne_some.mpr fun o' ho' => ?_
    -- a visible document is found, and refuses the insertion
    have hlook : getJsonValue E.backend σ.db σ.snapshotId id = .object o' :=
      SerialStore.getJsonValue_of_visible (E := E) hF.separated h (hop id d hid) ho'
    rw [Transaction.accepted, hid, Option.bind_some, hlook, hnew] at hacc
    cases hacc

theorem tells_removeById (hF : PlainIds F) (h : SerialInv F σ) {id : QByteArray}
    {ignoreReadOnlyValue : Bool} (hid : id ∈ F) :
    Tells E (visible σ.db σ.snapshotId) (.removeById id ignoreReadOnlyValue)
      (.ofError (QDocdbServer.errorText (σ.newTransaction.removeById E σ.db id
          ignoreReadOnlyValue).1
        (σ.newTransaction.removeById E σ.db id ignoreReadOnlyValue).2.lastError))
      (visible (σ.transact E (.removeById id ignoreReadOnlyValue)).2.db σ.snapshotId) := by
  obtain ⟨r, ws, hws, hr, hc, -⟩ := Collection.transact_removeById (E := E) (σ := σ) id
    ignoreReadOnlyValue
  have hout := @Transaction.removeById_outcome E σ.db σ.newTransaction id ignoreReadOnlyValue
  rw [h.getIndexes_eq_nil] at hws
  rw [hr] at hout ⊢
  rw [hc.db]
  cases hws with
  | refused hne =>
    rw [(commit_of_disjoint fun k hk => absurd hk List.not_mem_nil :
      commit E.backend σ.db [] = (.success, σ.db))]
    refine .notRemoved ?_
    cases hout with
    | success _ hsuccess => exact absurd hsuccess hne
    | silent hprotected =>
      obtain ⟨doc, -, hprotected⟩ := hprotected
      refine .inr fun hkey => ?_
      rw [Transaction.isProtected, hkey] at hprotected
      cases hprotected
    | spoken _ _ htext =>
      refine .inl ?_
      rw [Reply.ofError, QDocdbServer.errorText, if_neg hne]
      exact mt qs_eq_nil_iff.mp htext
  | @removed scan doc iws r hlook hdoc _ hnone =>
    obtain ⟨rfl, rfl⟩ := hnone rfl
    obtain ⟨hwrites, hstored⟩ := h.documentStore.documentWrites_removeVersion hF hid hlook
    have hsuccess : (commit E.backend σ.db
        (Transaction.removeVersion id σ.snapshotId scan ++ [])).1 = .success :=
      commit_success_of_stored (by rwa [List.append_nil])
    have hview : visible (commit E.backend σ.db
        (Transaction.removeVersion id σ.snapshotId scan ++ [])).2 σ.snapshotId =
          Function.update (visible σ.db σ.snapshotId) id none := by
      rw [← visible_removeVersion hF hid h.documentStore hwrites]
      exact funext fun I => visible_congr fun t _ =>
        hwrites.find?_commit (by simp) hsuccess (isKeyOf_linkKey I t)
    rw [hview]
    exact .removed

/-- **What is told**: the reply to an operation in a transaction of its own says what becomes of the
documents. -/
theorem tells (hF : PlainIds F) (h : SerialInv F σ) {op : TxOp} (hop : TxIds F op) :
    Tells E (visible σ.db σ.snapshotId) op
      ⟨QDocdbServer.errorText (op.run E σ.db σ.newTransaction).1
          (op.run E σ.db σ.newTransaction).2.lastError,
        QDocdbServer.operationReply E σ.db σ.newTransaction op⟩
      (visible (σ.transact E op).2.db σ.snapshotId) := by
  cases op with
  | insert doc gen overwrite ignoreReadOnlyValue => exact h.tells_insert hF hop _
  | removeById id ignoreReadOnlyValue => exact h.tells_removeById hF hop
  | _ => exact hop.elim

end SerialInv

end Qdocdb
