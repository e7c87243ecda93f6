import Qdocdb.FailedRequests
import Qdocdb.Find
import Qdocdb.FlatStore
import Qdocdb.Serial

/-!
# Setting the result of a query

`set` takes the documents that satisfy a query now and those that should satisfy it from now
on. A given document that is found already stays, one that satisfies the query is stored, and
one that does not is passed over; whatever else was found is removed. A document that is passed
over does not save the document with its `_id` from being removed, which is where `set` loses a
given id (`setReplaces_iff`).
-/

namespace Qdocdb

open Transaction

/-! ## What set is for -/

/-- The `_id` of a document. -/
def docId (doc : QJsonObject) : QString := (QJsonObject.value doc (qs "_id")).toQString

/-- The operation `set` on documents, each with what the id generator returns for it. -/
def setOp (query : QJsonObject) (given : List (QJsonObject × IdGen)) : TxOp :=
  .set query (given.map fun p => (.object p.1, p.2))

/-- A stored document is the one that was given, up to an added UUID, or it equals it. -/
def StandsFor (E : Env) (p : QJsonObject × IdGen) (o : QJsonObject) : Prop :=
  StoredAs E p.2 p.1 o ∨ QJsonValue.eq (.object o) (.object p.1) = true

/-- From `σ` to `σ'` the given documents that satisfy the query are stored, those that satisfied
it are removed unless their `_id` is given, and all others stay. -/
structure SetReplaces (E : Env) (σ σ' : Collection) (query : QJsonObject)
    (given : List (QJsonObject × IdGen)) : Prop where
  stored : ∀ p ∈ given, Sat (.object query) (.object p.1) → ∃ o,
    visible σ'.db σ'.snapshotId (toLatin1 (docId p.1)) = some o ∧ StandsFor E p o
  removed : ∀ id o, (∀ p ∈ given, Sat (.object query) (.object p.1) →
      toLatin1 (docId p.1) ≠ id) →
    visible σ.db σ.snapshotId id = some o → Sat (.object query) (.object o) →
    docId o ∉ given.map (fun p => docId p.1) → visible σ'.db σ'.snapshotId id = none
  kept : ∀ id, (∀ p ∈ given, Sat (.object query) (.object p.1) → toLatin1 (docId p.1) ≠ id) →
    (∀ o, visible σ.db σ.snapshotId id = some o → Sat (.object query) (.object o) →
      docId o ∈ given.map (fun p => docId p.1)) →
    visible σ'.db σ'.snapshotId id = visible σ.db σ.snapshotId id

/-- The given documents that satisfy the query have ids of their own, and a visible document
that satisfies it has the id of such a document, or of one that equals it; or none with its
`_id` is given and the loop over the documents finds it; or one is given and it does not. -/
structure SetFits (σ : Collection) (query : QJsonObject) (given : List (QJsonObject × IdGen)) :
    Prop where
  distinct : given.Pairwise fun p q => Sat (.object query) (.object p.1) →
    Sat (.object query) (.object q.1) → toLatin1 (docId p.1) ≠ toLatin1 (docId q.1)
  accounted : ∀ id o, visible σ.db σ.snapshotId id = some o → Sat (.object query) (.object o) →
    (∃ p ∈ given, toLatin1 (docId p.1) = id ∧ (Sat (.object query) (.object p.1) ∨
        QJsonValue.eq (.object o) (.object p.1) = true)) ∨
      (docId o ∈ given.map (fun p => docId p.1) ↔
        σ.db.find? (constructDocumentStartKey id) = none)

theorem docId_of_value {doc : QJsonObject} {sid : QString}
    (h : QJsonObject.value doc (qs "_id") = .string sid) : docId doc = sid := by
  rw [docId, h]
  rfl

/-! ## The plan -/

section Plan

variable {E : Env} {db : Store} {s : Byte} {query : QJsonObject} {reply : List QJsonValue}

/-- What is in the reply has an `_id`. -/
def Named (reply : List QJsonValue) : Prop :=
  ∀ v ∈ reply, ∃ o sid, v = .object o ∧ QJsonObject.value o (qs "_id") = .string sid

/-- The given document is in the reply, or satisfies the query. -/
def Keeps (query : QJsonObject) (reply : List QJsonValue) (doc : QJsonObject) : Prop :=
  (∃ v ∈ reply, v.eq (.object doc) = true) ∨ Sat (.object query) (.object doc)

/-- What the plan comes to: it stores given documents that satisfy the query, all of them but
those in the reply, and keeps the ids of both. -/
structure PlanSpec (E : Env) (db : Store) (s : Byte) (query : QJsonObject)
    (reply : List QJsonValue) (given : List (QJsonObject × IdGen)) (ids : List QByteArray)
    (plan : SetPlan) : Prop where
  of_stored : ∀ p ∈ plan.stored, ∃ g ∈ given, Sat (.object query) (.object g.1) ∧
    ∃ isOld, accepted E db s g.1 g.2 true false = some (p.1, p.2, isOld)
  stored : ∀ g ∈ given, Sat (.object query) (.object g.1) →
    (∃ v ∈ reply, v.eq (.object g.1) = true) ∨
      ∃ p ∈ plan.stored, ∃ isOld, accepted E db s g.1 g.2 true false = some (p.1, p.2, isOld)
  mem_ids : ∀ id, id ∈ plan.ids ↔ id ∈ ids ∧
    ∀ g ∈ given, Keeps query reply g.1 → toLatin1 (docId g.1) ≠ id

/-- A document that is found in the reply has the `_id` that it is found with. -/
theorem docId_of_find? (hnamed : Named reply) {doc : QJsonObject} {v : QJsonValue}
    (h : reply.find? (fun v => v.eq (.object doc)) = some v) :
    (QJsonObject.value v.toObject (qs "_id")).toQString = docId doc := by
  obtain ⟨o, sid, rfl, hsid⟩ := hnamed v (List.mem_of_find?_eq_some h)
  have heq : QJsonValue.eq (.object o) (.object doc) = true := by simpa using List.find?_some h
  rw [docId_of_value (QJsonValue.value_of_eq_object heq hsid), QJsonValue.toObject, hsid]
  rfl

/-- The id of a document with an `_id` is that of the document stored for it. -/
theorem id_of_accepted {doc o : QJsonObject} {gen : IdGen} {id : QByteArray} {isOld : Bool}
    {sid : QString} (hsid : QJsonObject.value doc (qs "_id") = .string sid)
    (h : accepted E db s doc gen true false = some (id, o, isOld)) :
    id = toLatin1 (docId doc) ∧ StoredAs E gen doc o := by
  obtain ⟨d, hd, hstored⟩ := documentId_of_accepted h
  have hcontains : QJsonObject.contains doc (qs "_id") = true :=
    QJsonObject.contains_of_value_ne (by simp [hsid])
  rw [documentId, if_pos hcontains, hsid] at hd
  obtain ⟨rfl, rfl⟩ := Prod.mk.inj (Option.some.inj hd)
  exact ⟨by rw [docId_of_value hsid], hstored⟩

/-- **The document loop** of `set`, when it does not fail. By induction on the documents; each
of them takes one id out of the list. -/
theorem setPlan_spec (hq : WellFormed (.object query)) (hnamed : Named reply)
    {given : List (QJsonObject × IdGen)}
    (hgiven : ∀ p ∈ given, ∃ sid, QJsonObject.value p.1 (qs "_id") = .string sid)
    {ids : List QByteArray} (hids : [] ∉ ids)
    (h : (setPlan E db s query reply (given.map fun p => (.object p.1, p.2)) ids).failed = false) :
    PlanSpec E db s query reply given ids
      (setPlan E db s query reply (given.map fun p => (.object p.1, p.2)) ids) := by
  induction given generalizing ids with
  | nil => exact ⟨by simp [setPlan], by simp, by simp [setPlan]⟩
  | cons g given ih =>
    obtain ⟨doc, gen⟩ := g
    obtain ⟨⟨sid, hsid⟩, hrest⟩ := List.forall_mem_cons.mp hgiven
    rw [List.map_cons, setPlan] at h ⊢
    have hne : ∀ id', [] ∉ ids.filter (· ≠ id') := fun _ hmem => hids (List.mem_of_mem_filter hmem)
    -- one id less
    have hstep : ∀ {plan : SetPlan} {keeps : Prop} {id' : QByteArray},
        PlanSpec E db s query reply given (ids.filter (· ≠ id')) plan →
        (Keeps query reply doc ↔ keeps) → (keeps → id' = toLatin1 (docId doc)) →
        (¬ keeps → id' = []) → ∀ id, id ∈ plan.ids ↔ id ∈ ids ∧
          ∀ g ∈ (doc, gen) :: given, Keeps query reply g.1 → toLatin1 (docId g.1) ≠ id := by
      intro plan keeps id' hplan hkeeps hid hnil id
      rw [hplan.mem_ids id, List.mem_filter, List.forall_mem_cons, and_assoc]
      refine and_congr_right fun hmem => and_congr_left fun _ => ?_
      have hne : id ≠ [] := fun heq => hids (heq ▸ hmem)
      dsimp only
      rw [hkeeps]
      by_cases hk : keeps
      · rw [hid hk]
        simp [hk, ne_comm]
      · rw [hnil hk]
        simp [hk, hne]
    cases hfound : reply.find? fun v => v.eq (.object doc) with
    | some v =>
      rw [hfound] at h
      dsimp only at h ⊢
      rw [docId_of_find? hnamed hfound] at h ⊢
      have hplan := ih hrest (hne _) h
      have hin : ∃ v ∈ reply, v.eq (.object doc) = true :=
        ⟨v, List.mem_of_find?_eq_some hfound, by simpa using List.find?_some hfound⟩
      refine ⟨fun p hp => ?_, fun g hg hsat => ?_, ?_⟩
      · obtain ⟨g, hg, hacc⟩ := hplan.of_stored p hp
        exact ⟨g, List.mem_cons_of_mem _ hg, hacc⟩
      · rcases List.mem_cons.mp hg with rfl | hg
        · exact .inl hin
        · exact hplan.stored g hg hsat
      · exact hstep hplan (iff_true_intro (.inl hin)) (fun _ => rfl) fun hn => absurd trivial hn
    | none =>
      have hout : ¬ ∃ v ∈ reply, v.eq (.object doc) = true := by simpa using hfound
      have hkeeps : Keeps query reply doc ↔ Sat (.object query) (.object doc) := by
        rw [Keeps]
        exact or_iff_right hout
      obtain ⟨b, hcheck, hb⟩ := @checkQuery_of_wellFormed E query hq (.object doc)
      rw [hfound, hcheck] at h
      rw [hcheck]
      cases b with
      | false =>
        have hnot : ¬ Sat (.object query) (.object doc) := fun hsat =>
          Bool.false_ne_true (hb.mpr hsat)
        have hplan := ih hrest (hne _) h
        refine ⟨fun p hp => ?_, fun g hg hsat => ?_, ?_⟩
        · obtain ⟨g, hg, hacc⟩ := hplan.of_stored p hp
          exact ⟨g, List.mem_cons_of_mem _ hg, hacc⟩
        · rcases List.mem_cons.mp hg with rfl | hg
          · exact absurd hsat hnot
          · exact hplan.stored g hg hsat
        · exact hstep hplan hkeeps (fun hsat => absurd hsat hnot) fun _ => rfl
      | true =>
        have hsat := hb.mp rfl
        cases hacc : accepted E db s doc gen true false with
        | none =>
          rw [hacc] at h
          cases h
        | some p =>
          obtain ⟨id, o, isOld⟩ := p
          rw [hacc] at h
          obtain ⟨rfl, -⟩ := id_of_accepted hsid hacc
          have hplan := ih hrest (hne _) h
          refine ⟨fun p hp => ?_, fun g hg hg' => ?_, ?_⟩
          · rcases List.mem_cons.mp hp with rfl | hp
            · exact ⟨_, List.mem_cons_self, hsat, isOld, hacc⟩
            · obtain ⟨g, hg, hacc⟩ := hplan.of_stored p hp
              exact ⟨g, List.mem_cons_of_mem _ hg, hacc⟩
          · rcases List.mem_cons.mp hg with rfl | hg
            · exact .inr ⟨_, List.mem_cons_self, isOld, hacc⟩
            · refine (hplan.stored g hg hg').imp_right ?_
              rintro ⟨p, hp, hacc⟩
              exact ⟨p, List.mem_cons_of_mem _ hp, hacc⟩
          · have hids := hstep hplan hkeeps (fun _ => rfl) fun hn => absurd hsat hn
            exact hids

end Plan

/-! ## What is found -/

section Found

variable {E : Env} {σ : Collection} {F : Set QByteArray} {query : QJsonObject}

/-- The documents that `set` finds, with their ids. -/
def selectedDocuments (E : Env) (σ : Collection) (query : QJsonObject) :
    List (QJsonValue × QByteArray) :=
  (enumerate E.backend σ.db σ.snapshotId).filter (selects E query)

/-- Without indexes and an `_id`, `find` loops over the documents. -/
theorem find_newTransaction (hindexes : σ.db.find? indexesKey = none)
    (hid : ∀ f ∈ query, f.1 ≠ qs "_id") (hq : WellFormed (.object query)) :
    find E (σ.newTransaction.reader E σ.db) query [] = (.success, selectedDocuments E σ query) := by
  have hnil : (σ.newTransaction.reader E σ.db).getIndexes = [] := by
    rw [Collection.getIndexes_newTransaction, Collection.getIndexes_eq_nil hindexes]
  rw [find_of_not_indexed hq]
  · rfl
  · rintro ⟨f, hf, h | h⟩
    · exact hid f hf h
    · rw [hnil, consultedIndex] at h
      split at h <;> cases h

/-- The documents found are the visible ones with a start key that satisfy the query. -/
theorem mem_selectedDocuments_iff (hF : Separated F) (hgood : GoodStore F σ.db)
    (hq : WellFormed (.object query)) {v : QJsonValue} {id : QByteArray} :
    (v, id) ∈ selectedDocuments E σ query ↔ ∃ o, v = .object o ∧ id ∈ F ∧
      σ.db.find? (constructDocumentStartKey id) ≠ none ∧
      visible σ.db σ.snapshotId id = some o ∧ Sat (.object query) (.object o) := by
  rw [selectedDocuments, List.mem_filter, selects_iff hq]
  constructor
  · rintro ⟨hmem, ⟨o, rfl⟩, hsat⟩
    obtain ⟨hF', hstart, hvisible⟩ :=
      (mem_documents_iff hF hgood.shape).mp (mem_documents_iff_enumerate.mpr hmem)
    exact ⟨o, rfl, hF', hstart, hvisible, hsat⟩
  · rintro ⟨o, rfl, hF', hstart, hvisible, hsat⟩
    refine ⟨mem_documents_iff_enumerate.mp ?_, ⟨o, rfl⟩, hsat⟩
    exact (mem_documents_iff hF hgood.shape).mpr ⟨hF', hstart, hvisible⟩

end Found

/-! ## The writes -/

section Writes

variable {E : Env} {db : Store} {tx : Transaction}

/-- The calls that take versions of the ids away, on a collection without indexes. -/
def removalWrites (E : Env) (db : Store) (s : Byte) (ids : List QByteArray) :
    List (WriteOp QByteArray Blob) :=
  ids.flatMap fun id => removeVersion id s ((seekValue E.backend db s id).getD .init)

/-- **Removals** that go through write on the versions only, without indexes. -/
theorem removeByIds_removalWrites {ids : List QByteArray}
    (hindexes : (tx.reader E db).getIndexes = [])
    (hsuccess : (removeByIds E db ids tx).1 = .success) :
    Wrote E (removalWrites E db tx.snapshotId ids) tx (removeByIds E db ids tx).2 := by
  induction ids generalizing tx with
  | nil => exact wrote_nil rfl rfl
  | cons id ids ih =>
    have hextends := @extends_removeById E db tx id false
    rw [removeByIds] at hsuccess ⊢
    cases hrem : removable E db tx.snapshotId id false with
    | none =>
      obtain ⟨r, lastError, hr, heq⟩ := removeById_of_removable_eq_none hrem
      rw [heq] at hsuccess
      cases r with
      | success => exact absurd rfl hr
      | _ => cases hsuccess
    | some p =>
      have hfirst := removeById_eq hrem
      rw [hindexes, removeFromIndexes] at hfirst
      rw [hfirst] at hsuccess hextends ⊢
      have hrest := ih (hextends.indexes.trans hindexes) hsuccess
      have hwrote : Wrote E (removeVersion id tx.snapshotId p.2) tx
          (tx.removeById E db id false).2 := by
        rw [hfirst]
        exact (wrote_writes tx _).congr rfl rfl
      rw [hfirst] at hwrote
      rw [removalWrites, List.flatMap_cons, (removable_eq_some hrem).1]
      exact hwrote.trans hrest

/-- The end of `set`: what the loop over the documents leaves is removed. -/
def thenRemove (E : Env) (db : Store) :
    ResultEnum × List QByteArray × Transaction → ResultEnum × Transaction
  | (.success, ids, tx) => removeByIds E db ids tx
  | (r, _, tx) => (r, tx)

theorem set_eq_thenRemove (query : QJsonObject) (docs : List (QJsonValue × IdGen)) :
    tx.set E db query docs =
      thenRemove E db (setDocuments E db query ((find E (tx.reader E db) query []).2.map Prod.fst)
        docs ((find E (tx.reader E db) query []).2.map Prod.snd) tx) := by
  rw [Transaction.set]
  rcases setDocuments E db query _ docs _ tx with ⟨r, ids, tx'⟩
  cases r <;> rfl

end Writes

section Committed

variable {E : Env} {σ σ' : Collection} {F : Set QByteArray} {plan : SetPlan} {id : QByteArray}

/-- All calls of a `set` that follows the plan. -/
def setWrites (E : Env) (σ : Collection) (plan : SetPlan) : List (WriteOp QByteArray Blob) :=
  plan.writes σ.snapshotId ++ removalWrites E σ.db σ.snapshotId plan.ids

/-- Each call is about a document that is stored, or about one that is removed. -/
theorem of_mem_setWrites {w : WriteOp QByteArray Blob} (hw : w ∈ setWrites E σ plan) :
    (∃ p ∈ plan.stored, w ∈ putJsonValue p.1 σ.snapshotId p.2) ∨
      ∃ id ∈ plan.ids, w ∈ removeVersion id σ.snapshotId
        ((seekValue E.backend σ.db σ.snapshotId id).getD .init) :=
  (List.mem_append.mp hw).imp List.mem_flatMap.mp List.mem_flatMap.mp

/-- A plan for a store of ids in `F`: what is removed is found, and not stored as well. -/
structure PlanFits (F : Set QByteArray) (db : Store) (plan : SetPlan) : Prop where
  stored : ∀ p ∈ plan.stored, p.1 ∈ F
  removed : ∀ id ∈ plan.ids, id ∈ F ∧ db.find? (constructDocumentStartKey id) ≠ none
  disjoint : ∀ p ∈ plan.stored, p.1 ∉ plan.ids

/-- A call on a version key of an id stores a document for it, or takes its version away. -/
theorem PlanFits.of_linkKey (hF : ColonFree F) (hplan : PlanFits F σ.db plan) {t : Byte}
    {w : WriteOp QByteArray Blob} (hw : w ∈ setWrites E σ plan)
    (hkey : w.key = constructDocumentLinkKey id t) :
    (∃ o, (id, o) ∈ plan.stored ∧ t = σ.snapshotId ∧ w.outcome = some (.document o)) ∨
      id ∈ plan.ids ∧ w ∈ removeVersion id σ.snapshotId
        ((seekValue E.backend σ.db σ.snapshotId id).getD .init) := by
  rcases of_mem_setWrites hw with ⟨⟨id', o⟩, hp, hw⟩ | ⟨id', hid', hw⟩
  · have hkeyOf := hkey ▸ putJsonValue_key hw
    obtain rfl := hF.eq_of_isKeyOf_linkKey (hplan.stored _ hp) hkeyOf
    refine .inl ⟨o, hp, ?_⟩
    rw [putJsonValue, List.mem_pair] at hw
    rcases hw with rfl | rfl
    · exact absurd hkey (hF.startKey_ne_linkKey (hplan.stored _ hp) t)
    · exact ⟨(constructDocumentLinkKey_inj.mp hkey).2.symm, rfl⟩
  · have hkeyOf := hkey ▸ removeVersion_key hw
    obtain rfl := hF.eq_of_isKeyOf_linkKey (hplan.removed _ hid').1 hkeyOf
    exact .inr ⟨hid', hw⟩

variable (hF : SafeIds F) (hgood : GoodStore F σ.db) (hplan : PlanFits F σ.db plan)
  (hcommit : (commit E.backend σ.db (setWrites E σ plan)).1 = .success)
  (hdb : σ'.db = (commit E.backend σ.db (setWrites E σ plan)).2)
include hF hplan hdb

/-- Other ids see what they saw. -/
theorem visible_of_other (hstored : id ∉ plan.stored.map Prod.fst) (hids : id ∉ plan.ids) :
    visible σ'.db σ.snapshotId id = visible σ.db σ.snapshotId id := by
  refine visible_congr fun t _ => ?_
  rw [hdb, find?_commit_of_forall_ne]
  intro w hw hkey
  rcases hplan.of_linkKey hF.plain.colonFree hw hkey with ⟨o, hp, -⟩ | ⟨hid, -⟩
  · exact hstored (List.mem_map_of_mem hp)
  · exact hids hid

include hcommit

/-- **Stored**: one of the documents stored for an id is visible. -/
theorem exists_visible_of_stored (hstored : id ∈ plan.stored.map Prod.fst) :
    ∃ o, (id, o) ∈ plan.stored ∧ visible σ'.db σ.snapshotId id = some o := by
  obtain ⟨⟨id', o⟩, hp, rfl⟩ := List.mem_map.mp hstored
  have hput : .put (constructDocumentLinkKey id' σ.snapshotId) (.document o) ∈
      setWrites E σ plan := by
    apply List.mem_append_left
    exact List.mem_flatMap.mpr ⟨_, hp, by simp [putJsonValue]⟩
  cases hlast : lastWrite (setWrites E σ plan)
      (constructDocumentLinkKey id' σ.snapshotId) with
  | none => exact absurd rfl (lastWrite_eq_none_iff.mp hlast _ hput)
  | some outcome =>
    obtain ⟨w, hw, hkey, rfl⟩ := exists_mem_of_lastWrite_eq_some hlast
    rcases hplan.of_linkKey hF.plain.colonFree hw hkey with ⟨o', hp', -, ho⟩ | ⟨hid, -⟩
    · rw [ho] at hlast
      refine ⟨o', hp', visible_of_document ?_⟩
      rw [hdb, find?_commit_of_put hcommit hlast]
    · exact absurd hid (hplan.disjoint _ hp)

include hgood

/-- **Removed**: nothing is visible of an id that is left over. -/
theorem visible_of_removed (hid : id ∈ plan.ids) : visible σ'.db σ.snapshotId id = none := by
  obtain ⟨hidF, hstart⟩ := hplan.removed id hid
  obtain ⟨vs, -, -, hscan⟩ := @seekValue_of_startKey F hF.separated σ.db hgood.shape E.backend
    σ.snapshotId id hidF hstart
  set scan := scanList σ.snapshotId vs .init with hdef
  clear_value scan
  have honly : ∀ t, ∀ w ∈ setWrites E σ plan, w.key = constructDocumentLinkKey id t →
      w ∈ removeVersion id σ.snapshotId scan := by
    intro t w hw hkey
    rcases hplan.of_linkKey hF.plain.colonFree hw hkey with ⟨o, hp, -⟩ | ⟨-, hmem⟩
    · exact absurd hid (hplan.disjoint _ hp)
    · rwa [hscan, Option.getD_some] at hmem
  have hall : ∀ w ∈ removeVersion id σ.snapshotId scan, w ∈ setWrites E σ plan := by
    intro w hw
    refine List.mem_append_right _ (List.mem_flatMap.mpr ⟨id, hid, ?_⟩)
    rwa [hscan, Option.getD_some]
  by_cases hc : scan.snapshotId ≠ some σ.snapshotId ∨ scan.isNaked = false
  · -- a tombstone
    rw [removeVersion, if_pos hc] at honly hall
    have hlast : lastWrite (setWrites E σ plan) (constructDocumentLinkKey id σ.snapshotId) =
        some (some .tombstone) := by
      refine lastWrite_eq_of_forall (w := .put _ .tombstone) (hall _ List.mem_cons_self) ?_
      intro w hw hkey
      rw [List.mem_singleton.mp (honly _ w hw hkey)]
    rw [visible]
    apply History.view_of_some
    rw [history_val, hdb, find?_commit_of_put hcommit hlast]
    rfl
  · -- the version and its start key disappear, and there was no older version
    rw [removeVersion, if_neg hc] at honly hall
    simp only [not_or, not_not, Bool.not_eq_false] at hc
    obtain ⟨-, holder⟩ := (seekValue_isNaked_iff hF.separated hgood.shape hidF hstart hscan).mp hc
    refine visible_eq_none_of_forall fun t ht => ?_
    rcases ht.lt_or_eq with hlt | rfl
    · rw [hdb, find?_commit_of_forall_ne, holder t hlt]
      intro w hw hkey
      rcases List.mem_pair.mp (honly t w hw hkey) with rfl | rfl
      · exact hlt.ne (constructDocumentLinkKey_inj.mp hkey).2.symm
      · exact hF.plain.colonFree.startKey_ne_linkKey hidF t hkey
    · have hnoPut : ∀ v, .put (constructDocumentLinkKey id σ.snapshotId) v ∉
          setWrites E σ plan := by
        intro v hv
        simpa using honly _ _ hv rfl
      have hlastPut := lastPut_eq_none_iff.mpr hnoPut
      rw [hdb, find?_commit hcommit fun _ _ => hlastPut]
      exact SortedMap.find?_applyLog_of_delete _ (hall _ List.mem_cons_self) hnoPut

end Committed

/-! ## The result -/

section Result

variable {E : Env} {σ σ' : Collection} {F : Set QByteArray} {query : QJsonObject}
  {given : List (QJsonObject × IdGen)} {plan : SetPlan}

/-- A document stored for a given one has its `_id`. -/
theorem StandsFor.docId_eq {p : QJsonObject × IdGen} {o : QJsonObject} {sid sid' : QString}
    (h : StandsFor E p o) (hp : QJsonObject.value p.1 (qs "_id") = .string sid)
    (ho : QJsonObject.value o (qs "_id") = .string sid') : docId o = docId p.1 := by
  rcases h with (rfl | rfl) | heq
  · rfl
  · rw [docId, value_id_withUUID (by simp [hp]), docId]
  · rw [docId_of_value ho, docId_of_value (QJsonValue.value_of_eq_object heq ho)]

theorem docId_of_visible (hgood : GoodStore F σ.db) {id : QByteArray} {o : QJsonObject}
    (ho : visible σ.db σ.snapshotId id = some o) :
    QJsonObject.value o (qs "_id") = .string (docId o) ∧ toLatin1 (docId o) = id := by
  obtain ⟨sid, hsid, hlatin⟩ := hgood.id_of_visible ho
  rw [docId_of_value hsid]
  exact ⟨hsid, hlatin⟩

/-- The values that `set` compares the given documents with. -/
def replyOf (E : Env) (σ : Collection) (query : QJsonObject) : List QJsonValue :=
  (selectedDocuments E σ query).map Prod.fst

variable (hF : SafeIds F) (hgood : GoodStore F σ.db) (hq : WellFormed (.object query))
include hF hgood hq

/-- A given document that is found is equal to the document visible under its id. -/
theorem exists_visible_of_mem_replyOf {doc : QJsonObject} {v : QJsonValue}
    (hv : v ∈ replyOf E σ query) (heq : v.eq (.object doc) = true) :
    ∃ o, visible σ.db σ.snapshotId (toLatin1 (docId doc)) = some o ∧
      QJsonValue.eq (.object o) (.object doc) = true ∧ docId o = docId doc := by
  obtain ⟨⟨v, id⟩, hmem, rfl⟩ := List.mem_map.mp hv
  obtain ⟨o, rfl, -, -, ho, -⟩ := (mem_selectedDocuments_iff hF.separated hgood hq).mp hmem
  obtain ⟨hsid, hlatin⟩ := docId_of_visible hgood ho
  have hdoc : docId doc = docId o := docId_of_value (QJsonValue.value_of_eq_object heq hsid)
  exact ⟨o, by rw [hdoc, hlatin, ho], heq, hdoc.symm⟩

theorem named_replyOf : Named (replyOf E σ query) := by
  intro v hv
  obtain ⟨⟨v, id⟩, hmem, rfl⟩ := List.mem_map.mp hv
  obtain ⟨o, rfl, -, -, ho, -⟩ := (mem_selectedDocuments_iff hF.separated hgood hq).mp hmem
  exact ⟨o, docId o, rfl, (docId_of_visible hgood ho).1⟩

section Spec

variable (hspec : PlanSpec E σ.db σ.snapshotId query (replyOf E σ query) given
    ((selectedDocuments E σ query).map Prod.snd) plan)
  (hgiven : ∀ p ∈ given, ∃ sid, QJsonObject.value p.1 (qs "_id") = .string sid)
include hspec hgiven

omit hF hgood hq in
theorem of_mem_stored {p : QByteArray × QJsonObject} (hp : p ∈ plan.stored) :
    ∃ g ∈ given, Sat (.object query) (.object g.1) ∧ toLatin1 (docId g.1) = p.1 ∧
      StoredAs E g.2 g.1 p.2 := by
  obtain ⟨g, hg, hsat, isOld, hacc⟩ := hspec.of_stored p hp
  obtain ⟨sid, hsid⟩ := hgiven g hg
  obtain ⟨hid, hstored⟩ := id_of_accepted hsid hacc
  exact ⟨g, hg, hsat, hid.symm, hstored⟩

omit hgiven in
/-- What is left over was found, and no document that is kept has its id. -/
theorem mem_planIds_iff {id : QByteArray} : id ∈ plan.ids ↔
    (∃ o, id ∈ F ∧ σ.db.find? (constructDocumentStartKey id) ≠ none ∧
      visible σ.db σ.snapshotId id = some o ∧ Sat (.object query) (.object o)) ∧
    ∀ g ∈ given, Keeps query (replyOf E σ query) g.1 → toLatin1 (docId g.1) ≠ id := by
  rw [hspec.mem_ids, List.mem_map]
  refine and_congr_left fun _ => ⟨?_, ?_⟩
  · rintro ⟨⟨v, id⟩, hmem, rfl⟩
    obtain ⟨o, -, h⟩ := (mem_selectedDocuments_iff hF.separated hgood hq).mp hmem
    exact ⟨o, h⟩
  · rintro ⟨o, h⟩
    exact ⟨(.object o, id),
      (mem_selectedDocuments_iff hF.separated hgood hq).mpr ⟨o, rfl, h⟩, rfl⟩

theorem planFits (hids : ∀ p ∈ given, toLatin1 (docId p.1) ∈ F) : PlanFits F σ.db plan where
  stored := by
    intro p hp
    obtain ⟨g, hg, -, hid, -⟩ := of_mem_stored hspec hgiven hp
    exact hid ▸ hids g hg
  removed := by
    intro id hid
    obtain ⟨⟨o, hidF, hstart, -⟩, -⟩ := (mem_planIds_iff hF hgood hq hspec).mp hid
    exact ⟨hidF, hstart⟩
  disjoint := by
    intro p hp hid
    obtain ⟨g, hg, hsat, hgid, -⟩ := of_mem_stored hspec hgiven hp
    exact ((mem_planIds_iff hF hgood hq hspec).mp hid).2 g hg (.inr hsat) hgid

end Spec

/-- **set** that succeeds has carried out a plan and committed its calls. -/
theorem exists_plan (hindexes : σ.db.find? indexesKey = none)
    (hid : ∀ f ∈ query, f.1 ≠ qs "_id")
    (hgiven : ∀ p ∈ given, ∃ sid, QJsonObject.value p.1 (qs "_id") = .string sid)
    (hsuccess : (σ.transact E (setOp query given)).1 = .success) :
    ∃ plan, PlanSpec E σ.db σ.snapshotId query (replyOf E σ query) given
        ((selectedDocuments E σ query).map Prod.snd) plan ∧
      (commit E.backend σ.db (setWrites E σ plan)).1 = .success ∧
      (σ.transact E (setOp query given)).2.db =
        (commit E.backend σ.db (setWrites E σ plan)).2 := by
  have hnone : (σ.newTransaction.reader E σ.db).getIndexes = [] := by
    rw [Collection.getIndexes_newTransaction, Collection.getIndexes_eq_nil hindexes]
  have hok := Collection.run_of_transact_success hsuccess
  have hloop := @setDocuments_carriesOut E σ.db σ.newTransaction query (replyOf E σ query)
    (given.map fun p => (.object p.1, p.2)) ((selectedDocuments E σ query).map Prod.snd)
  rw [show σ.newTransaction.snapshotId = σ.snapshotId from rfl] at hloop
  generalize hplan : setPlan E σ.db σ.snapshotId query (replyOf E σ query)
    (given.map fun p => (.object p.1, p.2)) ((selectedDocuments E σ query).map Prod.snd) = plan
    at hloop
  generalize hresult : setDocuments E σ.db query (replyOf E σ query)
    (given.map fun p => (.object p.1, p.2)) ((selectedDocuments E σ query).map Prod.snd)
    σ.newTransaction = result at hloop
  have hrun : (setOp query given).run E σ.db σ.newTransaction =
      thenRemove E σ.db result := by
    rw [setOp, TxOp.run, set_eq_thenRemove, find_newTransaction hindexes hid hq, ← hresult]
    rfl
  rw [hrun] at hok
  obtain ⟨r, ids, tx⟩ := result
  cases r with
  | success =>
    dsimp only [thenRemove] at hrun hok
    obtain rfl : ids = plan.ids := hloop.ids rfl
    have hwrote := hloop.wrote hnone
    have hremoved := removeByIds_removalWrites (hloop.extends'.indexes.trans hnone) hok
    rw [show tx.snapshotId = σ.snapshotId from hloop.extends'.snapshotId] at hremoved
    have hall := hwrote.trans hremoved
    rw [← hrun] at hall
    have hne : [] ∉ (selectedDocuments E σ query).map Prod.snd := by
      intro hmem
      obtain ⟨⟨v, id⟩, hmem, rfl⟩ := List.mem_map.mp hmem
      obtain ⟨o, -, hnilF, -⟩ := (mem_selectedDocuments_iff hF.separated hgood hq).mp hmem
      exact hF.ne_nil _ hnilF rfl
    have hspec := @setPlan_spec E σ.db σ.snapshotId query (replyOf E σ query) hq
      (named_replyOf hF hgood hq) given hgiven _ hne (by rw [hplan]; exact hloop.success_iff.mp rfl)
    rw [hplan] at hspec
    exact ⟨plan, hspec, Collection.commit_of_transact_success hall hsuccess,
      (Collection.transact_spec _ hall).1.db⟩
  | _ => cases hok

/-- A given document that keeps an id satisfies the query, or is the document of the id. -/
theorem of_keeps {id : QByteArray} {o : QJsonObject}
    (ho : visible σ.db σ.snapshotId id = some o) {g : QJsonObject × IdGen}
    (hkeeps : Keeps query (replyOf E σ query) g.1) (hid : toLatin1 (docId g.1) = id) :
    QJsonValue.eq (.object o) (.object g.1) = true ∧ docId o = docId g.1 ∨
      Sat (.object query) (.object g.1) := by
  rcases hkeeps with ⟨v, hv, heq⟩ | hsat
  · obtain ⟨o', ho', heq', hdoc⟩ := exists_visible_of_mem_replyOf hF hgood hq hv heq
    rw [hid] at ho'
    obtain rfl : o = o' := Option.some.inj (ho.symm.trans ho')
    exact .inl ⟨heq', hdoc⟩
  · exact .inr hsat

/-! ### The plan, carried out -/

omit hF hgood hq

/-- `σ'` is `σ` after the calls of the plan for the given documents. -/
structure Executed (E : Env) (F : Set QByteArray) (σ σ' : Collection) (query : QJsonObject)
    (given : List (QJsonObject × IdGen)) (plan : SetPlan) : Prop where
  spec : PlanSpec E σ.db σ.snapshotId query (replyOf E σ query) given
    ((selectedDocuments E σ query).map Prod.snd) plan
  fits : PlanFits F σ.db plan
  commit : (commit E.backend σ.db (setWrites E σ plan)).1 = .success
  db : σ'.db = (Qdocdb.commit E.backend σ.db (setWrites E σ plan)).2
  snapshotId : σ'.snapshotId = σ.snapshotId

namespace Executed

variable (h : Executed E F σ σ' query given plan)
  (hgiven : ∀ p ∈ given, ∃ sid, QJsonObject.value p.1 (qs "_id") = .string sid)
include h hgiven

/-- Nothing is stored for an id that no given document with it satisfies the query. -/
theorem notMem_stored {id : QByteArray}
    (hnosat : ∀ p ∈ given, Sat (.object query) (.object p.1) → toLatin1 (docId p.1) ≠ id) :
    id ∉ plan.stored.map Prod.fst := by
  intro hin
  obtain ⟨p, hp, rfl⟩ := List.mem_map.mp hin
  obtain ⟨g, hg, hsat, hgid, -⟩ := of_mem_stored h.spec hgiven hp
  exact hnosat g hg hsat hgid

include hF hgood hq

omit hq in
/-- What is visible afterwards has an `_id`. -/
theorem exists_value_id {id : QByteArray} {o : QJsonObject}
    (ho : visible σ'.db σ'.snapshotId id = some o) :
    ∃ sid, QJsonObject.value o (qs "_id") = .string sid := by
  rw [h.snapshotId] at ho
  by_cases hstored : id ∈ plan.stored.map Prod.fst
  · obtain ⟨o', hp, ho'⟩ := exists_visible_of_stored hF h.fits h.commit h.db hstored
    obtain rfl : o = o' := Option.some.inj (ho.symm.trans ho')
    obtain ⟨g, hg, -, -, rfl | rfl⟩ := of_mem_stored h.spec hgiven hp
    · exact hgiven g hg
    · obtain ⟨sid, hsid⟩ := hgiven g hg
      exact ⟨sid, (value_id_withUUID (by simp [hsid])).trans hsid⟩
  · by_cases hleft : id ∈ plan.ids
    · rw [visible_of_removed hF hgood h.fits h.commit h.db hleft] at ho
      cases ho
    · rw [visible_of_other hF h.fits h.db hstored hleft] at ho
      exact ⟨_, (docId_of_visible hgood ho).1⟩

/-- Where `set` replaces the matching documents, none is passed over that is found. -/
theorem setFits (hnodup : (given.map fun p => docId p.1).Nodup)
    (hr : SetReplaces E σ σ' query given) : SetFits σ query given := by
  refine ⟨?_, fun id o ho hsat => ?_⟩
  · -- one document stands for two given ones only if they have the same `_id`
    refine (List.pairwise_map.mp hnodup).imp_of_mem fun {p q} hp hp' hne hsat hsat' heq => hne ?_
    obtain ⟨o, ho, hstands⟩ := hr.stored p hp hsat
    obtain ⟨o', ho', hstands'⟩ := hr.stored q hp' hsat'
    rw [heq] at ho
    obtain rfl : o = o' := Option.some.inj (ho.symm.trans ho')
    obtain ⟨sid, hsid⟩ := h.exists_value_id hF hgood hgiven ho
    obtain ⟨sidp, hsidp⟩ := hgiven p hp
    obtain ⟨sidq, hsidq⟩ := hgiven q hp'
    exact (hstands.docId_eq hsidp hsid).symm.trans (hstands'.docId_eq hsidq hsid)
  by_contra hnot
  obtain ⟨hnone, hiff⟩ := not_or.mp hnot
  have hnosat : ∀ p ∈ given, Sat (.object query) (.object p.1) → toLatin1 (docId p.1) ≠ id :=
    fun p hp hsat' hid => hnone ⟨p, hp, hid, .inl hsat'⟩
  by_cases hin : docId o ∈ given.map fun p => docId p.1
  · -- the document is found and removed, though its `_id` is given
    have hstart : σ.db.find? (constructDocumentStartKey id) ≠ none := fun hstart =>
      hiff (iff_of_true hin hstart)
    have hleft : id ∈ plan.ids := by
      refine (mem_planIds_iff hF hgood hq h.spec).mpr
        ⟨⟨o, hgood.shape.mem_of_visible hF.plain.colonFree ho, hstart, ho, hsat⟩,
          fun g hg hkeeps hid => ?_⟩
      refine hnone ⟨g, hg, hid, ?_⟩
      exact (of_keeps hF hgood hq ho hkeeps hid).symm.imp_right fun heq => heq.1
    have hgone := visible_of_removed hF hgood h.fits h.commit h.db hleft
    have hkept := hr.kept id hnosat fun o' ho' _ => by
      rw [ho] at ho'
      exact Option.some.inj ho' ▸ hin
    rw [h.snapshotId, hgone, ho] at hkept
    cases hkept
  · -- the document is not found, and stays
    have hstart : σ.db.find? (constructDocumentStartKey id) = none := by
      by_contra hstart
      exact hiff (iff_of_false hin hstart)
    have hleft : id ∉ plan.ids := fun hleft => by
      obtain ⟨⟨_, -, hstart', -⟩, -⟩ := (mem_planIds_iff hF hgood hq h.spec).mp hleft
      exact hstart' hstart
    have hstays := visible_of_other hF h.fits h.db (h.notMem_stored hgiven hnosat) hleft
    have hgone := hr.removed id o hnosat ho hsat hin
    rw [h.snapshotId, hstays, ho] at hgone
    cases hgone

/-- Where no document is passed over that is found, `set` replaces the matching ones. -/
theorem setReplaces (hfits : SetFits σ query given) : SetReplaces E σ σ' query given := by
  refine ⟨fun p hp hsat => ?_, fun id o hnosat ho hsat hin => ?_, fun id hnosat hin => ?_⟩
  · rw [h.snapshotId]
    by_cases hstored : toLatin1 (docId p.1) ∈ plan.stored.map Prod.fst
    · obtain ⟨o, hmem, ho⟩ := exists_visible_of_stored hF h.fits h.commit h.db hstored
      obtain ⟨g, hg, hsatg, hgid, hstands⟩ := of_mem_stored h.spec hgiven hmem
      -- it is stored for the only given document with that id
      have hgp : g = p := by
        by_contra hne
        have hsymm : Std.Symm fun p q : QJsonObject × IdGen =>
            Sat (.object query) (.object p.1) → Sat (.object query) (.object q.1) →
              toLatin1 (docId p.1) ≠ toLatin1 (docId q.1) :=
          ⟨fun a b hab hb ha => (hab ha hb).symm⟩
        exact hfits.distinct.forall hg hp hne hsatg hsat hgid
      subst hgp
      exact ⟨o, ho, .inl hstands⟩
    · have hleft : toLatin1 (docId p.1) ∉ plan.ids := fun hleft =>
        ((mem_planIds_iff hF hgood hq h.spec).mp hleft).2 p hp (.inr hsat) rfl
      rw [visible_of_other hF h.fits h.db hstored hleft]
      rcases h.spec.stored p hp hsat with ⟨v, hv, heq⟩ | ⟨p', hp', isOld, hacc⟩
      · obtain ⟨o, ho, heq', -⟩ := exists_visible_of_mem_replyOf hF hgood hq hv heq
        exact ⟨o, ho, .inr heq'⟩
      · obtain ⟨sid, hsid⟩ := hgiven p hp
        obtain ⟨hpid, -⟩ := id_of_accepted hsid hacc
        exact absurd (List.mem_map.mpr ⟨p', hp', hpid⟩) hstored
  · rw [h.snapshotId]
    have hstart : σ.db.find? (constructDocumentStartKey id) ≠ none := by
      intro hstart
      rcases hfits.accounted id o ho hsat with ⟨g, hg, hgid, hsatg | heq⟩ | hiff
      · exact hnosat g hg hsatg hgid
      · obtain ⟨hsid, -⟩ := docId_of_visible hgood ho
        have hdoc := docId_of_value (QJsonValue.value_of_eq_object heq hsid)
        exact hin (List.mem_map.mpr ⟨g, hg, hdoc⟩)
      · exact hin (hiff.mpr hstart)
    refine visible_of_removed hF hgood h.fits h.commit h.db
      ((mem_planIds_iff hF hgood hq h.spec).mpr
        ⟨⟨o, hgood.shape.mem_of_visible hF.plain.colonFree ho, hstart, ho, hsat⟩,
          fun g hg hkeeps hgid => ?_⟩)
    rcases of_keeps hF hgood hq ho hkeeps hgid with ⟨-, hdoc⟩ | hsatg
    · exact hin (List.mem_map.mpr ⟨g, hg, hdoc.symm⟩)
    · exact hnosat g hg hsatg hgid
  · rw [h.snapshotId]
    refine visible_of_other hF h.fits h.db (h.notMem_stored hgiven hnosat) fun hleft => ?_
    obtain ⟨⟨o, hidF, hstart, ho, hsat⟩, hfree⟩ :=
      (mem_planIds_iff hF hgood hq h.spec).mp hleft
    rcases hfits.accounted id o ho hsat with ⟨g, hg, hgid, hsatg | heq⟩ | hiff
    · exact hnosat g hg hsatg hgid
    · have hfound := (mem_selectedDocuments_iff (E := E) hF.separated hgood hq).mpr
        ⟨o, rfl, hidF, hstart, ho, hsat⟩
      exact hfree g hg (.inl ⟨.object o, List.mem_map_of_mem hfound, heq⟩) hgid
    · exact hstart (hiff.mp (hin o ho hsat))

end Executed

/-- **set** replaces the documents that satisfy the query, and keeps the given ones, if and
only if no document is passed over whose `_id` a document has that is found. -/
theorem setReplaces_iff (hF : SafeIds F) (hgood : GoodStore F σ.db)
    (hindexes : σ.db.find? indexesKey = none) (hq : WellFormed (.object query))
    (hid : ∀ f ∈ query, f.1 ≠ qs "_id")
    (hgiven : ∀ p ∈ given, ∃ sid, QJsonObject.value p.1 (qs "_id") = .string sid)
    (hids : ∀ p ∈ given, toLatin1 (docId p.1) ∈ F)
    (hnodup : (given.map fun p => docId p.1).Nodup)
    (hsuccess : (σ.transact E (setOp query given)).1 = .success) :
    SetReplaces E σ (σ.transact E (setOp query given)).2 query given ↔
      SetFits σ query given := by
  obtain ⟨plan, hspec, hcommit, hdb⟩ := exists_plan hF hgood hq hindexes hid hgiven hsuccess
  have h : Executed E F σ (σ.transact E (setOp query given)).2 query given plan :=
    ⟨hspec, planFits hF hgood hq hspec hgiven hids, hcommit, hdb, Collection.snapshotId_transact _⟩
  exact ⟨h.setFits hF hgood hq hgiven hnodup, h.setReplaces hF hgood hq hgiven⟩

end Result

/-! ## A document that is passed over -/

/-- A document with a field `n`, as it is handed to `set`. -/
def givenN (id : String) (value : QJsonValue) : QJsonObject × IdGen :=
  (QJsonObject.insert [(qs "_id", .string (qs id))] (qs "n") value, ⟨[], []⟩)

theorem wellFormed_null : WellFormed (.object [(qs "n", .null)]) :=
  .query (List.forall_mem_singleton.mpr (.literal (by decide) rfl))

theorem goodStore_insertedA : GoodStore oneByteIds (insertedA .map).db :=
  (serialInv_of_reachable safeIds_oneByteIds.plain reachable_insertedA).good

/-- The document `b` takes the place of `a`. -/
theorem setReplaces_insertedA :
    SetReplaces (Env.plain .map) (insertedA .map)
      ((insertedA .map).transact (Env.plain .map)
        (setOp [(qs "n", .null)] [givenN "b" .null])).2
      [(qs "n", .null)] [givenN "b" .null] := by
  refine (setReplaces_iff safeIds_oneByteIds goodStore_insertedA (by decide) wellFormed_null
    (by decide) ?_ ?_ (by decide) (by decide +kernel)).mpr ⟨List.pairwise_singleton _ _, ?_⟩
  · exact List.forall_mem_singleton.mpr ⟨qs "b", rfl⟩
  · exact List.forall_mem_singleton.mpr (show bytes "b" ∈ oneByteIds by decide)
  intro id o ho _
  have hdocs : ∀ e ∈ (insertedA .map).db.entries, e.2.document?.isSome = true →
      e = (constructDocumentLinkKey (bytes "a") 0, .document (givenN "a" .null).1) := by decide
  have hentry := hdocs _ (SortedMap.find?_eq_some_iff.mp (FlatStore.visible_iff.mp ho)) rfl
  obtain ⟨hkey, hdoc⟩ := Prod.mk.inj hentry
  obtain ⟨rfl, -⟩ := constructDocumentLinkKey_inj.mp hkey
  obtain rfl := Blob.document.inj hdoc
  exact .inr (iff_of_false (by decide) (by decide))

/-- Given without a value that the query asks for, the document `a` is removed. -/
theorem not_setReplaces :
    ¬ ∀ (E : Env) (F : Set QByteArray) (σ : Collection) (query : QJsonObject)
        (given : List (QJsonObject × IdGen)), SafeIds F → GoodStore F σ.db →
      σ.db.find? indexesKey = none → WellFormed (.object query) →
      (∀ f ∈ query, f.1 ≠ qs "_id") →
      (∀ p ∈ given, ∃ sid, QJsonObject.value p.1 (qs "_id") = .string sid) →
      (∀ p ∈ given, toLatin1 (docId p.1) ∈ F) → (given.map fun p => docId p.1).Nodup →
      (σ.transact E (setOp query given)).1 = .success →
      SetReplaces E σ (σ.transact E (setOp query given)).2 query given := by
  intro h
  have hreplaces := h (Env.plain .map) oneByteIds (insertedA .map) [(qs "n", .null)]
    [givenN "a" (.bool true)] safeIds_oneByteIds goodStore_insertedA (by decide) wellFormed_null
    (by decide) (List.forall_mem_singleton.mpr ⟨qs "a", rfl⟩)
    (List.forall_mem_singleton.mpr (show bytes "a" ∈ oneByteIds by decide)) (by decide)
    (by decide +kernel)
  have hkept := hreplaces.kept (bytes "a") ?_ ?_
  · revert hkept
    decide +kernel
  · refine List.forall_mem_singleton.mpr fun hsat => ?_
    obtain ⟨b, hcheck, hb⟩ := @checkQuery_of_wellFormed (Env.plain .map) _ wellFormed_null
      (.object (givenN "a" (.bool true)).1)
    rw [hb.mpr hsat] at hcheck
    exact absurd hcheck (by decide +kernel)
  · intro o ho _
    have hvisible : visible (insertedA .map).db (insertedA .map).snapshotId (bytes "a") =
        some (givenN "a" .null).1 := by decide +kernel
    obtain rfl := Option.some.inj (hvisible.symm.trans ho)
    decide

end Qdocdb
