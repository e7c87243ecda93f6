import Qdocdb.IndexWrites

/-!
# Index entries list every visible document

An index is complete at a snapshot number when the list of each visible document's value
holds a link to the version that is seen. Insertions, removals, new snapshots and reverts
keep the lists complete at every number since the index was created
(`indexedStore_of_run`), so the lists of the current number always are
(`indexComplete_of_run`).

Two requests break it. `createIndex` links each visible document under the current number,
where a document that is inherited from an older snapshot has no version; and
`revertToSnapshot` to a number before an index was created drops its lists, but not the
index. A run that does neither is an `IndexedRun`, which remembers the number at which
each field was indexed.
-/

namespace Qdocdb

/-! ## Versions that are seen -/

/-- The document `o` that the number `s` sees under the id is its version `t`. -/
structure VisibleAt (db : Store) (s : Byte) (id : QByteArray) (t : Byte) (o : QJsonObject) :
    Prop where
  le : t ≤ s
  document : db.find? (constructDocumentLinkKey id t) = some (.document o)
  newest : ∀ t', t < t' → t' ≤ s → db.find? (constructDocumentLinkKey id t') = none

theorem visible_eq_some_iff {db : Store} {s : Byte} {id : QByteArray} {o : QJsonObject} :
    visible db s id = some o ↔ ∃ t, VisibleAt db s id t o := by
  rw [visible, History.view, Option.join_eq_some_iff, History.newest_eq_some_iff]
  constructor
  · rintro ⟨t, hts, ht, hnewest⟩
    have hlt : t < 256 := lt_of_le_of_lt hts s.isLt
    obtain ⟨b, hb, hdoc⟩ := Option.map_eq_some_iff.mp ht
    rw [version, dif_pos hlt] at hb
    cases b <;> cases hdoc
    refine ⟨⟨t, hlt⟩, hts, hb, fun t' ht' hs' => ?_⟩
    have hnone := hnewest t'.val ht' hs'
    rwa [history_val, Option.map_eq_none_iff] at hnone
  · rintro ⟨t, hts, ht, hnewest⟩
    refine ⟨t.val, hts, by rw [history_val, ht]; rfl, fun t' ht' hs' => ?_⟩
    have hlt : t' < 256 := lt_of_le_of_lt hs' s.isLt
    rw [history, version, dif_pos hlt, hnewest ⟨t', hlt⟩ ht' hs', Option.map_none]

section VisibleAt

variable {F : Set QByteArray} {db db' : Store} {s j t : Byte} {id I : QByteArray}
  {o o' : QJsonObject}

theorem VisibleAt.congr (h : VisibleAt db' j I t o)
    (hkeys : ∀ t ≤ j, db'.find? (constructDocumentLinkKey I t) =
      db.find? (constructDocumentLinkKey I t)) : VisibleAt db j I t o where
  le := h.le
  document := by rw [← hkeys t h.le, h.document]
  newest := fun t' ht hj => by rw [← hkeys t' hj, h.newest t' ht hj]

theorem find?_putJsonValue_linkKey (hF : Separated F) (hid : id ∈ F) (hI : I ∈ F) :
    (db.applyLog (Transaction.putJsonValue id s o)).find? (constructDocumentLinkKey I t) =
      if I = id ∧ t = s then some (.document o) else db.find? (constructDocumentLinkKey I t) := by
  have hstart := (hF.startKey_ne_linkKey hid hI t).symm
  rw [Transaction.putJsonValue]
  simp only [SortedMap.applyLog_cons, SortedMap.applyLog_nil, WriteOp.find?_apply,
    WriteOp.key_put, WriteOp.outcome_put, constructDocumentLinkKey_inj, hstart, if_false]

/-- After a document is stored, it is seen, or what is seen was seen before. -/
theorem VisibleAt.of_putJsonValue (hF : Separated F) (hid : id ∈ F) (hI : I ∈ F)
    (h : VisibleAt (db.applyLog (Transaction.putJsonValue id s o')) j I t o) :
    (I = id ∧ t = s ∧ o = o') ∨ VisibleAt db j I t o := by
  have hfind := fun t => @find?_putJsonValue_linkKey F db s t id I o' hF hid hI
  have hdoc := h.document
  rw [hfind t] at hdoc
  by_cases hnew : I = id ∧ t = s
  · rw [if_pos hnew] at hdoc
    exact .inl ⟨hnew.1, hnew.2, (Blob.document.inj (Option.some.inj hdoc)).symm⟩
  · rw [if_neg hnew] at hdoc
    refine .inr ⟨h.le, hdoc, fun t' ht hj => ?_⟩
    have hnone := h.newest t' ht hj
    rw [hfind t'] at hnone
    split at hnone
    · cases hnone
    · exact hnone

/-- After a version is removed, nothing else is seen than before, and the current number
sees nothing of the id. -/
theorem VisibleAt.of_removeVersion (hF : Separated F) {scan : ValueScan}
    (hws : DocumentWrites F s db (Transaction.removeVersion id s scan))
    (hdb : DocumentStore F s db) (hid : id ∈ F) (hI : I ∈ F)
    (h : VisibleAt (db.applyLog (Transaction.removeVersion id s scan)) j I t o) :
    VisibleAt db j I t o ∧ (I = id → j < s) := by
  have hstart := fun t => (hF.startKey_ne_linkKey hid hI t).symm
  rw [Transaction.removeVersion] at hws h
  split at hws
  · rename_i hc
    -- a tombstone is the newest version of the current number
    rw [if_pos hc] at h
    have hfind : ∀ t, (db.applyLog [.put (constructDocumentLinkKey id s) .tombstone]).find?
        (constructDocumentLinkKey I t) =
          if I = id ∧ t = s then some .tombstone else db.find? (constructDocumentLinkKey I t) := by
      intro t
      simp only [SortedMap.applyLog_cons, SortedMap.applyLog_nil, WriteOp.find?_apply,
        WriteOp.key_put, WriteOp.outcome_put, constructDocumentLinkKey_inj]
    have hdoc := h.document
    rw [hfind t] at hdoc
    by_cases hnew : I = id ∧ t = s
    · rw [if_pos hnew] at hdoc
      cases hdoc
    · rw [if_neg hnew] at hdoc
      refine ⟨⟨h.le, hdoc, fun t' ht hj => ?_⟩, ?_⟩
      · have hnone := h.newest t' ht hj
        rw [hfind t'] at hnone
        split at hnone
        · cases hnone
        · exact hnone
      · rintro rfl
        by_contra hj
        have hts : t < s := lt_of_le_of_ne (hdb.version_le I hI t o hdoc) fun hts => hnew ⟨rfl, hts⟩
        have hnone := h.newest s hts (not_lt.mp hj)
        rw [hfind s, if_pos ⟨rfl, rfl⟩] at hnone
        cases hnone
  · rename_i hc
    -- the version was the only document of the id
    rw [if_neg hc] at h
    have hother : ∀ t o, t ≠ s →
        db.find? (constructDocumentLinkKey id t) ≠ some (.document o) := by
      generalize hdws : [WriteOp.delete (constructDocumentLinkKey id s),
        WriteOp.delete (constructDocumentStartKey id)] = dws at hws
      cases hws with
      | refused => cases hdws
      | stored => cases hdws
      | tombstone => cases hdws
      | removed _ hother =>
        obtain rfl := constructDocumentStartKey_injective
          (WriteOp.delete.inj (List.cons.inj (List.cons.inj hdws).2).1)
        exact hother
    have hfind : ∀ t, (db.applyLog [.delete (constructDocumentLinkKey id s),
        .delete (constructDocumentStartKey id)]).find? (constructDocumentLinkKey I t) =
          if I = id ∧ t = s then none else db.find? (constructDocumentLinkKey I t) := by
      intro t
      simp only [SortedMap.applyLog_cons, SortedMap.applyLog_nil, WriteOp.find?_apply,
        WriteOp.key_delete, WriteOp.outcome_delete, constructDocumentLinkKey_inj, hstart t,
        if_false]
    have hdoc := h.document
    rw [hfind t] at hdoc
    have hne : I ≠ id := by
      rintro rfl
      by_cases hts : t = s
      · rw [if_pos ⟨rfl, hts⟩] at hdoc
        cases hdoc
      · rw [if_neg fun hnew => hts hnew.2] at hdoc
        exact hother t o hts hdoc
    refine ⟨h.congr fun t _ => ?_, fun heq => absurd heq hne⟩
    rw [hfind t, if_neg fun hnew => hne hnew.1]

end VisibleAt

/-! ## Complete lists -/

/-- The key under which an index lists a document at the number `s`. -/
def listKey (E : Env) (index : QString × QString) (s : Byte) (o : QJsonObject) : QByteArray :=
  constructIndexValueKey index.2 s
    (marshal E.toBinaryData (getJsonValueByPath (.object o) index.1))

/-- The index is there at the number `j`, and lists every document that `j` sees. -/
structure ListsVisible (E : Env) (F : Set QByteArray) (db : Store) (index : QString × QString)
    (j : Byte) : Prop where
  started : db.find? (constructIndexValueKey index.2 j []) ≠ none
  linked : ∀ I ∈ F, ∀ t o, VisibleAt db j I t o →
    (storedLinks db).Linked (listKey E index j o) (constructDocumentLinkKey I t)

/-- The invariant: since the number `created` of its field, each index lists what is seen. -/
structure IndexedStore (E : Env) (F : Set QByteArray) (N : Set QString)
    (created : QString → Byte) (s : Byte) (db : Store) : Prop extends DocumentStore F s db where
  name_mem : ∀ index ∈ storedIndexes db, index.2 ∈ N
  created_le : ∀ index ∈ storedIndexes db, created index.1 ≤ s
  listsVisible : ∀ index ∈ storedIndexes db, ∀ j, created index.1 ≤ j → j ≤ s →
    ListsVisible E F db index j

theorem indexPrefix_prefix_listKey (E : Env) (index : QString × QString) (s : Byte)
    (o : QJsonObject) : indexPrefix <+: listKey E index s o :=
  indexPrefix_prefix_constructIndexValueKey _ _ _

variable {E : Env} {F : Set QByteArray} {N : Set QString} {created : QString → Byte}
  {σ σ' : Collection}

/-- A step that leaves the table of indexes alone and keeps complete lists complete. -/
theorem IndexedStore.of_lists {s : Byte} {db db' : Store} (h : IndexedStore E F N created s db)
    (hdocs : DocumentStore F s db') (hindexes : storedIndexes db' = storedIndexes db)
    (hlists : ∀ index ∈ storedIndexes db, ∀ j ≤ s,
      ListsVisible E F db index j → ListsVisible E F db' index j) :
    IndexedStore E F N created s db' := by
  refine ⟨hdocs, ?_, ?_, ?_⟩ <;> rw [hindexes]
  · exact h.name_mem
  · exact h.created_le
  · exact fun index hindex j hc hj =>
      hlists index hindex j hj (h.listsVisible index hindex j hc hj)

/-- **insert** lists the new version under every index. -/
theorem IndexedStore.insert (hF : Separated F)
    (h : IndexedStore E F N created σ.snapshotId σ.db) {doc : QJsonObject}
    {gen : Transaction.IdGen} {overwrite ignoreReadOnlyValue : Bool}
    (hop : TxIds F (.insert doc gen overwrite ignoreReadOnlyValue))
    (hσ' : (σ.transact E (.insert doc gen overwrite ignoreReadOnlyValue)).2 = σ') :
    IndexedStore E F N created σ'.snapshotId σ'.db := by
  have hids : OpIds F (.transact (.insert doc gen overwrite ignoreReadOnlyValue)) := hop
  have hgood : GoodStore F σ'.db :=
    goodStore_served (E := E) hids (congrArg some (Prod.ext rfl hσ')) h.good
  rcases Collection.transact_insert_cases (E := E) (σ := σ) doc gen overwrite
    ignoreReadOnlyValue with ⟨hdb, hs⟩ | ⟨id, o, isOld, iws, hacc, hiws, hdb, hs, hlinks⟩ <;>
    rw [hσ'] at hdb hs
  · rwa [hdb, hs]
  rw [hσ'] at hlinks
  obtain ⟨sid, hsid, hlatin⟩ := Transaction.value_id_of_accepted hacc
  obtain ⟨d, hd, -⟩ := Transaction.documentId_of_accepted hacc
  have hid : id ∈ F := hop id d hd
  have hputs : ∀ k, WriteOp.delete k ∉ Transaction.putJsonValue id σ.snapshotId o ++ iws := by
    intro k hk
    rcases List.mem_append.mp hk with hk | hk
    · simp [Transaction.putJsonValue] at hk
    · exact (hiws _ hk).ne_delete k rfl
  have hkeys : ∀ I k, IsKeyOf I k → σ'.db.find? k =
      (σ.db.applyLog (Transaction.putJsonValue id σ.snapshotId o)).find? k := fun I k hk => by
    rw [hdb, SortedMap.applyLog_append, SortedMap.find?_applyLog_of_forall_ne _ fun w hw hwk => ?_]
    exact (hiws w hw).isMetaKey.not_isKeyOf (hwk ▸ hk)
  have hmeta : ∀ k, IsMetaKey k → (∀ w ∈ iws, w.key ≠ k) → σ'.db.find? k = σ.db.find? k := by
    intro k hk hne
    rw [hdb, SortedMap.find?_applyLog_of_forall_ne _ fun w hw hwk => ?_]
    rcases List.mem_append.mp hw with hw | hw
    · exact hk.not_isKeyOf (hwk ▸ Transaction.putJsonValue_key hw)
    · exact hne w hw hwk
  have hindexes : storedIndexes σ'.db = storedIndexes σ.db :=
    storedIndexes_congr (hmeta _ isMetaKey_indexesKey fun w hw => (hiws w hw).key_ne_indexesKey)
  have hstep : DocumentStep F σ.snapshotId σ.db
      (σ.db.applyLog (Transaction.putJsonValue id σ.snapshotId o)) :=
    ⟨_, .stored hid hsid hlatin, rfl⟩
  have hdocs : DocumentStore F σ.snapshotId σ'.db := by
    refine (h.documentStep hF hstep).congr hgood hkeys ?_
    rw [hstep.find?_of_isMetaKey isMetaKey_snapshotsKey]
    exact hmeta _ isMetaKey_snapshotsKey fun w hw => (hiws w hw).key_ne_snapshotsKey
  rw [hs]
  refine h.of_lists hdocs hindexes fun index hindex j hj hlists => ⟨?_, fun I hI t o' hv => ?_⟩
  · rw [hdb]
    exact SortedMap.find?_applyLog_ne_none hputs (.inl hlists.started)
  · rw [hlinks, LinkTable.linked_addAll]
    have hv' := hv.congr fun t _ => hkeys I _ (isKeyOf_linkKey I t)
    rcases hv'.of_putJsonValue hF hid hI with ⟨rfl, rfl, rfl⟩ | hv'
    · -- the new version is listed under the current number
      obtain rfl : j = σ.snapshotId := le_antisymm hj hv.le
      exact .inr (List.mem_map.mpr ⟨index, hindex, rfl⟩)
    · exact .inl (hlists.linked I hI t o' hv')

/-- **removeById** takes only links of the removed id away, and only of the current number. -/
theorem IndexedStore.removeById (hF : PlainIds F) (hN : SeparatedNames N)
    (h : IndexedStore E F N created σ.snapshotId σ.db) {id : QByteArray} (hid : id ∈ F)
    {ignoreReadOnlyValue : Bool}
    (hσ' : (σ.transact E (.removeById id ignoreReadOnlyValue)).2 = σ') :
    IndexedStore E F N created σ'.snapshotId σ'.db := by
  have hids : OpIds F (.transact (.removeById id ignoreReadOnlyValue)) := hid
  have hgood : GoodStore F σ'.db :=
    goodStore_served (E := E) hids (congrArg some (Prod.ext rfl hσ')) h.good
  rcases Collection.transact_removeById_cases (E := E) (σ := σ) h.name_mem id
    ignoreReadOnlyValue with ⟨hdb, hs⟩ | ⟨scan, t₀, iws, hseek, hiws, hdb, hs⟩ <;>
    rw [hσ'] at hdb hs
  · rwa [hdb, hs]
  obtain ⟨hdws, hthere⟩ := h.documentWrites_removeVersion hF hid hseek
  have hmetaKey : ∀ w ∈ iws, IsMetaKey w.key := fun w hw => by
    obtain ⟨n, -, d, -, hk⟩ := hiws.key w hw
    exact hk ▸ isMetaKey_constructIndexValueKey n _ d
  -- every key that is deleted is in the store
  have hcommit : (commit E.backend σ.db
      (Transaction.removeVersion id σ.snapshotId scan ++ iws)).1 = .success := by
    refine commit_success_iff.mpr fun hB k hk => ?_
    obtain ⟨w, hw, hwk, ho⟩ := exists_mem_of_lastWrite_eq_some hk
    rcases List.mem_append.mp hw with hw | hw
    · exact hthere hB k ((WriteOp.ext_key_outcome hwk ho : _ = WriteOp.delete k) ▸ hw)
    · exact hwk ▸ (hiws w hw).2.1
  have hkeys : ∀ I k, IsKeyOf I k → σ'.db.find? k =
      (σ.db.applyLog (Transaction.removeVersion id σ.snapshotId scan)).find? k := fun I k hk => by
    rw [hdb, hdws.find?_commit hmetaKey hcommit hk]
  have hmeta : ∀ k, IsMetaKey k → (∀ w ∈ iws, w.key ≠ k) → σ'.db.find? k = σ.db.find? k := by
    intro k hk hne
    rw [hdb, find?_commit_of_forall_ne fun w hw hwk => ?_]
    rcases List.mem_append.mp hw with hw | hw
    · exact hk.not_isKeyOf (hwk ▸ Transaction.removeVersion_key hw)
    · exact hne w hw hwk
  have hindexes : storedIndexes σ'.db = storedIndexes σ.db := by
    refine storedIndexes_congr (hmeta _ isMetaKey_indexesKey fun w hw => ?_)
    obtain ⟨n, -, d, -, hk⟩ := hiws.key w hw
    exact hk ▸ constructIndexValueKey_ne_indexesKey n _ d
  have hstep : DocumentStep F σ.snapshotId σ.db
      (σ.db.applyLog (Transaction.removeVersion id σ.snapshotId scan)) := ⟨_, hdws, rfl⟩
  have hdocs : DocumentStore F σ.snapshotId σ'.db := by
    refine (h.documentStep hF.separated hstep).congr hgood hkeys ?_
    rw [hstep.find?_of_isMetaKey isMetaKey_snapshotsKey]
    refine hmeta _ isMetaKey_snapshotsKey fun w hw => ?_
    obtain ⟨n, -, d, -, hk⟩ := hiws.key w hw
    exact hk ▸ constructIndexValueKey_ne_snapshotsKey n _ d
  rw [hs]
  refine h.of_lists hdocs hindexes fun index hindex j hj hlists => ⟨?_, fun I hI t o hv => ?_⟩
  · rw [hmeta _ (isMetaKey_constructIndexValueKey _ _ _) fun w hw hwk => ?_]
    · exact hlists.started
    · -- a value is never empty, so no start entry is written
      obtain ⟨n, hn, d, hd, hk⟩ := hiws.key w hw
      exact hd (hN.key_inj hn (h.name_mem index hindex) (hk.symm.trans hwk)).2.2
  · have hv' := hv.congr fun t _ => hkeys I _ (isKeyOf_linkKey I t)
    obtain ⟨hv', hlt⟩ := hv'.of_removeVersion hF.separated hdws h.toDocumentStore hid hI
    rw [hdb]
    refine hiws.linked_commit (fun w hw => ⟨id, Transaction.removeVersion_key hw⟩) ?_
      (hlists.linked I hI t o hv')
    by_cases hne : I = id
    · -- the id is only seen from older numbers, whose entries are not written
      refine .inr fun w hw hwk => ?_
      obtain ⟨n, hn, d, -, hk⟩ := hiws.key w hw
      refine hN.key_ne_of_ne hn (h.name_mem index hindex) ?_ (hk.symm.trans hwk)
      exact (hlt hne).ne'
    · exact .inl fun hl => hne (constructDocumentLinkKey_inj.mp hl).1

/-- What `createIndex` asks of a field that has no index yet: a name that fits the others,
and a version of the current number for every document that is seen. -/
def Indexable (E : Env) (N : Set QString) (σ : Collection) (indexName : QString) : Prop :=
  indexName ∈ N ∧ ∀ p ∈ (σ.reader E).documents E,
    σ.db.find? (constructDocumentLinkKey p.1 σ.snapshotId) ≠ none

/-- Note the current number as the one at which a new index is created. -/
def recordIndex (E : Env) (σ : Collection) (op : Op) (created : QString → Byte) :
    QString → Byte :=
  match op with
  | .transact (.createIndex fieldName _) =>
    if ((σ.reader E).getIndexes.lookup fieldName).isSome then created
    else Function.update created fieldName σ.snapshotId
  | _ => created

/-- **createIndex** links every document that is seen under the current number. -/
theorem IndexedStore.createIndex (hF : Separated F) (hN : SeparatedNames N)
    (h : IndexedStore E F N created σ.snapshotId σ.db) {fieldName indexName : QString}
    (hop : ((σ.reader E).getIndexes.lookup fieldName).isSome ∨ Indexable E N σ indexName)
    (hσ' : (σ.transact E (.createIndex fieldName indexName)).2 = σ') :
    IndexedStore E F N (recordIndex E σ (.transact (.createIndex fieldName indexName)) created)
      σ'.snapshotId σ'.db := by
  have hids : OpIds F (.transact (.createIndex fieldName indexName)) := trivial
  have hgood : GoodStore F σ'.db :=
    goodStore_served (E := E) hids (congrArg some (Prod.ext rfl hσ')) h.good
  rw [recordIndex]
  rw [Collection.getIndexes_reader] at hop ⊢
  rcases Collection.transact_createIndex_cases (E := E) (σ := σ) fieldName indexName with
    ⟨hsome, hdb, hs⟩ | ⟨hnone, iws, hiws, hstart, hdb, hs, hlinks⟩ <;> rw [hσ'] at hdb hs
  · rwa [if_pos hsome, hdb, hs]
  rw [hσ'] at hlinks
  obtain ⟨hname, hcurrent⟩ := hop.resolve_left (by simp [hnone])
  have hputs : ∀ k, WriteOp.delete k ∉ iws ++
      Transaction.putIndexes (storedIndexes σ.db ++ [(fieldName, indexName)]) := by
    intro k hk
    rcases List.mem_append.mp hk with hk | hk
    · exact (hiws _ hk).ne_delete k rfl
    · cases List.mem_singleton.mp hk
  have hkeep : ∀ k, k ≠ indexesKey → (∀ w ∈ iws, w.key ≠ k) → σ'.db.find? k = σ.db.find? k := by
    intro k hk hne
    rw [hdb, SortedMap.find?_applyLog_of_forall_ne _ fun w hw hwk => ?_]
    rcases List.mem_append.mp hw with hw | hw
    · exact hne w hw hwk
    · rw [List.mem_singleton.mp hw] at hwk
      exact hk hwk.symm
  have hkeys : ∀ I k, IsKeyOf I k → σ'.db.find? k = σ.db.find? k := fun I k hk =>
    hkeep k hk.ne_indexesKey fun w hw hwk => (hiws w hw).isMetaKey.not_isKeyOf (hwk ▸ hk)
  have hindexes : storedIndexes σ'.db = storedIndexes σ.db ++ [(fieldName, indexName)] :=
    hdb ▸ Collection.storedIndexes_putIndexes hiws _
  have hdocs : DocumentStore F σ'.snapshotId σ'.db := by
    rw [hs]
    exact h.toDocumentStore.congr hgood hkeys (hkeep _ (by decide) fun w hw =>
      (hiws w hw).key_ne_snapshotsKey)
  have hseen : ∀ I ∈ F, ∀ j t o, VisibleAt σ'.db j I t o → VisibleAt σ.db j I t o :=
    fun I _ j t o hv => hv.congr fun t _ => hkeys I _ (isKeyOf_linkKey I t)
  have hold : ∀ index ∈ storedIndexes σ.db,
      Function.update created fieldName σ.snapshotId index.1 = created index.1 := by
    intro index hindex
    refine Function.update_of_ne (fun heq => ?_) _ _
    rw [Option.isSome_eq_false_iff, Option.isNone_iff_eq_none, List.lookup_eq_none_iff] at hnone
    simpa [heq] using hnone index hindex
  rw [if_neg (by simp [hnone])]
  refine ⟨hdocs, fun index hindex => ?_, fun index hindex => ?_, fun index hindex j hc hj => ?_⟩ <;>
    rw [hindexes] at hindex <;> rcases List.mem_append.mp hindex with hindex | hindex
  · exact h.name_mem index hindex
  · rw [List.mem_singleton.mp hindex]
    exact hname
  · rw [hold index hindex, hs]
    exact h.created_le index hindex
  · rw [List.mem_singleton.mp hindex, Function.update_self, hs]
  · -- an index that was there before
    rw [hold index hindex] at hc
    rw [hs] at hj
    obtain ⟨hstarted, hlinked⟩ := h.listsVisible index hindex j hc hj
    refine ⟨?_, fun I hI t o hv => ?_⟩
    · rw [hdb]
      exact SortedMap.find?_applyLog_ne_none hputs (.inl hstarted)
    · have hne : listKey E index j o ≠ constructIndexValueKey indexName σ.snapshotId [] := fun heq =>
        marshal_ne_nil _ _ (hN.key_inj (h.name_mem index hindex) hname heq).2.2
      rw [hlinks, LinkTable.linked_addAll, LinkTable.Linked, Function.update_of_ne hne]
      exact .inl (hlinked I hI t o (hseen I hI j t o hv))
  · -- the new index, which is only asked about the current number
    rw [List.mem_singleton.mp hindex, Function.update_self] at hc
    rw [hs] at hj
    obtain rfl : j = σ.snapshotId := le_antisymm hj hc
    rw [List.mem_singleton.mp hindex]
    refine ⟨?_, fun I hI t o hv => ?_⟩
    · rw [hdb]
      exact SortedMap.find?_applyLog_ne_none hputs
        (.inr ⟨_, List.mem_append_left _ hstart, rfl⟩)
    · have hv := hseen I hI _ t o hv
      have hmem : (I, o) ∈ (σ.reader E).documents E :=
        (h.toDocumentStore.mem_documents_iff hF).mpr ⟨hI, visible_eq_some_iff.mpr ⟨t, hv⟩⟩
      obtain rfl : t = σ.snapshotId := by
        by_contra hne
        exact hcurrent _ hmem (hv.newest _ (lt_of_le_of_ne hv.le hne) le_rfl)
      rw [hlinks, LinkTable.linked_addAll]
      exact .inr (List.mem_filterMap.mpr ⟨_, mem_documents_iff_enumerate.mp hmem, rfl⟩)

/-- **newSnapshot** copies complete lists to the next number. -/
theorem IndexedStore.newSnapshot (hN : SeparatedNames N)
    (h : IndexedStore E F N created σ.snapshotId σ.db) {snapshotName : QString}
    (hroom : ∀ l, σ.getSnapshotsValue E = .ok l → snapshotName ∈ l ∨ l.length ≤ 255) :
    IndexedStore E F N created (σ.newSnapshot E snapshotName).2.snapshotId
      (σ.newSnapshot E snapshotName).2.db := by
  have hdocs := h.toDocumentStore.newSnapshot hroom
  rcases Collection.newSnapshot_cases (E := E) h.names snapshotName with
    ⟨hdb, hs, -⟩ | ⟨names, hl, hlen, hnot, -, hdb, hs⟩
  · rwa [hdb, hs]
  have hsucc := Collection.val_snapshotId_add_one hlen ((hroom _ hl).resolve_left hnot)
  have hindexes : storedIndexes (σ.newSnapshot E snapshotName).2.db = storedIndexes σ.db := by
    refine storedIndexes_congr ?_
    rw [hdb, Collection.find?_newSnapshotWrites_indexesKey]
  have hseen : ∀ I, ∀ j t o, VisibleAt (σ.newSnapshot E snapshotName).2.db j I t o →
      VisibleAt σ.db j I t o := fun I j t o hv => hv.congr fun t _ => by
    rw [hdb, Collection.find?_newSnapshotWrites_of_isKeyOf (isKeyOf_linkKey I t)]
  refine ⟨hdocs, ?_, fun index hindex => ?_, fun index hindex j hc hj => ?_⟩
  · rw [hindexes]
    exact h.name_mem
  · rw [hindexes] at hindex
    refine (h.created_le index hindex).trans ?_
    rw [hs, Fin.le_def, hsucc]
    exact Nat.le_succ _
  rw [hindexes] at hindex
  rw [hs] at hj
  have hname := h.name_mem index hindex
  by_cases hnew : j = σ.snapshotId + 1
  · -- the copies list what the current number sees
    subst hnew
    obtain ⟨hstarted, hlinked⟩ :=
      h.listsVisible index hindex σ.snapshotId (h.created_le index hindex) le_rfl
    have hcopy : ∀ {d b}, σ.db.find? (constructIndexValueKey index.2 σ.snapshotId d) = some b →
        (σ.newSnapshot E snapshotName).2.db.find?
          (constructIndexValueKey index.2 (σ.snapshotId + 1) d) = some b := fun hb => by
      rw [hdb]
      refine Collection.find?_newSnapshotWrites_copy hN h.name_mem hindex ?_ hb
      rwa [constructIndexValueStartKey_eq]
    refine ⟨?_, fun I hI t o hv => ?_⟩
    · obtain ⟨b, hb⟩ := Option.ne_none_iff_exists'.mp hstarted
      rw [hcopy hb]
      simp
    · have hv := hseen I _ t o hv
      have hle := h.version_le I hI t o hv.document
      have hv' : VisibleAt σ.db σ.snapshotId I t o := ⟨hle, hv.document, fun t' ht hs' =>
        hv.newest t' ht (hs'.trans (by rw [Fin.le_def, hsucc]; exact Nat.le_succ _))⟩
      obtain ⟨-, b, hb, hmem⟩ := linked_storedLinks.mp (hlinked I hI t o hv')
      exact linked_storedLinks.mpr ⟨indexPrefix_prefix_listKey E index _ o, b, hcopy hb, hmem⟩
  · have hj' : j ≤ σ.snapshotId := by
      have hne : j.val ≠ (σ.snapshotId + 1).val := fun heq => hnew (Fin.ext heq)
      rw [Fin.le_def] at hj ⊢
      omega
    obtain ⟨hstarted, hlinked⟩ := h.listsVisible index hindex j hc hj'
    have hkeep := fun d => @Collection.find?_newSnapshotWrites_of_ne E σ N hN h.name_mem
      (names ++ [currentName]) snapshotName index.2 hname j hnew d
    refine ⟨?_, fun I hI t o hv => ?_⟩
    · rwa [hdb, hkeep]
    · refine linked_storedLinks_congr ?_ (hlinked I hI t o (hseen I j t o hv))
      rw [hdb]
      exact hkeep _

/-- **revertToSnapshot** keeps the lists of the numbers that it keeps. -/
theorem IndexedStore.revertToSnapshot (hF : PlainIds F) (hN : SeparatedNames N)
    (h : IndexedStore E F N created σ.snapshotId σ.db) {snapshotName : QString}
    (hcreated : ∀ i, σ.getSnapshotId E snapshotName = .ok i →
      ∀ index ∈ (σ.reader E).getIndexes, created index.1 ≤ i) :
    IndexedStore E F N created (σ.revertToSnapshot E snapshotName).2.snapshotId
      (σ.revertToSnapshot E snapshotName).2.db := by
  have hdocs := h.toDocumentStore.revertToSnapshot (E := E) hF snapshotName
  rcases Collection.revertToSnapshot_cases (E := E) h.names snapshotName with
    ⟨hdb, hs⟩ | ⟨names, i, hl, hlen, hmem, hi, his, hdb, hs, -⟩
  · rwa [hdb, hs]
  have hid : σ.getSnapshotId E snapshotName = .ok i := by
    rw [Collection.getSnapshotId_of_mem hl hmem]
    exact congrArg Except.ok (Fin.ext (by rw [Fin.val_ofNat, ← hi]; exact Nat.mod_eq_of_lt i.isLt))
  have hcreated := hcreated i hid
  rw [Collection.getIndexes_reader] at hcreated
  have hkept : ∀ j ≤ i, j ∉ Collection.droppedIds (names ++ [currentName]) i := fun j hj hd =>
    absurd ((Collection.mem_droppedIds hlen).mp hd).1 (not_lt_of_ge hj)
  have hindexes : storedIndexes (σ.revertToSnapshot E snapshotName).2.db = storedIndexes σ.db := by
    refine storedIndexes_congr ?_
    rw [hdb, Collection.find?_revert_indexesKey]
  refine ⟨hdocs, ?_, fun index hindex => ?_, fun index hindex j hc hj => ?_⟩
  · rw [hindexes]
    exact h.name_mem
  · rw [hindexes] at hindex
    rw [hs]
    exact hcreated index hindex
  rw [hindexes] at hindex
  rw [hs] at hj
  obtain ⟨hstarted, hlinked⟩ := h.listsVisible index hindex j hc (hj.trans his)
  have hkeep := fun d => @Collection.find?_revert_indexValueKey E σ N hN h.name_mem
    (names ++ [currentName]) index.2 (h.name_mem index hindex) i j (hkept j hj) d
  refine ⟨?_, fun I hI t o hv => ?_⟩
  · rwa [hdb, hkeep]
  · have hv' : VisibleAt σ.db j I t o := hv.congr fun t ht => by
      rw [hdb, Collection.find?_revert_linkKey hF.colonFree h.good.shape hI,
        if_neg (hkept t (ht.trans hj))]
    refine linked_storedLinks_congr ?_ (hlinked I hI t o hv')
    rw [hdb]
    exact hkeep _

/-! ## Runs -/

/-- The lists of the current number hold a link to the seen version of every document. -/
def IndexComplete (E : Env) (σ : Collection) : Prop :=
  ∀ index ∈ (σ.reader E).getIndexes, ∀ p ∈ (σ.reader E).documents E,
    ∃ t linkKeys, VisibleAt σ.db σ.snapshotId p.1 t p.2 ∧
      (σ.reader E).getIndexValueLinkKeys E index.2
        (getJsonValueByPath (.object p.2) index.1) = some linkKeys ∧
      constructDocumentLinkKey p.1 t ∈ linkKeys

/-- The requests: an insertion, a removal or the creation of an index in its own
transaction, a new snapshot or a revert. -/
def IndexRequest (_ : Collection) : Op → Prop
  | .transact (.insert _ _ _ _) => True
  | .transact (.removeById _ _) => True
  | .transact (.createIndex _ _) => True
  | .newSnapshot _ => True
  | .revertToSnapshot _ => True
  | _ => False

/-- A request whose ids are in `F` and whose index names are in `N`, that creates an index
only where every document that is seen has a version of the current number, takes a
snapshot only while the numbers fit into a byte, and reverts only to numbers at which every
index was there. -/
def IndexedOp (E : Env) (F : Set QByteArray) (N : Set QString) (created : QString → Byte)
    (σ : Collection) : Op → Prop
  | .transact (.createIndex fieldName indexName) =>
    ((σ.reader E).getIndexes.lookup fieldName).isSome ∨ Indexable E N σ indexName
  | .transact op => TxIds F op
  | .newSnapshot snapshotName =>
    ∀ l, σ.getSnapshotsValue E = .ok l → snapshotName ∈ l ∨ l.length ≤ 255
  | .revertToSnapshot snapshotName => ∀ i, σ.getSnapshotId E snapshotName = .ok i →
    ∀ index ∈ (σ.reader E).getIndexes, created index.1 ≤ i
  | _ => False

/-- A run of such requests, with the numbers at which the fields were indexed. -/
inductive IndexedRun (E : Env) (F : Set QByteArray) (N : Set QString) :
    Collection → (QString → Byte) → Prop
  | opened (created : QString → Byte) : IndexedRun E F N (Collection.open E .empty) created
  | served {σ σ' : Collection} {created : QString → Byte} {op : Op} {r : ResultEnum} :
    IndexedRun E F N σ created → IndexedOp E F N created σ op → op.apply E σ = some (r, σ') →
    IndexedRun E F N σ' (recordIndex E σ op created)

theorem IndexedOp.request {op : Op} (h : IndexedOp E F N created σ op) : IndexRequest σ op := by
  cases op with
  | transact op =>
    cases op with
    | remove => exact h.elim
    | set => exact h.elim
    | _ => trivial
  | batch => exact h.elim
  | removeSnapshot => exact h.elim
  | _ => trivial

/-- The states of such a run are reached by the requests. -/
theorem IndexedRun.reachable (h : IndexedRun E F N σ created) : Reachable E IndexRequest σ := by
  induction h with
  | opened => exact .opened
  | served _ hop happly ih => exact ih.served hop.request happly

/-- **Step**: a request keeps the lists complete. -/
theorem indexedStore_served (hF : PlainIds F) (hN : SeparatedNames N) {op : Op} {r : ResultEnum}
    (hop : IndexedOp E F N created σ op) (happly : op.apply E σ = some (r, σ'))
    (h : IndexedStore E F N created σ.snapshotId σ.db) :
    IndexedStore E F N (recordIndex E σ op created) σ'.snapshotId σ'.db := by
  match op, hop with
  | .transact (.insert _ _ _ _), hop =>
    exact h.insert hF.separated hop (congrArg Prod.snd (Option.some.inj happly))
  | .transact (.removeById _ _), hop =>
    exact h.removeById hF hN hop (congrArg Prod.snd (Option.some.inj happly))
  | .transact (.createIndex _ _), hop =>
    exact h.createIndex hF.separated hN hop (congrArg Prod.snd (Option.some.inj happly))
  | .newSnapshot snapshotName, hop =>
    obtain rfl := congrArg Prod.snd (Option.some.inj happly)
    exact h.newSnapshot hN hop
  | .revertToSnapshot snapshotName, hop =>
    obtain rfl := congrArg Prod.snd (Option.some.inj happly)
    exact h.revertToSnapshot hF hN hop

theorem indexedStore_open : IndexedStore E F N created (Collection.open E .empty).snapshotId
    (Collection.open E .empty).db := by
  have hnone : storedIndexes (Collection.open E .empty).db = [] := by
    rw [storedIndexes, (serialInv_open (F := F)).noIndexes]
    rfl
  refine ⟨serialInv_open.documentStore, ?_, ?_, ?_⟩ <;> rw [hnone] <;> simp

/-- **Run**: since an index was created, its lists are complete at every number. -/
theorem indexedStore_of_run (hF : PlainIds F) (hN : SeparatedNames N)
    (h : IndexedRun E F N σ created) : IndexedStore E F N created σ.snapshotId σ.db := by
  induction h with
  | opened => exact indexedStore_open
  | served _ hop happly ih => exact indexedStore_served hF hN hop happly ih

/-- **Index completeness**: in every state of such a run, the list of each indexed value
holds a link to the version that is seen. -/
theorem indexComplete_of_run (hF : PlainIds F) (hN : SeparatedNames N)
    (h : IndexedRun E F N σ created) : IndexComplete E σ := by
  have hσ := indexedStore_of_run hF hN h
  rintro index hindex ⟨I, o⟩ hmem
  rw [Collection.getIndexes_reader] at hindex
  obtain ⟨hI, hvis⟩ := (hσ.toDocumentStore.mem_documents_iff hF.separated).mp hmem
  obtain ⟨t, hv⟩ := visible_eq_some_iff.mp hvis
  obtain ⟨-, hlinked⟩ :=
    hσ.listsVisible index hindex σ.snapshotId (hσ.created_le index hindex) le_rfl
  obtain ⟨-, b, hb, hlink⟩ := linked_storedLinks.mp (hlinked I hI t o hv)
  refine ⟨t, b.unmarshalIndexValue, hv, ?_, hlink⟩
  have hget : kvGetValue E.backend σ.db (listKey E index σ.snapshotId o) = .ok b := by
    rw [kvGetValue, hb]
  rw [listKey] at hget
  rw [Reader.getIndexValueLinkKeys, Collection.reader]
  dsimp only
  rw [hget]

/-! ## An index created early and late -/

/-- The index `i` of the field `n`, created before the document `a` is stored and the
snapshot `A` is taken. -/
def indexedEarly (B : Backend) : Collection :=
  let E := Env.plain B
  let σ := ((Collection.open E .empty).transact E (.createIndex (qs "n") (qs "i"))).2
  let σ := (σ.transact E (.insertField "a" "n" .null)).2
  (σ.newSnapshot E (qs "A")).2

/-- The index lists the document that the current number inherits. -/
theorem indexComplete_indexedEarly : IndexComplete (Env.plain .map) (indexedEarly .map) := by
  have hempty : documents .map (Collection.open (Env.plain .map) .empty).db 0 = [] := by
    decide +kernel
  have hnone : ∀ p, p ∉ ((Collection.open (Env.plain .map) .empty).reader
      (Env.plain .map)).documents (Env.plain .map) := fun p hp => by
    have hp : p ∈ documents .map (Collection.open (Env.plain .map) .empty).db 0 := hp
    rw [hempty] at hp
    cases hp
  have hcreate : IndexedRun (Env.plain .map) oneByteIds {qs "i"} _ _ :=
    .served (.opened fun _ => 0)
      (show IndexedOp _ _ _ _ _ (.transact (.createIndex (qs "n") (qs "i"))) from
        .inr ⟨rfl, fun p hp => absurd hp (hnone p)⟩) rfl
  have hinsert : IndexedRun (Env.plain .map) oneByteIds {qs "i"} _ _ :=
    hcreate.served
      (show IndexedOp _ _ _ _ _ (.transact (.insertField "a" "n" .null)) from
        txIds_insertFieldA) rfl
  have hsnapshot : IndexedRun (Env.plain .map) oneByteIds {qs "i"} _ _ :=
    hinsert.served
      (show IndexedOp _ _ _ _ _ (.newSnapshot (qs "A")) from
        fun l hl => .inr (by cases hl; decide)) rfl
  refine indexComplete_of_run safeIds_oneByteIds.plain ?_ hsnapshot
  rintro n rfl m rfl -
  rfl

/-- The index `i` of the field `n`, created behind the snapshot `A` of the document `a`. -/
def indexedLate (B : Backend) : Collection :=
  ((snapshotA B).transact (Env.plain B) (.createIndex (qs "n") (qs "i"))).2

/-- The late index links a version of the current number, which is not there. -/
theorem not_indexComplete :
    ¬ ∀ (E : Env) (σ : Collection), Reachable E IndexRequest σ → IndexComplete E σ := by
  intro h
  have hreach : Reachable (Env.plain .map) IndexRequest (indexedLate .map) :=
    ((Reachable.opened.transact trivial).newSnapshot trivial).transact trivial
  have hindex : (qs "n", qs "i") ∈ ((indexedLate .map).reader (Env.plain .map)).getIndexes := by
    decide +kernel
  have hmem : (bytes "a", [(qs "_id", QJsonValue.string (qs "a")), (qs "n", .null)]) ∈
      documents .map (indexedLate .map).db 1 := by
    have hdocuments : documents .map (indexedLate .map).db 1 =
        [(bytes "a", [(qs "_id", .string (qs "a")), (qs "n", .null)])] := by decide +kernel
    rw [hdocuments]
    exact List.mem_singleton.mpr rfl
  obtain ⟨t, linkKeys, hv, hlist, hlink⟩ := h _ _ hreach _ hindex _ hmem
  have hlisted : ((indexedLate .map).reader (Env.plain .map)).getIndexValueLinkKeys
      (Env.plain .map) (qs "i") .null = some [constructDocumentLinkKey (bytes "a") 1] := by
    decide +kernel
  have hnone : (indexedLate .map).db.find? (constructDocumentLinkKey (bytes "a") 1) = none := by
    decide +kernel
  have hnull : getJsonValueByPath (.object [(qs "_id", .string (qs "a")), (qs "n", .null)])
      (qs "n") = .null := by decide +kernel
  rw [hnull, hlisted] at hlist
  rw [← Option.some.inj hlist, List.mem_singleton, constructDocumentLinkKey_inj] at hlink
  have hdoc := hv.document
  rw [hlink.2, hnone] at hdoc
  cases hdoc

end Qdocdb
