import Qdocdb.IndexWrites

/-!
# Removing what was inserted

`insert` links the value of each indexed field as it is, while `removeById` looks for the
link under each element when the value is an array. Both work on the lists of the current
snapshot number, where links of earlier versions may have stayed behind, and `removeById`
works on whatever document the scan from the start key finds first. So removing a document
that was inserted before leaves the store as it was exactly when the scan finds a document
of the snapshot's number that may be removed, and the links that the removal looks for take
back those that the insertion added (`undoes_iff`).
-/

namespace Qdocdb

/-! ## The scan behind a start key -/

section Scan

variable {B : Backend} {db : Store} {id : QByteArray} {s : Byte}

theorem scanVersions_of_find (p : QByteArray) (l : List (QByteArray × Blob)) {r : ValueScan}
    (h : r.find = true) : scanVersions p s l r = (r, l) := by
  cases l with
  | nil => rfl
  | cons e l => rw [scanVersions, if_neg (by simp [h])]

theorem isNaked_visit (r : ValueScan) (t : Byte) (b : Blob) (h : r.isNaked = false) :
    (r.visit s t b).isNaked = false := by
  unfold ValueScan.visit
  split
  · rfl
  · split
    · exact h
    · rfl

/-- What is not naked once stays so. -/
theorem isNaked_scanVersions (p : QByteArray) (l : List (QByteArray × Blob)) {r : ValueScan}
    (h : r.isNaked = false) : (scanVersions p s l r).1.isNaked = false := by
  induction l generalizing r with
  | nil => exact h
  | cons e l ih =>
    rw [scanVersions]
    split
    · apply ih
      split
      · exact isNaked_visit r _ _ h
      · exact h
    · exact h

/-- The scan from a stored start key visits the next key behind it first. -/
theorem seekValue_of_first {v b : Blob} {k : QByteArray}
    (hstart : db.find? (constructDocumentStartKey id) = some v) (hk : db.find? k = some b)
    (hp : constructDocumentStartKey id <+: k) (hlt : constructDocumentStartKey id < k)
    (hfirst : ∀ e ∈ db.entries, constructDocumentStartKey id < e.1 → k ≤ e.1) :
    ∃ l, seekValue B db s id = some
      (scanVersions (documentPrefix id) s l (ValueScan.init.visit s (lastByte k) b)).1 := by
  have hstored : db.find? (constructDocumentStartKey id) ≠ none := by simp [hstart]
  obtain ⟨hvalid, hbegin, hpre⟩ := @seek_of_startKey db B id hstored (newIterator db s)
  obtain ⟨l, hl⟩ := SortedMap.exists_seekGE_eq_cons_cons hstart hk hlt hfirst
  have hseek : kvSeek B db (constructDocumentStartKey id) =
      (constructDocumentStartKey id, v) :: (k, b) :: l :=
    kvSeek_of_suffix (hl ▸ List.dropWhile_suffix _) B
  have hlen : (documentPrefix id).length + 1 < k.length := by
    have hle := hp.length_le
    have hne : (constructDocumentStartKey id).length ≠ k.length := fun h =>
      hlt.ne (hp.eq_of_length h)
    simp only [length_constructDocumentStartKey, length_documentPrefix] at hle hne ⊢
    omega
  refine ⟨l, ?_⟩
  rw [seekValue_eq_some hvalid, Iterator.value, hbegin, hpre, hseek, snapshotId_seek]
  have hpk : documentPrefix id <+: k := (documentPrefix_prefix_startKey id).trans hp
  rw [scanVersions, if_pos ⟨documentPrefix_prefix_startKey id, rfl⟩, if_neg (by simp),
    scanVersions, if_pos ⟨hpk, rfl⟩, if_pos hlen]
  rfl

/-- The keys between the start key of an id and its version `s`. -/
def Between (id : QByteArray) (s : Byte) (k : QByteArray) : Prop :=
  constructDocumentStartKey id < k ∧ k < constructDocumentLinkKey id s

instance : DecidablePred (Between id s) := fun k =>
  inferInstanceAs (Decidable (constructDocumentStartKey id < k ∧ k < constructDocumentLinkKey id s))

theorem Between.startKey_prefix {k : QByteArray} (h : Between id s k) :
    constructDocumentStartKey id <+: k :=
  List.prefix_rfl.of_le_of_le (List.prefix_append _ _) h.1.le h.2.le

theorem Between.not_isMetaKey {k : QByteArray} (h : Between id s k) : ¬ IsMetaKey k := by
  rintro ⟨c, r, rfl, hc⟩
  obtain ⟨t, ht⟩ := h.startKey_prefix
  have hhead := (List.cons.inj ht).1
  exact hc.ne hhead

/-- What a scan finds for an id whose only version is `o`, stored for the number `s`. A key
between the start key and the version counts as a version too, numbered by its last byte;
nothing, if that is not the number `s` or there is no document. -/
def foundDocument (db : Store) (id : QByteArray) (s : Byte) (o : QJsonObject) :
    Option QJsonObject :=
  match db.entries.find? fun e => Between id s e.1 with
  | none => some o
  | some e => if lastByte e.1 = s then e.2.document? else none

theorem jsonValue_eq_object_iff {r : ValueScan} {o : QJsonObject} :
    r.jsonValue = .object o ↔ r.valueData.document? = some o := by
  obtain ⟨b, t, later, naked, found⟩ := r
  cases b <;> simp [ValueScan.jsonValue, Blob.isEmpty, Blob.unmarshal, Blob.document?]

/-- The version of the scan's own number, met first, ends the scan. -/
theorem scanVersions_visit_self (p : QByteArray) (l : List (QByteArray × Blob)) (b : Blob) :
    (scanVersions p s l (ValueScan.init.visit s s b)).1 = ⟨b, some s, true, true, true⟩ := by
  rw [ValueScan.visit_self, scanVersions_of_find p l rfl]
  rfl

/-- **The scan** after an insertion finds what `foundDocument` says, and otherwise a version
of another number first, or no document. -/
theorem seekValue_inserted {db' : Store} {v : Blob} {o : QJsonObject}
    (hstart : db'.find? (constructDocumentStartKey id) = some v)
    (hlink : db'.find? (constructDocumentLinkKey id s) = some (.document o))
    (hsame : ∀ k, Between id s k → db'.find? k = db.find? k) :
    ∃ scan, seekValue B db' s id = some scan ∧
      ((∃ o', foundDocument db id s o = some o' ∧ scan.jsonValue = .object o' ∧
          scan.snapshotId = some s ∧ scan.isNaked = true) ∨
        foundDocument db id s o = none ∧
          (scan.isNaked = false ∨ ∀ o', scan.jsonValue ≠ .object o')) := by
  have hmem : ∀ e ∈ db'.entries, Between id s e.1 → e ∈ db.entries := by
    intro e he hb
    rw [← SortedMap.find?_eq_some_iff, ← hsame _ hb]
    exact SortedMap.find?_eq_some_iff.mpr he
  cases hfind : db.entries.find? fun e => Between id s e.1 with
  | none =>
    rw [List.find?_eq_none] at hfind
    obtain ⟨l, hl⟩ := @seekValue_of_first B db' id s v _ _ hstart hlink
      (List.prefix_append _ _) (startKey_lt_linkKey id s) fun e he hlt => by
        by_contra hnot
        have hb : Between id s e.1 := ⟨hlt, not_le.mp hnot⟩
        exact hfind e (hmem e he hb) (decide_eq_true hb)
    rw [lastByte_linkKey, scanVersions_visit_self] at hl
    refine ⟨_, hl, .inl ⟨o, ?_, rfl, rfl, rfl⟩⟩
    rw [foundDocument, List.find?_eq_none.mpr hfind]
  | some e =>
    obtain ⟨he, hb, hmin⟩ := SortedMap.find?_entries_eq_some_iff.mp hfind
    have hbetween : Between id s e.1 := of_decide_eq_true hb
    have hk : db'.find? e.1 = some e.2 := by
      rw [hsame _ hbetween]
      exact SortedMap.find?_eq_some_iff.mpr he
    obtain ⟨l, hl⟩ := @seekValue_of_first B db' id s v _ _ hstart hk
      hbetween.startKey_prefix hbetween.1 fun e' he' hlt => by
        rcases lt_or_ge e'.1 (constructDocumentLinkKey id s) with h | h
        · exact hmin e' (hmem e' he' ⟨hlt, h⟩) (decide_eq_true ⟨hlt, h⟩)
        · exact hbetween.2.le.trans h
    have hfound : foundDocument db id s o =
        if lastByte e.1 = s then e.2.document? else none := by
      rw [foundDocument, hfind]
    by_cases hlast : lastByte e.1 = s
    · rw [if_pos hlast] at hfound
      rw [hlast, scanVersions_visit_self] at hl
      refine ⟨_, hl, ?_⟩
      cases hdoc : e.2.document? with
      | none =>
        refine .inr ⟨hfound.trans hdoc, .inr fun o' ho' => ?_⟩
        have hsome := jsonValue_eq_object_iff.mp ho'
        simp [hdoc] at hsome
      | some o' =>
        exact .inl ⟨o', hfound.trans hdoc, jsonValue_eq_object_iff.mpr hdoc, rfl, rfl⟩
    · rw [if_neg hlast] at hfound
      refine ⟨_, hl, .inr ⟨hfound, .inl (isNaked_scanVersions _ _ ?_)⟩⟩
      exact ValueScan.isNaked_visit_of_ne hlast _ _

end Scan

/-! ## The index loops -/

/-- A write of lists of links. -/
def ListWrite (w : WriteOp QByteArray Blob) : Prop :=
  indexPrefix <+: w.key ∧ ∀ b, w.outcome = some b → ∃ ls, ls ≠ [] ∧ b = .indexValue ls

theorem ListPut.listWrite {w : WriteOp QByteArray Blob} (h : ListPut w) : ListWrite w := by
  obtain ⟨n, s, d, ls, hls, rfl⟩ := h
  refine ⟨indexPrefix_prefix_constructIndexValueKey n s d, fun b hb => ⟨ls, hls, ?_⟩⟩
  exact (Option.some.inj hb).symm

theorem ListWrite.key_ne_of_isKeyOf {w : WriteOp QByteArray Blob} (h : ListWrite w)
    {id k : QByteArray} (hk : IsKeyOf id k) : w.key ≠ k := fun heq =>
  hk.not_indexPrefix (heq ▸ h.1)

theorem ListWrite.isMetaKey {w : WriteOp QByteArray Blob} (h : ListWrite w) : IsMetaKey w.key := by
  obtain ⟨⟨d, hd⟩, -⟩ := h
  exact ⟨105, bytes "v:" ++ d, hd.symm, by decide⟩

namespace Transaction

variable {E : Env} {db : Store} {tx tx' : Transaction}

/-- The entries that the index loop of `insert` adds a link to. -/
def addedKeys (E : Env) (s : Byte) (indexes : List (QString × QString)) (doc : QJsonObject) :
    List QByteArray :=
  indexes.map fun index =>
    constructIndexValueKey index.2 s
      (marshal E.toBinaryData (getJsonValueByPath (.object doc) index.1))

/-- The entries that the index loop of `removeById` looks into. -/
def removedKeys (E : Env) (s : Byte) (indexes : List (QString × QString)) (doc : QJsonObject) :
    List QByteArray :=
  indexes.flatMap fun index =>
    (indexedValues (getJsonValueByPath (.object doc) index.1)).map fun value =>
      constructIndexValueKey index.2 s (marshal E.toBinaryData value)

theorem addedLinks_eq (s : Byte) (indexes : List (QString × QString)) (doc : QJsonObject)
    (id : QByteArray) : addedLinks E s indexes doc id =
      (addedKeys E s indexes doc).map fun k => (k, constructDocumentLinkKey id s) := by
  simp [addedLinks, addedKeys]

theorem removedLinks_eq (s : Byte) (indexes : List (QString × QString)) (doc : QJsonObject)
    (linkKey : QByteArray) : removedLinks E s indexes doc linkKey =
      (removedKeys E s indexes doc).map fun k => (k, linkKey) := by
  simp [removedLinks, removedKeys, List.map_flatMap, Function.comp_def]

/-- The calls `ws` take `linkKey` out of entries, out of each one once, and add nothing. -/
structure Unlinks (E : Env) (db : Store) (linkKey : QByteArray)
    (ws : List (WriteOp QByteArray Blob)) (tx tx' : Transaction) : Prop where
  wrote : Wrote E ws tx tx'
  nodup : (ws.map WriteOp.key).Nodup
  lists : ∀ w ∈ ws, ListWrite w
  linked : ∀ w ∈ ws, (tx.links E db).Linked w.key linkKey
  unlinked : ∀ k, (tx'.links E db).Linked k linkKey →
    (tx.links E db).Linked k linkKey ∧ k ∉ ws.map WriteOp.key
  fewer : ∀ k l, (tx'.links E db).Linked k l → (tx.links E db).Linked k l

namespace Unlinks

variable {linkKey : QByteArray}

/-- The error text does not matter. -/
theorem of_kvdb_eq (hk : tx'.kvdb = tx.kvdb) (hs : tx'.snapshotId = tx.snapshotId) :
    Unlinks E db linkKey [] tx tx' := by
  have hlinks : tx'.links E db = tx.links E db := by
    funext k
    rw [links, links, reader, reader, hk]
  refine ⟨wrote_nil hk hs, List.nodup_nil, List.forall_mem_nil _, List.forall_mem_nil _, ?_, ?_⟩
  · exact fun k h => ⟨hlinks ▸ h, List.not_mem_nil⟩
  · exact fun k l h => hlinks ▸ h

theorem refl (tx : Transaction) : Unlinks E db linkKey [] tx tx := of_kvdb_eq rfl rfl

/-- What an entry has lost it does not lose again. -/
theorem trans {tx'' : Transaction} {ws ws' : List (WriteOp QByteArray Blob)}
    (h : Unlinks E db linkKey ws tx tx') (h' : Unlinks E db linkKey ws' tx' tx'') :
    Unlinks E db linkKey (ws ++ ws') tx tx'' where
  wrote := h.wrote.trans h'.wrote
  nodup := by
    rw [List.map_append, List.nodup_append]
    refine ⟨h.nodup, h'.nodup, fun k hk k' hk' heq => ?_⟩
    obtain ⟨w, hw, rfl⟩ := List.mem_map.mp hk'
    exact (h.unlinked _ (h'.linked w hw)).2 (heq ▸ hk)
  lists := List.forall_mem_append.mpr ⟨h.lists, h'.lists⟩
  linked := by
    intro w hw
    rcases List.mem_append.mp hw with hw | hw
    · exact h.linked w hw
    · exact (h.unlinked _ (h'.linked w hw)).1
  unlinked := by
    intro k hk
    obtain ⟨hk', hnot'⟩ := h'.unlinked k hk
    obtain ⟨hk'', hnot⟩ := h.unlinked k hk'
    exact ⟨hk'', by simpa [hnot] using hnot'⟩
  fewer := fun k l hl => h.fewer k l (h'.fewer k l hl)

end Unlinks

/-- **removeIndexValue** takes the link out of the entry, if it is in it. -/
theorem removeIndexValue_unlinks (n : QString) (v : QJsonValue) (linkKey : QByteArray) :
    ∃ ws, Unlinks E db linkKey ws tx (tx.removeIndexValue E db n v linkKey).2 := by
  have hkey := @indexPrefix_prefix_indexValueKey E tx n v
  have hremoved := @removeIndexValue_links E db tx n v linkKey
  rw [removeIndexValue] at hremoved ⊢
  dsimp only at hremoved ⊢
  cases hget : (tx.reader E db).getValue (tx.indexValueKey E n v) with
  | error e => exact ⟨[], .of_kvdb_eq rfl rfl⟩
  | ok b =>
    rw [hget] at hremoved
    dsimp only at hremoved ⊢
    split at hremoved
    · rename_i hmem
      rw [if_pos hmem]
      cases hremoved with
      | removed hall hs =>
        have hlinked := fun k l => @LinkTable.linked_removeAll _ _ _ _ _ _ k l _ hall
        refine ⟨_, wrote_writes _ _, List.nodup_singleton _, ?_, ?_, fun k hk => ?_,
          fun k l hl => ((hlinked k l).mp hl).1⟩
        · rw [List.forall_mem_singleton]
          split
          · exact ⟨hkey, fun b' hb' => by cases hb'⟩
          · rename_i hne
            exact ⟨hkey, fun b' hb' => ⟨_, hne, (Option.some.inj hb').symm⟩⟩
        · rw [List.forall_mem_singleton]
          have hlist : (tx.links E db) (tx.indexValueKey E n v) = some b.unmarshalIndexValue := by
            rw [ links_of_prefix hkey, hget]
            rfl
          split
          · exact ⟨_, hlist, by simpa using hmem⟩
          · exact ⟨_, hlist, by simpa using hmem⟩
        · obtain ⟨hk, hnot⟩ := (hlinked k linkKey).mp hk
          refine ⟨hk, fun hmem => hnot ?_⟩
          rw [List.map_singleton, List.mem_singleton] at hmem
          rw [List.mem_singleton, hmem]
          split <;> rfl
    · rename_i hmem
      rw [if_neg hmem]
      exact ⟨[], .refl tx⟩

theorem removeIndexValues_unlinks (n : QString) (linkKey : QByteArray) (values : List QJsonValue) :
    ∃ ws, Unlinks E db linkKey ws tx (removeIndexValues E db n linkKey values tx).2 := by
  induction values generalizing tx with
  | nil => exact ⟨[], .refl tx⟩
  | cons v values ih =>
    obtain ⟨ws, hws⟩ := @removeIndexValue_unlinks E db tx n v linkKey
    rw [removeIndexValues]
    split
    · rename_i tx₁ hfirst
      rw [hfirst] at hws
      obtain ⟨ws', hws'⟩ := @ih tx₁
      exact ⟨ws ++ ws', hws.trans hws'⟩
    · rename_i tx₁ hfirst
      rw [hfirst] at hws
      exact ⟨ws, hws⟩

/-- **The index loop of removeById**, as far as it goes. -/
theorem removeFromIndexes_unlinks (doc : QJsonObject) (linkKey : QByteArray)
    (indexes : List (QString × QString)) :
    ∃ ws, Unlinks E db linkKey ws tx (removeFromIndexes E db doc linkKey indexes tx).2 := by
  induction indexes generalizing tx with
  | nil => exact ⟨[], .refl tx⟩
  | cons index indexes ih =>
    obtain ⟨ws, hws⟩ := @removeIndexValues_unlinks E db tx index.2 linkKey
      (indexedValues (getJsonValueByPath (.object doc) index.1))
    rw [removeFromIndexes]
    split
    · rename_i tx₁ hfirst
      rw [hfirst] at hws
      obtain ⟨ws', hws'⟩ := @ih tx₁
      exact ⟨ws ++ ws', hws.trans hws'⟩
    · rename_i tx₁ _ hfirst
      rw [hfirst] at hws
      exact ⟨ws, hws⟩

theorem RemovesLinks.removeAll_eq {pairs : List (QByteArray × QByteArray)}
    {result : ResultEnum × Transaction} (h : RemovesLinks E db tx pairs result)
    (hsuccess : result.1 = .success) :
    LinkTable.removeAll pairs (tx.links E db) = some (result.2.links E db) := by
  cases h with
  | failed h => cases hsuccess
  | removed h hs => exact h

/-- **removeById** of an id that it finds: the writes on the version, and lists without the
link, each one once. -/
theorem removeById_unlinks {id : QByteArray} {ignoreReadOnlyValue : Bool} {o : QJsonObject}
    {scan : ValueScan}
    (h : removable E db tx.snapshotId id ignoreReadOnlyValue = some (o, scan)) :
    ∃ iws, Wrote E (removeVersion id tx.snapshotId scan ++ iws) tx
        (tx.removeById E db id ignoreReadOnlyValue).2 ∧
      (iws.map WriteOp.key).Nodup ∧
      (∀ w ∈ iws, ListWrite w ∧
        (tx.links E db).Linked w.key (constructDocumentLinkKey id (scan.snapshotId.getD 0))) ∧
      ∀ k l, ((tx.removeById E db id ignoreReadOnlyValue).2.links E db).Linked k l →
        (tx.links E db).Linked k l := by
  have hlinks : (tx.writes E (removeVersion id tx.snapshotId scan)).links E db = tx.links E db :=
    links_writes_of_isKeyOf fun w hw => ⟨id, removeVersion_key hw⟩
  obtain ⟨iws, hiws⟩ := @removeFromIndexes_unlinks E db
    (tx.writes E (removeVersion id tx.snapshotId scan)) o
    (constructDocumentLinkKey id (scan.snapshotId.getD 0)) (tx.reader E db).getIndexes
  have hwrote := (wrote_writes (E := E) tx (removeVersion id tx.snapshotId scan)).trans hiws.wrote
  have hlists : ∀ w ∈ iws, ListWrite w ∧
      (tx.links E db).Linked w.key (constructDocumentLinkKey id (scan.snapshotId.getD 0)) :=
    fun w hw => ⟨hiws.lists w hw, hlinks ▸ hiws.linked w hw⟩
  have hfewer := hiws.fewer
  rw [hlinks] at hfewer
  rw [removeById_eq h]
  split
  · rename_i tx₁ hres
    rw [hres] at hwrote hfewer
    exact ⟨iws, hwrote.congr rfl rfl, hiws.nodup, hlists, hfewer⟩
  · rename_i tx₁ _ hres
    rw [hres] at hwrote hfewer
    exact ⟨iws, hwrote.congr rfl rfl, hiws.nodup, hlists, hfewer⟩

end Transaction

/-! ## The content -/

/-- **Equal content**: writes of lists leave the content as it was when they leave the keys
of documents and the table of links. -/
theorem eq_of_storedLinks {db db' : Store} {id : QByteArray} {ws : List (WriteOp QByteArray Blob)}
    (hdb : db' = db.applyLog ws) (hws : ∀ w ∈ ws, IsKeyOf id w.key ∨ ListWrite w)
    (hdocs : ∀ k, IsKeyOf id k → db'.find? k = db.find? k)
    (hlinks : storedLinks db' = storedLinks db) : db' = db := by
  apply SortedMap.ext_find?
  intro k
  have hfind : db'.find? k = (lastWrite ws k).getD (db.find? k) := by
    rw [hdb, SortedMap.find?_applyLog]
  cases hlast : lastWrite ws k with
  | none => rw [hfind, hlast, Option.getD_none]
  | some r =>
    obtain ⟨w, hw, rfl, rfl⟩ := exists_mem_of_lastWrite_eq_some hlast
    rw [hlast, Option.getD_some] at hfind
    rcases hws w hw with hk | ⟨hk, hlist⟩
    · exact hdocs _ hk
    · -- the blob under the key of a list is told by the list
      have htable := congrFun hlinks w.key
      rw [storedLinks, storedLinks, if_pos hk, if_pos hk, hfind] at htable
      rw [hfind]
      cases hout : w.outcome with
      | none =>
        rw [hout, Option.map_none, eq_comm, Option.map_eq_none_iff] at htable
        exact htable.symm
      | some b =>
        obtain ⟨ls, hls, rfl⟩ := hlist b hout
        rw [hout, Option.map_some, eq_comm, Option.map_eq_some_iff] at htable
        obtain ⟨b, hb, heq⟩ := htable
        rw [hb]
        cases b with
        | indexValue ls' => rw [show ls' = ls from heq]
        | _ => exact absurd heq.symm hls

namespace Collection

open Transaction

variable {E : Env} {σ : Collection}

/-- An insertion succeeds when it takes the document. -/
theorem transact_insert_success_iff {doc : QJsonObject} {gen : IdGen}
    {overwrite ignoreReadOnlyValue : Bool} :
    (σ.transact E (.insert doc gen overwrite ignoreReadOnlyValue)).1 = .success ↔
      accepted E σ.db σ.snapshotId doc gen overwrite ignoreReadOnlyValue ≠ none := by
  constructor
  · intro h hacc
    obtain ⟨r, id, lastError, hr, heq⟩ := @insert_of_accepted_eq_none E σ.db σ.newTransaction
      doc gen overwrite ignoreReadOnlyValue hacc
    have hrun := run_of_transact_success h
    rw [TxOp.run, heq] at hrun
    exact hr hrun
  · intro h
    obtain ⟨⟨id, o, isOld⟩, hacc⟩ := Option.ne_none_iff_exists'.mp h
    have heq := @insert_of_accepted E σ.db σ.newTransaction doc gen overwrite
      ignoreReadOnlyValue id o isOld hacc
    have hrun : (TxOp.insert doc gen overwrite ignoreReadOnlyValue).run E σ.db
        σ.newTransaction = (.success, σ.newTransaction.store E σ.db id o isOld) := by
      rw [TxOp.run, heq]
    obtain ⟨iws, hiws, hw⟩ := @store_lists E σ.db σ.newTransaction id o isOld
    -- a commit of puts goes through
    have hputs : ∀ k, WriteOp.delete k ∉ putJsonValue id σ.snapshotId o ++ iws := by
      intro k hk
      rcases List.mem_append.mp hk with hk | hk
      · simp [putJsonValue] at hk
      · exact (hiws _ hk).indexPut.ne_delete k rfl
    have hw' : Wrote E (putJsonValue id σ.snapshotId o ++ iws) σ.newTransaction
        ((TxOp.insert doc gen overwrite ignoreReadOnlyValue).run E σ.db σ.newTransaction).2 := by
      rw [hrun]
      exact hw
    rw [(transact_spec _ hw').2 (by rw [commit_of_disjoint fun k hk => absurd hk (hputs k)]), hrun]

/-- An insertion that succeeds stores a document. -/
theorem accepted_of_transact_success {doc : QJsonObject} {gen : IdGen}
    {overwrite ignoreReadOnlyValue : Bool}
    (h : (σ.transact E (.insert doc gen overwrite ignoreReadOnlyValue)).1 = .success)
    {id : QByteArray} {d : QJsonObject} (hid : documentId doc gen = some (id, d)) :
    ∃ o isOld, accepted E σ.db σ.snapshotId doc gen overwrite ignoreReadOnlyValue =
      some (id, o, isOld) := by
  obtain ⟨⟨id', o, isOld⟩, hacc⟩ :=
    Option.ne_none_iff_exists'.mp (transact_insert_success_iff.mp h)
  obtain ⟨d', hd', -⟩ := documentId_of_accepted hacc
  obtain ⟨rfl, -⟩ := Prod.mk.inj (Option.some.inj (hid.symm.trans hd'))
  exact ⟨o, isOld, hacc⟩

section Removal

variable {id : QByteArray} {ignoreReadOnlyValue : Bool} {o : QJsonObject} {scan : ValueScan}

/-- The links that the removal of a version of the current number takes away. -/
theorem removesLinks_newTransaction
    (hfound : removable E σ.db σ.snapshotId id ignoreReadOnlyValue = some (o, scan))
    (hs : scan.snapshotId = some σ.snapshotId) :
    RemovesLinks E σ.db σ.newTransaction
      (removedLinks E σ.snapshotId (storedIndexes σ.db) o
        (constructDocumentLinkKey id σ.snapshotId))
      (σ.newTransaction.removeById E σ.db id ignoreReadOnlyValue) := by
  have hlinks : removalLinks E σ.db σ.snapshotId (storedIndexes σ.db) ignoreReadOnlyValue id =
      removedLinks E σ.snapshotId (storedIndexes σ.db) o
        (constructDocumentLinkKey id σ.snapshotId) := by
    rw [removalLinks, hfound]
    dsimp only
    rw [hs, Option.getD_some]
  have hremoves := (@removeById_of_removable E σ.db σ.newTransaction id ignoreReadOnlyValue o scan
    hfound).2.1
  rw [getIndexes_newTransaction, getIndexes_reader] at hremoves
  exact hlinks ▸ hremoves

/-- **removeById** of a version that is the only one and of the current number commits the
deletion of the document's keys, and the lists that have lost its link. -/
theorem transact_removeById_writes
    (hfound : removable E σ.db σ.snapshotId id ignoreReadOnlyValue = some (o, scan))
    (hs : scan.snapshotId = some σ.snapshotId) (hnaked : scan.isNaked = true)
    (hstored : E.backend = .levelDB ∨ σ.db.find? (constructDocumentStartKey id) ≠ none ∧
      σ.db.find? (constructDocumentLinkKey id σ.snapshotId) ≠ none) :
    (σ.transact E (.removeById id ignoreReadOnlyValue)).1 =
        (σ.newTransaction.removeById E σ.db id ignoreReadOnlyValue).1 ∧
      storedLinks (σ.transact E (.removeById id ignoreReadOnlyValue)).2.db =
        (σ.newTransaction.removeById E σ.db id ignoreReadOnlyValue).2.links E σ.db ∧
      (∀ k l, (storedLinks (σ.transact E (.removeById id ignoreReadOnlyValue)).2.db).Linked k l →
        (storedLinks σ.db).Linked k l) ∧
      ∃ iws, (∀ w ∈ iws, ListWrite w) ∧
        (σ.transact E (.removeById id ignoreReadOnlyValue)).2.db = σ.db.applyLog
          ([.delete (constructDocumentLinkKey id σ.snapshotId),
            .delete (constructDocumentStartKey id)] ++ iws) := by
  have hversion : removeVersion id σ.snapshotId scan =
      [.delete (constructDocumentLinkKey id σ.snapshotId),
        .delete (constructDocumentStartKey id)] := by
    rw [removeVersion, if_neg (by simp [hs, hnaked])]
  obtain ⟨iws, hwrote, hnodup, hiws, hfewer⟩ := @removeById_unlinks E σ.db σ.newTransaction id
    ignoreReadOnlyValue o scan hfound
  obtain ⟨hc, hsuccess⟩ := @transact_spec E σ (.removeById id ignoreReadOnlyValue) _ hwrote
  have hwrites : removeVersion id σ.newTransaction.snapshotId scan ++ iws =
      [.delete (constructDocumentLinkKey id σ.snapshotId),
        .delete (constructDocumentStartKey id)] ++ iws := congrArg (· ++ iws) hversion
  have hcommit : commit E.backend σ.db (removeVersion id σ.newTransaction.snapshotId scan ++ iws) =
      (.success, σ.db.applyLog (removeVersion id σ.newTransaction.snapshotId scan ++ iws)) := by
    rcases hstored with hB | ⟨hstart, hlink⟩
    · rw [hB, commit_levelDB]
    -- each key is written once, and what is deleted is stored
    rw [hwrites]
    refine commit_of_disjoint fun k hk => ?_
    rcases List.mem_append.mp hk with hk | hk
    · simp only [List.mem_cons, WriteOp.delete.injEq, List.not_mem_nil, or_false] at hk
      have hkey : IsKeyOf id k := by
        rcases hk with rfl | rfl
        · exact isKeyOf_linkKey id _
        · exact isKeyOf_startKey id
      refine ⟨?_, fun v hv => ?_⟩
      · rcases hk with rfl | rfl
        · exact hlink
        · exact hstart
      · rcases List.mem_append.mp hv with hv | hv
        · simp at hv
        · exact (hiws _ hv).1.key_ne_of_isKeyOf hkey rfl
    · refine ⟨?_, fun v hv => ?_⟩
      · have hlinked := (hiws _ hk).2
        rw [links_newTransaction] at hlinked
        obtain ⟨-, b, hb, -⟩ := linked_storedLinks.mp hlinked
        exact hb ▸ Option.some_ne_none b
      · rcases List.mem_append.mp hv with hv | hv
        · simp at hv
        · have hdel := List.inj_on_of_nodup_map hnodup hk hv rfl
          cases hdel
  have hlinks : storedLinks (σ.transact E (.removeById id ignoreReadOnlyValue)).2.db =
      (σ.newTransaction.removeById E σ.db id ignoreReadOnlyValue).2.links E σ.db := by
    rw [hc.db, hcommit]
    exact (@links_eq_storedLinks E σ.db _ _ (hwrote.kvdb_eq kvdb_newTransaction)).symm
  rw [hcommit] at hsuccess
  refine ⟨hsuccess rfl, hlinks, fun k l hl => ?_, iws, fun w hw => (hiws w hw).1, ?_⟩
  · rw [hlinks] at hl
    exact links_newTransaction (E := E) ▸ hfewer k l hl
  · rw [hc.db, hcommit, hwrites]

/-- **removeById** of such a version succeeds, and takes its links away, when the lists are
there. -/
theorem transact_removeById_of_naked
    (hfound : removable E σ.db σ.snapshotId id ignoreReadOnlyValue = some (o, scan))
    (hs : scan.snapshotId = some σ.snapshotId) (hnaked : scan.isNaked = true)
    (hstart : σ.db.find? (constructDocumentStartKey id) ≠ none)
    (hlink : σ.db.find? (constructDocumentLinkKey id σ.snapshotId) ≠ none) {t : LinkTable _ _}
    (ht : LinkTable.removeAll (removedLinks E σ.snapshotId (storedIndexes σ.db) o
      (constructDocumentLinkKey id σ.snapshotId)) (storedLinks σ.db) = some t) :
    (σ.transact E (.removeById id ignoreReadOnlyValue)).1 = .success ∧
      storedLinks (σ.transact E (.removeById id ignoreReadOnlyValue)).2.db = t ∧
      ∃ iws, (∀ w ∈ iws, ListWrite w) ∧
        (σ.transact E (.removeById id ignoreReadOnlyValue)).2.db = σ.db.applyLog
          ([.delete (constructDocumentLinkKey id σ.snapshotId),
            .delete (constructDocumentStartKey id)] ++ iws) := by
  have hremoves := removesLinks_newTransaction hfound hs
  have hrun : (σ.newTransaction.removeById E σ.db id ignoreReadOnlyValue).1 = .success := by
    rw [hremoves.success_iff, links_newTransaction, ← LinkTable.removeAll_isSome_iff, ht]
    rfl
  obtain ⟨hresult, hlinks, -, hwrites⟩ :=
    transact_removeById_writes hfound hs hnaked (.inr ⟨hstart, hlink⟩)
  refine ⟨hresult.trans hrun, ?_, hwrites⟩
  have hall := hremoves.removeAll_eq hrun
  rw [links_newTransaction, ht] at hall
  exact hlinks.trans (Option.some.inj hall).symm

/-- A removal that finds nothing does not succeed. -/
theorem transact_removeById_of_removable_eq_none
    (h : removable E σ.db σ.snapshotId id ignoreReadOnlyValue = none) :
    (σ.transact E (.removeById id ignoreReadOnlyValue)).1 ≠ .success := by
  intro hsuccess
  obtain ⟨r, lastError, hr, heq⟩ := @removeById_of_removable_eq_none E σ.db σ.newTransaction id
    ignoreReadOnlyValue h
  have hrun := run_of_transact_success hsuccess
  rw [TxOp.run, heq] at hrun
  exact hr hrun

/-- Next to a version of another number the removal leaves a tombstone, if it succeeds. -/
theorem find?_transact_removeById_of_not_naked
    (hlook : seekValue E.backend σ.db σ.snapshotId id = some scan) (hnaked : scan.isNaked = false)
    (hlink : σ.db.find? (constructDocumentLinkKey id σ.snapshotId) ≠ none) :
    (σ.transact E (.removeById id ignoreReadOnlyValue)).2.db.find?
      (constructDocumentLinkKey id σ.snapshotId) ≠ none := by
  obtain ⟨r, ws, hws, -, hc, -⟩ := @transact_removeById E σ id ignoreReadOnlyValue
  rw [hc.db]
  rcases find?_commit_cases E.backend σ.db ws (constructDocumentLinkKey id σ.snapshotId) with
    h | ⟨w, hw, hkey, h⟩
  · exact h ▸ hlink
  · rw [h]
    cases hws with
    | refused hr => cases hw
    | removed hlook' hdoc hiws hnone =>
      obtain rfl := Option.some.inj (hlook.symm.trans hlook')
      rw [removeVersion, if_pos (.inr hnaked)] at hw
      rcases List.mem_append.mp hw with hw | hw
      · rw [List.mem_singleton.mp hw]
        simp
      · have hmeta := (hiws w hw).isMetaKey
        rw [hkey] at hmeta
        exact absurd (isKeyOf_linkKey id σ.snapshotId) hmeta.not_isKeyOf

end Removal

/-! ## Insertion and removal -/

section Undo

variable {doc : QJsonObject} {gen : IdGen} {overwrite ignoreReadOnlyValue : Bool}
  {id : QByteArray} {o : QJsonObject} {isOld : Bool}

/-- The state after an insertion. -/
structure Inserted (E : Env) (id : QByteArray) (o : QJsonObject) (σ σ' : Collection) : Prop where
  snapshotId : σ'.snapshotId = σ.snapshotId
  startKey : σ'.db.find? (constructDocumentStartKey id) = some .empty
  linkKey : σ'.db.find? (constructDocumentLinkKey id σ.snapshotId) = some (.document o)
  other : ∀ k, k ≠ constructDocumentStartKey id → k ≠ constructDocumentLinkKey id σ.snapshotId →
    ¬ IsMetaKey k → σ'.db.find? k = σ.db.find? k
  indexes : storedIndexes σ'.db = storedIndexes σ.db
  links : storedLinks σ'.db = (storedLinks σ.db).addAll
    ((addedKeys E σ.snapshotId (storedIndexes σ.db) o).map fun k =>
      (k, constructDocumentLinkKey id σ.snapshotId))
  content : ∃ iws, (∀ w ∈ iws, ListWrite w) ∧
    σ'.db = σ.db.applyLog (putJsonValue id σ.snapshotId o ++ iws)

theorem inserted_of_accepted
    (hacc : accepted E σ.db σ.snapshotId doc gen overwrite ignoreReadOnlyValue =
      some (id, o, isOld)) :
    Inserted E id o σ (σ.transact E (.insert doc gen overwrite ignoreReadOnlyValue)).2 := by
  obtain ⟨iws, hiws, hdb, hs, hlinks⟩ := transact_insert_lists hacc
  generalize (σ.transact E (.insert doc gen overwrite ignoreReadOnlyValue)).2 = σ' at *
  have hfind : ∀ k, (∀ w ∈ iws, w.key ≠ k) → σ'.db.find? k =
      if k = constructDocumentLinkKey id σ.snapshotId then some (.document o)
      else if k = constructDocumentStartKey id then some .empty else σ.db.find? k := by
    intro k hk
    rw [hdb, SortedMap.applyLog_append, SortedMap.find?_applyLog_of_forall_ne _ hk, putJsonValue,
      SortedMap.applyLog_cons, SortedMap.applyLog_cons, SortedMap.applyLog_nil]
    simp only [WriteOp.find?_apply, WriteOp.key_put, WriteOp.outcome_put]
    congr
  have hdoc : ∀ k, IsKeyOf id k → ∀ w ∈ iws, w.key ≠ k := fun k hk w hw =>
    (hiws w hw).listWrite.key_ne_of_isKeyOf hk
  refine ⟨hs, ?_, ?_, fun k hstart hlink hmeta => ?_, ?_, ?_, iws, ?_, hdb⟩
  · rw [hfind _ (hdoc _ (isKeyOf_startKey id)), if_neg (startKey_lt_linkKey _ _).ne, if_pos rfl]
  · rw [hfind _ (hdoc _ (isKeyOf_linkKey id _)), if_pos rfl]
  · rw [hfind k fun w hw heq => hmeta (heq ▸ (hiws w hw).indexPut.isMetaKey), if_neg hlink,
      if_neg hstart]
  · apply storedIndexes_congr
    rw [hdb, SortedMap.find?_applyLog_of_forall_ne]
    intro w hw
    rcases List.mem_append.mp hw with hw | hw
    · exact putJsonValue_key_ne_indexesKey w hw
    · exact (hiws w hw).indexPut.key_ne_indexesKey
  · rw [hlinks, addedLinks_eq]
  · exact fun w hw => (hiws w hw).listWrite

/-- Removing the id after the insertion succeeds, and leaves the content that the store had
before. -/
def Undoes (E : Env) (σ : Collection) (doc : QJsonObject) (gen : IdGen)
    (overwrite ignoreReadOnlyValue : Bool) (id : QByteArray) (ignoreReadOnlyValue' : Bool) :
    Prop :=
  let σ' := (σ.transact E (.insert doc gen overwrite ignoreReadOnlyValue)).2
  (σ'.transact E (.removeById id ignoreReadOnlyValue')).1 = .success ∧
    (σ'.transact E (.removeById id ignoreReadOnlyValue')).2.db = σ.db

/-- The scan finds a document `o'` of the current number that may be removed, and the links
that its removal looks for take back those that storing `o` adds. -/
structure TakesBack (E : Env) (σ : Collection) (id : QByteArray) (o o' : QJsonObject)
    (ignoreReadOnlyValue : Bool) : Prop where
  found : foundDocument σ.db id σ.snapshotId o = some o'
  unprotected : isProtected E (.object o') ignoreReadOnlyValue = false
  links : (storedLinks σ.db).TakesBack (constructDocumentLinkKey id σ.snapshotId)
    (addedKeys E σ.snapshotId (storedIndexes σ.db) o)
    (removedKeys E σ.snapshotId (storedIndexes σ.db) o')

/-- After the keys of the id are deleted the content is the one before, if the lists are. -/
theorem Inserted.eq_of_storedLinks {σ' : Collection} (h : Inserted E id o σ σ')
    (hnew : ∀ k, IsKeyOf id k → σ.db.find? k = none) {db' : Store}
    {iws : List (WriteOp QByteArray Blob)} (hiws : ∀ w ∈ iws, ListWrite w)
    (hdb' : db' = σ'.db.applyLog ([.delete (constructDocumentLinkKey id σ'.snapshotId),
      .delete (constructDocumentStartKey id)] ++ iws))
    (hlinks : storedLinks db' = storedLinks σ.db) : db' = σ.db := by
  obtain ⟨iws₀, hiws₀, hdb⟩ := h.content
  have hwrites : db' = σ.db.applyLog (putJsonValue id σ.snapshotId o ++ iws₀ ++
      ([.delete (constructDocumentLinkKey id σ'.snapshotId),
        .delete (constructDocumentStartKey id)] ++ iws)) := by
    rw [hdb', hdb, ← SortedMap.applyLog_append]
  apply @Qdocdb.eq_of_storedLinks σ.db db' id _ hwrites _ _ hlinks
  · intro w hw
    simp only [List.mem_append, List.mem_cons, List.not_mem_nil, or_false] at hw
    rcases hw with (hw | hw) | ((rfl | rfl) | hw)
    · exact .inl (putJsonValue_key hw)
    · exact .inr (hiws₀ w hw)
    · exact .inl (isKeyOf_linkKey id _)
    · exact .inl (isKeyOf_startKey id)
    · exact .inr (hiws w hw)
  · intro k hk
    rw [hnew k hk, hdb', SortedMap.applyLog_append, SortedMap.find?_applyLog_of_forall_ne _
      fun w hw => (hiws w hw).key_ne_of_isKeyOf hk, SortedMap.applyLog_cons,
      SortedMap.applyLog_cons, SortedMap.applyLog_nil, WriteOp.find?_apply, WriteOp.find?_apply]
    by_cases hstart : k = constructDocumentStartKey id
    · exact if_pos hstart
    · by_cases hlink : k = constructDocumentLinkKey id σ'.snapshotId
      · exact (if_neg hstart).trans (if_pos hlink)
      · have hother : σ'.db.find? k = none := by
          rw [h.other k hstart (h.snapshotId ▸ hlink) fun hmeta => hmeta.not_isKeyOf hk, hnew k hk]
        exact (if_neg hstart).trans ((if_neg hlink).trans hother)

/-- The removal of a document found alone and of the current number undoes the insertion when
the links that it takes away take back those that were added. -/
theorem Inserted.undone_iff {σ' : Collection} {o' : QJsonObject} {scan : ValueScan}
    (h : Inserted E id o σ σ') (hnew : ∀ k, IsKeyOf id k → σ.db.find? k = none)
    (hfound : removable E σ'.db σ'.snapshotId id ignoreReadOnlyValue = some (o', scan))
    (hs : scan.snapshotId = some σ'.snapshotId) (hnaked : scan.isNaked = true) :
    (σ'.transact E (.removeById id ignoreReadOnlyValue)).1 = .success ∧
        (σ'.transact E (.removeById id ignoreReadOnlyValue)).2.db = σ.db ↔
      (storedLinks σ.db).TakesBack (constructDocumentLinkKey id σ.snapshotId)
        (addedKeys E σ.snapshotId (storedIndexes σ.db) o)
        (removedKeys E σ.snapshotId (storedIndexes σ.db) o') := by
  have hlink : σ'.db.find? (constructDocumentLinkKey id σ'.snapshotId) ≠ none := by
    simp [h.snapshotId, h.linkKey]
  have hstart : σ'.db.find? (constructDocumentStartKey id) ≠ none := by simp [h.startKey]
  have hspec := @transact_removeById_of_naked E σ' id ignoreReadOnlyValue o' scan hfound hs hnaked
    hstart hlink
  rw [← LinkTable.removeAll_addAll_iff, ← h.links, ← h.indexes, ← h.snapshotId, ← removedLinks_eq]
  constructor
  · rintro ⟨hsuccess, hsame⟩
    -- the loop has gone through, to the table of the store that the removal leaves
    have hrun : (σ'.newTransaction.removeById E σ'.db id ignoreReadOnlyValue).1 = .success :=
      run_of_transact_success hsuccess
    have ht := (removesLinks_newTransaction hfound hs).removeAll_eq hrun
    rw [links_newTransaction] at ht
    obtain ⟨-, hstored, -⟩ := hspec ht
    rw [hsame] at hstored
    rw [ht, hstored]
  · intro ht
    obtain ⟨hsuccess, hlinks, iws, hiws, hdb'⟩ := hspec ht
    exact ⟨hsuccess, h.eq_of_storedLinks hnew hiws hdb' hlinks⟩

section Removable

variable {db : Store} {s : Byte} {scan : ValueScan} (hlook : seekValue E.backend db s id = some scan)
include hlook

/-- The scan finds a document, which may be protected. -/
theorem removable_of_object {doc : QJsonObject} (hjson : scan.jsonValue = .object doc)
    (ignoreReadOnlyValue : Bool) : removable E db s id ignoreReadOnlyValue =
      if isProtected E (.object doc) ignoreReadOnlyValue then none else some (doc, scan) := by
  rw [removable, hlook, Option.getD_some, hjson]

/-- The scan finds no document. -/
theorem removable_of_not_object (hjson : ∀ doc, scan.jsonValue ≠ .object doc)
    {ignoreReadOnlyValue : Bool} : removable E db s id ignoreReadOnlyValue = none := by
  rw [removable, hlook, Option.getD_some]
  split
  · rename_i doc hdoc
    exact absurd hdoc (hjson doc)
  · rfl

end Removable

theorem undoes_of_accepted
    (hacc : accepted E σ.db σ.snapshotId doc gen overwrite ignoreReadOnlyValue =
      some (id, o, isOld)) (hnew : ∀ k, IsKeyOf id k → σ.db.find? k = none)
    {ignoreReadOnlyValue' : Bool} :
    Undoes E σ doc gen overwrite ignoreReadOnlyValue id ignoreReadOnlyValue' ↔
      ∃ o', TakesBack E σ id o o' ignoreReadOnlyValue' := by
  have hins := inserted_of_accepted hacc
  rw [Undoes]
  generalize (σ.transact E (.insert doc gen overwrite ignoreReadOnlyValue)).2 = σ' at *
  obtain ⟨scan, hlook, hfound⟩ := @seekValue_inserted E.backend σ.db id σ.snapshotId σ'.db _ o
    hins.startKey hins.linkKey fun k hb => hins.other k hb.1.ne' hb.2.ne hb.not_isMetaKey
  rw [← hins.snapshotId] at hlook
  rcases hfound with ⟨o', ho', hjson, hs, hnaked⟩ | ⟨hnone, hbad⟩
  · have hremovable := removable_of_object hlook hjson ignoreReadOnlyValue'
    cases hp : isProtected E (.object o') ignoreReadOnlyValue' with
    | true =>
      rw [hp, if_pos rfl] at hremovable
      refine ⟨fun h => absurd h.1 (transact_removeById_of_removable_eq_none hremovable), ?_⟩
      rintro ⟨o'', h⟩
      obtain rfl := Option.some.inj (ho'.symm.trans h.found)
      exact absurd (hp.symm.trans h.unprotected) (by simp)
    | false =>
      rw [hp, if_neg Bool.false_ne_true] at hremovable
      rw [hins.undone_iff hnew hremovable (hs.trans (congrArg some hins.snapshotId.symm)) hnaked]
      refine ⟨fun h => ⟨o', ho', hp, h⟩, ?_⟩
      rintro ⟨o'', h⟩
      obtain rfl := Option.some.inj (ho'.symm.trans h.found)
      exact h.links
  · refine iff_of_false ?_ ?_
    swap
    · rintro ⟨o', h⟩
      cases hnone.symm.trans h.found
    rintro ⟨hsuccess, hsame⟩
    rcases hbad with hnaked | hbad
    · have hleft := @find?_transact_removeById_of_not_naked E σ' id ignoreReadOnlyValue' scan
        hlook hnaked (by simp [hins.snapshotId, hins.linkKey])
      rw [hsame] at hleft
      exact absurd (hnew _ (isKeyOf_linkKey id _)) hleft
    · exact transact_removeById_of_removable_eq_none (removable_of_not_object hlook hbad) hsuccess

/-- **Removing undoes inserting** exactly when the scan from the start key finds a document of
the current number that may be removed, and the links of the one document take back those of
the other. -/
theorem undoes_iff {d : QJsonObject} {ignoreReadOnlyValue' : Bool}
    (hins : (σ.transact E (.insert doc gen overwrite ignoreReadOnlyValue)).1 = .success)
    (hid : documentId doc gen = some (id, d)) (hnew : ∀ k, IsKeyOf id k → σ.db.find? k = none) :
    Undoes E σ doc gen overwrite ignoreReadOnlyValue id ignoreReadOnlyValue' ↔
      ∃ o isOld o', accepted E σ.db σ.snapshotId doc gen overwrite ignoreReadOnlyValue =
          some (id, o, isOld) ∧ TakesBack E σ id o o' ignoreReadOnlyValue' := by
  obtain ⟨o, isOld, hacc⟩ := accepted_of_transact_success hins hid
  rw [undoes_of_accepted hacc hnew]
  constructor
  · rintro ⟨o', h⟩
    exact ⟨o, isOld, o', hacc, h⟩
  · rintro ⟨o₂, isOld₂, o', hacc₂, h⟩
    have heq := Option.some.inj (hacc.symm.trans hacc₂)
    simp only [Prod.mk.injEq] at heq
    obtain ⟨-, rfl, -⟩ := heq
    exact ⟨o', h⟩

/-- An id whose prefix no key carries has no key. -/
theorem find?_eq_none_of_forall_not_prefix {db : Store}
    (h : ∀ e ∈ db.entries, ¬ documentPrefix id <+: e.1) {k : QByteArray} (hk : IsKeyOf id k) :
    db.find? k = none := by
  rw [SortedMap.find?_eq_none_iff]
  intro v hv
  exact h _ hv hk.documentPrefix_prefix

/-- An empty collection with an index of the field `n`. -/
def indexedN : Collection :=
  ((Collection.open (Env.plain .map) .empty).transact (Env.plain .map)
    (.createIndex (qs "n") (qs "i"))).2

/-- The document `a` with a value of the field `n`. -/
def documentN (value : QJsonValue) : QJsonObject :=
  QJsonObject.insert [(qs "_id", .string (qs "a"))] (qs "n") value

theorem isKeyOf_indexedN (k : QByteArray) (hk : IsKeyOf (bytes "a") k) :
    indexedN.db.find? k = none := by
  apply find?_eq_none_of_forall_not_prefix _ hk
  decide

/-- A document without arrays is taken back. -/
theorem undoes_documentN :
    Undoes (Env.plain .map) indexedN (documentN .null) ⟨[], []⟩ false false (bytes "a") false := by
  refine (undoes_iff (d := documentN .null) (by decide) (by decide) isKeyOf_indexedN).mpr
    ⟨documentN .null, false, documentN .null, by decide, by decide, by decide, ?_⟩
  apply LinkTable.takesBack_self
  · decide
  · decide
  · intro k hk hlinked
    have hnone : ∀ k ∈ addedKeys (Env.plain .map) indexedN.snapshotId
        (storedIndexes indexedN.db) (documentN .null), storedLinks indexedN.db k = none := by decide
    obtain ⟨ls, hls, -⟩ := hlinked
    rw [hnone k hk] at hls
    cases hls

/-- An array is linked as a whole, and looked for by its elements. -/
theorem not_undoes :
    ¬ ∀ (E : Env) (σ : Collection) (doc d : QJsonObject) (gen : IdGen)
        (overwrite ignoreReadOnlyValue ignoreReadOnlyValue' : Bool) (id : QByteArray),
      Reachable E (fun _ _ => True) σ →
      (σ.transact E (.insert doc gen overwrite ignoreReadOnlyValue)).1 = .success →
      documentId doc gen = some (id, d) → (∀ k, IsKeyOf id k → σ.db.find? k = none) →
      Undoes E σ doc gen overwrite ignoreReadOnlyValue id ignoreReadOnlyValue' := by
  intro h
  have hreach : Reachable (Env.plain .map) (fun _ _ => True) indexedN :=
    Reachable.opened.transact trivial
  have hundoes := h _ _ (documentN (.array [.null])) _ ⟨[], []⟩ false false false (bytes "a")
    hreach (by decide) rfl isKeyOf_indexedN
  exact absurd hundoes.1 (by decide)

end Undo

end Collection

end Qdocdb
