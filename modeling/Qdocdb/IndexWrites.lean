import Qdocdb.Operations
import Qdocdb.Serial

/-!
# What requests do to the lists of links

The lists of links of a store, and what each request makes of them: an insertion adds the
links of the new version, a removal takes away links of the removed id only, the creation
of an index adds a link for each document, and a new snapshot copies the lists of the
current number. Keys of different indexes and numbers differ as long as no index name
goes on behind another one with a colon (`SeparatedNames`).
-/

namespace Qdocdb

/-! ## Index names -/

/-- `iv:NAME:`, what the keys of an index start with. -/
def indexNamePrefix (indexName : QString) : QByteArray :=
  toLocal8Bit (qs "iv:" ++ indexName ++ qs ":")

/-- No index name is another one that goes on with a colon. -/
def SeparatedNames (N : Set QString) : Prop :=
  ∀ n ∈ N, ∀ m ∈ N, indexNamePrefix n <+: indexNamePrefix m → indexNamePrefix n = indexNamePrefix m

theorem constructIndexValueKey_eq (n : QString) (s : Byte) (d : QByteArray) :
    constructIndexValueKey n s d = indexNamePrefix n ++ s :: colon :: d := by
  simp [constructIndexValueKey, constructIndexValueStartKey, indexNamePrefix]

theorem constructIndexValueStartKey_eq (n : QString) (s : Byte) :
    constructIndexValueStartKey n s = constructIndexValueKey n s [] := by
  rw [constructIndexValueKey, List.append_nil]

section SeparatedNames

variable {N : Set QString} (hN : SeparatedNames N) {n m : QString} (hn : n ∈ N) (hm : m ∈ N)
  {s t : Byte} {d e : QByteArray}
include hN hn hm

/-- A key tells the number and the value, and the name as far as keys go. -/
theorem SeparatedNames.key_inj (h : constructIndexValueKey n s d = constructIndexValueKey m t e) :
    indexNamePrefix n = indexNamePrefix m ∧ s = t ∧ d = e := by
  rw [constructIndexValueKey_eq, constructIndexValueKey_eq] at h
  have hpre : indexNamePrefix n = indexNamePrefix m := by
    rcases List.prefix_or_prefix_of_prefix (List.prefix_append (indexNamePrefix n) _)
      (h ▸ List.prefix_append (indexNamePrefix m) _) with hnm | hmn
    · exact hN n hn m hm hnm
    · exact (hN m hm n hn hmn).symm
  rw [hpre] at h
  obtain ⟨hs, hd⟩ := List.cons.inj (List.append_cancel_left h)
  exact ⟨hpre, hs, (List.cons.inj hd).2⟩

theorem SeparatedNames.key_ne_of_ne (hst : s ≠ t) :
    constructIndexValueKey n s d ≠ constructIndexValueKey m t e :=
  fun h => hst (hN.key_inj hn hm h).2.1

end SeparatedNames

/-- A value is marshalled to at least its tags. -/
theorem marshal_ne_nil (toBinaryData : QJsonValue → QByteArray) (v : QJsonValue) :
    marshal toBinaryData v ≠ [] := by
  cases v <;> simp [marshal]

/-! ## The lists of a store -/

/-- The lists of links under the keys of index entries. -/
def storedLinks (db : Store) : LinkTable QByteArray QByteArray := fun k =>
  if indexPrefix <+: k then (db.find? k).map Blob.unmarshalIndexValue else none

/-- The table of indexes. -/
def storedIndexes (db : Store) : List (QString × QString) :=
  ((db.find? indexesKey).map Blob.unmarshalIndexes).getD []

section Stored

variable {db db' : Store} {k l : QByteArray}

theorem linked_storedLinks :
    (storedLinks db).Linked k l ↔
      indexPrefix <+: k ∧ ∃ b, db.find? k = some b ∧ l ∈ b.unmarshalIndexValue := by
  rw [LinkTable.Linked, storedLinks]
  by_cases hk : indexPrefix <+: k <;> simp [hk]

theorem linked_storedLinks_congr (h : db'.find? k = db.find? k)
    (hl : (storedLinks db).Linked k l) : (storedLinks db').Linked k l := by
  rwa [linked_storedLinks, h, ← linked_storedLinks]

theorem storedIndexes_congr (h : db'.find? indexesKey = db.find? indexesKey) :
    storedIndexes db' = storedIndexes db := by
  rw [storedIndexes, storedIndexes, h]

theorem Collection.getIndexes_reader {E : Env} {σ : Collection} :
    (σ.reader E).getIndexes = storedIndexes σ.db := by
  rw [Reader.getIndexes, storedIndexes, ← Collection.getValue_reader (E := E) (σ := σ)]
  cases (σ.reader E).getValue indexesKey <;> rfl

end Stored

/-! ## Puts -/

/-- A put of an index entry. -/
def IndexPut (w : WriteOp QByteArray Blob) : Prop :=
  ∃ n s d b, w = .put (constructIndexValueKey n s d) b

theorem IndexPut.ne_delete {w : WriteOp QByteArray Blob} (h : IndexPut w) (k : QByteArray) :
    w ≠ .delete k := by
  obtain ⟨n, s, d, b, rfl⟩ := h
  simp

theorem IndexPut.isMetaKey {w : WriteOp QByteArray Blob} (h : IndexPut w) : IsMetaKey w.key := by
  obtain ⟨n, s, d, b, rfl⟩ := h
  exact isMetaKey_constructIndexValueKey n s d

theorem IndexPut.key_ne_indexesKey {w : WriteOp QByteArray Blob} (h : IndexPut w) :
    w.key ≠ indexesKey := by
  obtain ⟨n, s, d, b, rfl⟩ := h
  exact constructIndexValueKey_ne_indexesKey n s d

theorem IndexPut.key_ne_snapshotsKey {w : WriteOp QByteArray Blob} (h : IndexPut w) :
    w.key ≠ snapshotsKey := by
  obtain ⟨n, s, d, b, rfl⟩ := h
  exact constructIndexValueKey_ne_snapshotsKey n s d

/-- A put of links under the key of an index entry. -/
def ListPut (w : WriteOp QByteArray Blob) : Prop :=
  ∃ n s d ls, ls ≠ [] ∧ w = .put (constructIndexValueKey n s d) (.indexValue ls)

theorem ListPut.indexPut {w : WriteOp QByteArray Blob} (h : ListPut w) : IndexPut w := by
  obtain ⟨n, s, d, ls, -, hw⟩ := h
  exact ⟨n, s, d, _, hw⟩

namespace Transaction

variable {E : Env} {db : Store} {tx : Transaction}

theorem addIndexValue_lists (n : QString) (v : QJsonValue) (id : QByteArray) :
    ∃ ws, (∀ w ∈ ws, ListPut w) ∧ Wrote E ws tx (tx.addIndexValue E db n v id) := by
  rw [addIndexValue_eq]
  split
  · exact ⟨[], by simp, wrote_nil rfl rfl⟩
  · refine ⟨_, List.forall_mem_singleton.mpr ⟨_, _, _, _, ?_, rfl⟩, wrote_writes _ _⟩
    simp

theorem addIndexValues_lists (doc : QJsonObject) (id : QByteArray)
    (indexes : List (QString × QString)) :
    ∃ ws, (∀ w ∈ ws, ListPut w) ∧ Wrote E ws tx (addIndexValues E db doc id indexes tx) := by
  induction indexes generalizing tx with
  | nil => exact ⟨[], by simp, wrote_nil rfl rfl⟩
  | cons index indexes ih =>
    obtain ⟨ws, hws, hw⟩ := @addIndexValue_lists E db tx index.2
      (getJsonValueByPath (.object doc) index.1) id
    obtain ⟨ws', hws', hw'⟩ := @ih (tx.addIndexValue E db index.2
      (getJsonValueByPath (.object doc) index.1) id)
    exact ⟨ws ++ ws', List.forall_mem_append.mpr ⟨hws, hws'⟩, hw.trans hw'⟩

theorem addIndexValue_puts (n : QString) (v : QJsonValue) (id : QByteArray) :
    ∃ ws, (∀ w ∈ ws, IndexPut w) ∧ Wrote E ws tx (tx.addIndexValue E db n v id) := by
  obtain ⟨ws, hws, hw⟩ := @addIndexValue_lists E db tx n v id
  exact ⟨ws, fun w h => (hws w h).indexPut, hw⟩

/-- **store** puts the document and lists of links. -/
theorem store_lists (id : QByteArray) (o : QJsonObject) (isOld : Bool) :
    ∃ iws, (∀ w ∈ iws, ListPut w) ∧
      Wrote E (putJsonValue id tx.snapshotId o ++ iws) tx (tx.store E db id o isOld) := by
  obtain ⟨iws, hiws, hw⟩ := @addIndexValues_lists E db
    (tx.writes E (putJsonValue id tx.snapshotId o)) o id
    ((tx.writes E (putJsonValue id tx.snapshotId o)).reader E db).getIndexes
  exact ⟨iws, hiws, ((wrote_writes tx _).trans hw).congr rfl rfl⟩

/-! ### createIndex -/

/-- The links that the creation of an index adds: one for each document that the loop
reads, whichever of its versions holds it. -/
def createdLinks (E : Env) (s : Byte) (fieldName indexName : QString)
    (docs : List (QJsonValue × QByteArray)) : List (QByteArray × QByteArray) :=
  docs.filterMap fun e =>
    if e.1.isObject then
      some (constructIndexValueKey indexName s
        (marshal E.toBinaryData (getJsonValueByPath e.1 fieldName)),
        constructDocumentLinkKey e.2 s)
    else none

theorem indexDocuments_puts (fieldName indexName : QString)
    (docs : List (QJsonValue × QByteArray)) :
    (∃ ws, (∀ w ∈ ws, IndexPut w) ∧
        Wrote E ws tx (indexDocuments E db fieldName indexName docs tx)) ∧
      (indexDocuments E db fieldName indexName docs tx).links E db =
        (tx.links E db).addAll (createdLinks E tx.snapshotId fieldName indexName docs) := by
  induction docs generalizing tx with
  | nil => exact ⟨⟨[], by simp, wrote_nil rfl rfl⟩, rfl⟩
  | cons e docs ih =>
    obtain ⟨value, id⟩ := e
    rw [indexDocuments, createdLinks, List.filterMap_cons]
    by_cases hv : value.isObject = true
    · obtain ⟨ws, hws, hw⟩ := @addIndexValue_puts E db tx indexName
        (getJsonValueByPath value fieldName) id
      obtain ⟨⟨ws', hws', hw'⟩, hlinks⟩ := @ih (tx.addIndexValue E db indexName
        (getJsonValueByPath value fieldName) id)
      simp only [hv, if_true]
      refine ⟨⟨ws ++ ws', List.forall_mem_append.mpr ⟨hws, hws'⟩, hw.trans hw'⟩, ?_⟩
      rw [hlinks, addIndexValue_links, addIndexValue_snapshotId]
      rfl
    · simp only [hv, Bool.false_eq_true, if_false]
      exact ih

theorem links_eq_storedLinks {ws : List (WriteOp QByteArray Blob)}
    (hk : tx.kvdb = KVTransaction.new.writes E.backend ws) :
    tx.links E db = storedLinks (db.applyLog ws) := by
  funext k
  rw [links, storedLinks, reader, hk]
  dsimp only
  rw [KVTransaction.getValue_writes]

/-- **createIndex** puts the start entry, the links of the documents and the table of
indexes, unless the field has an index. -/
theorem createIndex_cases (fieldName indexName : QString) :
    (((tx.reader E db).getIndexes.lookup fieldName).isSome = true ∧
        tx.createIndex E db fieldName indexName = (.success, tx)) ∨
      ((tx.reader E db).getIndexes.lookup fieldName).isSome = false ∧
        (∃ iws, (∀ w ∈ iws, IndexPut w) ∧
          .put (constructIndexValueKey indexName tx.snapshotId []) .empty ∈ iws ∧
          Wrote E (iws ++ putIndexes ((tx.reader E db).getIndexes ++ [(fieldName, indexName)])) tx
            (tx.createIndex E db fieldName indexName).2) ∧
        (tx.createIndex E db fieldName indexName).2.links E db =
          LinkTable.addAll
            (Function.update (tx.links E db) (constructIndexValueKey indexName tx.snapshotId [])
              (some []))
            (createdLinks E tx.snapshotId fieldName indexName
              (enumerate E.backend db tx.snapshotId)) := by
  rw [createIndex]
  cases ((tx.reader E db).getIndexes.lookup fieldName).isSome with
  | true => exact .inl ⟨rfl, by simp⟩
  | false =>
    have hstart := wrote_writes (E := E) tx
      [.put (constructIndexValueKey indexName tx.snapshotId []) .empty]
    obtain ⟨⟨iws, hiws, hw⟩, hlinks⟩ := @indexDocuments_puts E db
      (tx.writes E [.put (constructIndexValueKey indexName tx.snapshotId []) .empty])
      fieldName indexName (enumerate E.backend db tx.snapshotId)
    refine .inr ⟨rfl, ⟨.put (constructIndexValueKey indexName tx.snapshotId []) .empty :: iws,
      List.forall_mem_cons.mpr ⟨⟨_, _, _, _, rfl⟩, hiws⟩, List.mem_cons_self, ?_⟩, ?_⟩
    · simp only [Bool.false_eq_true, if_false]
      exact (hstart.trans hw).trans (wrote_writes _ _)
    · simp only [Bool.false_eq_true, if_false]
      -- the table of indexes is no list of links
      rw [links_writes_of_ne fun w hw => ?_]
      · refine hlinks.trans ?_
        have hkey := indexPrefix_prefix_constructIndexValueKey indexName tx.snapshotId []
        rw [links_writes_singleton
          (w := .put (constructIndexValueKey indexName tx.snapshotId []) .empty) hkey]
        rfl
      · rw [List.mem_singleton.mp hw]
        exact show ¬ indexPrefix <+: indexesKey by decide

/-! ### removeById -/

/-- Every entry that the transaction reads is in the store, and holds its links other than
`linkKey`. -/
def ReadsOthers (E : Env) (db : Store) (linkKey : QByteArray) (tx : Transaction) : Prop :=
  ∀ k b, indexPrefix <+: k → (tx.kvdb.getValue E.backend db k).toOption = some b →
    db.find? k ≠ none ∧
      ∀ l ≠ linkKey, (storedLinks db).Linked k l → l ∈ b.unmarshalIndexValue

/-- The writes concern entries of the number `s` that are in the store, start entries
aside, and keep their links other than `linkKey`. -/
def KeepsOthers (N : Set QString) (db : Store) (s : Byte) (linkKey : QByteArray)
    (ws : List (WriteOp QByteArray Blob)) : Prop :=
  ∀ w ∈ ws, (∃ n ∈ N, ∃ d ≠ [], w.key = constructIndexValueKey n s d) ∧ db.find? w.key ≠ none ∧
    ∀ l ≠ linkKey, (storedLinks db).Linked w.key l →
      ∃ b, w.outcome = some b ∧ l ∈ b.unmarshalIndexValue

section Removal

variable {N : Set QString} {linkKey : QByteArray}

omit tx in
theorem keepsOthers_nil {s : Byte} : KeepsOthers N db s linkKey [] := List.forall_mem_nil _

theorem ReadsOthers.writes {tx' : Transaction} {s : Byte} {ws : List (WriteOp QByteArray Blob)}
    (h : ReadsOthers E db linkKey tx) (hw : Wrote E ws tx tx')
    (hws : KeepsOthers N db s linkKey ws) : ReadsOthers E db linkKey tx' := by
  intro k b hk hget
  rw [hw.kvdb, KVTransaction.toOption_getValue_writes] at hget
  cases hlast : lastWrite ws k with
  | none =>
    rw [hlast, Option.getD_none] at hget
    exact h k b hk hget
  | some o =>
    rw [hlast, Option.getD_some] at hget
    obtain ⟨w, hmem, rfl, rfl⟩ := exists_mem_of_lastWrite_eq_some hlast
    obtain ⟨-, hfind, hothers⟩ := hws w hmem
    refine ⟨hfind, fun l hl hlinked => ?_⟩
    obtain ⟨b', hb', hmem'⟩ := hothers l hl hlinked
    rw [hget] at hb'
    rwa [Option.some.inj hb']

theorem readsOthers_of_isKeyOf {ws : List (WriteOp QByteArray Blob)}
    (hk : tx.kvdb = KVTransaction.new.writes E.backend ws)
    (hws : ∀ w ∈ ws, ∃ id, IsKeyOf id w.key) : ReadsOthers E db linkKey tx := by
  intro k b hpre hget
  have hne : ∀ w ∈ ws, w.key ≠ k := fun w hw hwk => by
    obtain ⟨id, hid⟩ := hws w hw
    exact hid.not_indexPrefix (hwk ▸ hpre)
  rw [hk, KVTransaction.getValue_writes, SortedMap.find?_applyLog_of_forall_ne _ hne] at hget
  refine ⟨by rw [hget]; simp, fun l _ hlinked => ?_⟩
  obtain ⟨-, b', hb', hmem⟩ := linked_storedLinks.mp hlinked
  rw [hget] at hb'
  rwa [Option.some.inj hb']

theorem removeIndexValue_keeps (h : ReadsOthers E db linkKey tx) {n : QString} (hn : n ∈ N)
    (v : QJsonValue) :
    ∃ ws, KeepsOthers N db tx.snapshotId linkKey ws ∧
      Wrote E ws tx (tx.removeIndexValue E db n v linkKey).2 := by
  rw [removeIndexValue]
  dsimp only
  cases hget : (tx.reader E db).getValue (tx.indexValueKey E n v) with
  | error e => exact ⟨[], keepsOthers_nil, wrote_nil rfl rfl⟩
  | ok b =>
    dsimp only
    split
    · refine ⟨_, List.forall_mem_singleton.mpr ?_, wrote_writes _ _⟩
      have hread : (tx.kvdb.getValue E.backend db (tx.indexValueKey E n v)).toOption = some b :=
        congrArg Except.toOption hget
      obtain ⟨hfind, hothers⟩ := h _ b (indexPrefix_prefix_indexValueKey n v) hread
      have hmem : ∀ l ≠ linkKey, (storedLinks db).Linked (tx.indexValueKey E n v) l →
          l ∈ b.unmarshalIndexValue.filter (· ≠ linkKey) := fun l hl hlinked =>
        List.mem_filter.mpr ⟨hothers l hl hlinked, by simpa using hl⟩
      split
      · rename_i hnil
        refine ⟨⟨n, hn, _, marshal_ne_nil _ v, rfl⟩, hfind, fun l hl hlinked => ?_⟩
        have hl' := hmem l hl hlinked
        rw [hnil] at hl'
        cases hl'
      · exact ⟨⟨n, hn, _, marshal_ne_nil _ v, rfl⟩, hfind, fun l hl hlinked =>
          ⟨_, rfl, hmem l hl hlinked⟩⟩
    · exact ⟨[], keepsOthers_nil, wrote_nil rfl rfl⟩

theorem removeIndexValues_keeps (h : ReadsOthers E db linkKey tx) {n : QString} (hn : n ∈ N)
    (values : List QJsonValue) :
    ∃ ws, KeepsOthers N db tx.snapshotId linkKey ws ∧
      Wrote E ws tx (removeIndexValues E db n linkKey values tx).2 := by
  induction values generalizing tx with
  | nil => exact ⟨[], keepsOthers_nil, wrote_nil rfl rfl⟩
  | cons v values ih =>
    obtain ⟨ws, hws, hw⟩ := removeIndexValue_keeps h hn v
    rw [removeIndexValues]
    split
    · rename_i tx' heq
      rw [heq] at hw
      obtain ⟨ws', hws', hw'⟩ := ih (h.writes hw hws)
      rw [hw.snapshotId] at hws'
      exact ⟨ws ++ ws', List.forall_mem_append.mpr ⟨hws, hws'⟩, hw.trans hw'⟩
    · rename_i tx' _ heq
      rw [heq] at hw
      exact ⟨ws, hws, hw⟩

/-- **The index loop of removeById** takes no link away but the one it is about. -/
theorem removeFromIndexes_keeps (h : ReadsOthers E db linkKey tx) (doc : QJsonObject)
    {indexes : List (QString × QString)} (hN : ∀ index ∈ indexes, index.2 ∈ N) :
    ∃ ws, KeepsOthers N db tx.snapshotId linkKey ws ∧
      Wrote E ws tx (removeFromIndexes E db doc linkKey indexes tx).2 := by
  induction indexes generalizing tx with
  | nil => exact ⟨[], keepsOthers_nil, wrote_nil rfl rfl⟩
  | cons index indexes ih =>
    obtain ⟨hindex, hN⟩ := List.forall_mem_cons.mp hN
    obtain ⟨ws, hws, hw⟩ := removeIndexValues_keeps h hindex
      (indexedValues (getJsonValueByPath (.object doc) index.1))
    rw [removeFromIndexes]
    split
    · rename_i tx' heq
      rw [heq] at hw
      obtain ⟨ws', hws', hw'⟩ := ih (h.writes hw hws) hN
      rw [hw.snapshotId] at hws'
      exact ⟨ws ++ ws', List.forall_mem_append.mpr ⟨hws, hws'⟩, hw.trans hw'⟩
    · rename_i r tx' _ heq
      rw [heq] at hw
      exact ⟨ws, hws, hw⟩

/-- **removeById** removes the version that it finds and takes links of the id away. -/
theorem removeById_wrote {ws₀ : List (WriteOp QByteArray Blob)}
    (hk : tx.kvdb = KVTransaction.new.writes E.backend ws₀)
    (hws₀ : ∀ w ∈ ws₀, ∃ id, IsKeyOf id w.key)
    (hN : ∀ index ∈ (tx.reader E db).getIndexes, index.2 ∈ N) (id : QByteArray)
    (ignoreReadOnlyValue : Bool) :
    (Wrote E [] tx (tx.removeById E db id ignoreReadOnlyValue).2) ∨
      ∃ scan t iws, seekValue E.backend db tx.snapshotId id = some scan ∧
        KeepsOthers N db tx.snapshotId (constructDocumentLinkKey id t) iws ∧
        Wrote E (removeVersion id tx.snapshotId scan ++ iws) tx
          (tx.removeById E db id ignoreReadOnlyValue).2 := by
  cases hrem : removable E db tx.snapshotId id ignoreReadOnlyValue with
  | none =>
    obtain ⟨r, lastError, -, heq⟩ := removeById_of_removable_eq_none hrem
    exact .inl (by rw [heq]; exact wrote_nil rfl rfl)
  | some p =>
    obtain ⟨doc, scan⟩ := p
    obtain ⟨hscan, hdoc, -⟩ := removable_eq_some hrem
    have hseek : seekValue E.backend db tx.snapshotId id = some scan := by
      cases hseek : seekValue E.backend db tx.snapshotId id with
      | none =>
        rw [hseek, Option.getD_none] at hscan
        rw [← hscan] at hdoc
        cases hdoc
      | some scan' => rw [← hscan, hseek, Option.getD_some]
    have hwrote := wrote_writes (E := E) tx (removeVersion id tx.snapshotId scan)
    have hreads := @readsOthers_of_isKeyOf E db (tx.writes E (removeVersion id tx.snapshotId scan))
      (constructDocumentLinkKey id (scan.snapshotId.getD 0)) _ (hwrote.kvdb_eq hk)
      (List.forall_mem_append.mpr ⟨hws₀, fun w hw => ⟨id, removeVersion_key hw⟩⟩)
    obtain ⟨iws, hiws, hw⟩ := removeFromIndexes_keeps hreads doc hN
    refine .inr ⟨scan, scan.snapshotId.getD 0, iws, hseek, hiws, ?_⟩
    rw [removeById_eq hrem]
    split
    · rename_i tx' heq
      rw [heq] at hw
      exact (hwrote.trans hw).congr rfl rfl
    · rename_i r tx' _ heq
      rw [heq] at hw
      exact hwrote.trans hw

variable {s : Byte} {dws iws : List (WriteOp QByteArray Blob)}

omit tx in
/-- **Whatever becomes of the commit**, other links stay listed. -/
theorem KeepsOthers.linked_commit {B : Backend} (h : KeepsOthers N db s linkKey iws)
    (hdws : ∀ w ∈ dws, ∃ id, IsKeyOf id w.key) {k l : QByteArray}
    (hl : l ≠ linkKey ∨ ∀ w ∈ iws, w.key ≠ k) (hlinked : (storedLinks db).Linked k l) :
    (storedLinks (commit B db (dws ++ iws)).2).Linked k l := by
  have hpre := (linked_storedLinks.mp hlinked).1
  rcases find?_commit_cases B db (dws ++ iws) k with heq | ⟨w, hw, hwk, heq⟩
  · exact linked_storedLinks_congr heq hlinked
  · rcases List.mem_append.mp hw with hw | hw
    · obtain ⟨id, hid⟩ := hdws w hw
      exact absurd (hwk ▸ hpre) hid.not_indexPrefix
    · obtain ⟨b, hb, hmem⟩ := (h w hw).2.2 l (hl.resolve_right fun hne => hne w hw hwk)
        (hwk ▸ hlinked)
      exact linked_storedLinks.mpr ⟨hpre, b, heq.trans hb, hmem⟩

theorem KeepsOthers.key (h : KeepsOthers N db s linkKey iws) :
    ∀ w ∈ iws, ∃ n ∈ N, ∃ d ≠ [], w.key = constructIndexValueKey n s d :=
  fun w hw => (h w hw).1

end Removal

end Transaction

/-! ## Requests -/

namespace Collection

variable {E : Env} {σ : Collection}

theorem links_newTransaction : σ.newTransaction.links E σ.db = storedLinks σ.db :=
  Transaction.links_eq_storedLinks kvdb_newTransaction

/-- An operation that only puts, in its own transaction. -/
theorem transact_of_puts {op : TxOp} {ws : List (WriteOp QByteArray Blob)}
    (hws : ∀ k, WriteOp.delete k ∉ ws)
    (hw : Transaction.Wrote E ws σ.newTransaction (op.run E σ.db σ.newTransaction).2) :
    (σ.transact E op).2.db = σ.db.applyLog ws ∧
      (σ.transact E op).2.snapshotId = σ.snapshotId ∧
      storedLinks (σ.transact E op).2.db =
        (op.run E σ.db σ.newTransaction).2.links E σ.db := by
  obtain ⟨hc, -⟩ := transact_spec op hw
  have hdb : (σ.transact E op).2.db = σ.db.applyLog ws := by
    rw [hc.db, commit_of_disjoint fun k hk => absurd hk (hws k)]
  refine ⟨hdb, hc.snapshotId, ?_⟩
  rw [hdb, Transaction.links_eq_storedLinks (hw.kvdb_eq kvdb_newTransaction)]
  rfl

/-- **insert** stores a document that it takes, and puts the lists with its links. -/
theorem transact_insert_lists {doc : QJsonObject} {gen : Transaction.IdGen}
    {overwrite ignoreReadOnlyValue : Bool} {id : QByteArray} {o : QJsonObject} {isOld : Bool}
    (hacc : Transaction.accepted E σ.db σ.snapshotId doc gen overwrite ignoreReadOnlyValue =
      some (id, o, isOld)) :
    ∃ iws, (∀ w ∈ iws, ListPut w) ∧
      (σ.transact E (.insert doc gen overwrite ignoreReadOnlyValue)).2.db =
        σ.db.applyLog (Transaction.putJsonValue id σ.snapshotId o ++ iws) ∧
      (σ.transact E (.insert doc gen overwrite ignoreReadOnlyValue)).2.snapshotId =
        σ.snapshotId ∧
      storedLinks (σ.transact E (.insert doc gen overwrite ignoreReadOnlyValue)).2.db =
        (storedLinks σ.db).addAll
          (Transaction.addedLinks E σ.snapshotId (storedIndexes σ.db) o id) := by
  have heq := @Transaction.insert_of_accepted E σ.db σ.newTransaction doc gen overwrite
    ignoreReadOnlyValue id o isOld hacc
  have hrun : ((TxOp.insert doc gen overwrite ignoreReadOnlyValue).run E σ.db
      σ.newTransaction).2 = σ.newTransaction.store E σ.db id o isOld := by
    rw [TxOp.run, heq]
  obtain ⟨iws, hiws, hw⟩ := @Transaction.store_lists E σ.db σ.newTransaction id o isOld
  rw [← hrun] at hw
  have hputs : ∀ k, WriteOp.delete k ∉ Transaction.putJsonValue id σ.snapshotId o ++ iws := by
    intro k hk
    rcases List.mem_append.mp hk with hk | hk
    · simp [Transaction.putJsonValue] at hk
    · exact (hiws _ hk).indexPut.ne_delete k rfl
  obtain ⟨hdb, hid, hlinks⟩ := transact_of_puts hputs hw
  refine ⟨iws, hiws, hdb, hid, ?_⟩
  rw [hlinks, hrun, Transaction.links_store, links_newTransaction, getIndexes_newTransaction,
    getIndexes_reader]
  rfl

/-- **insert** stores a document that it takes, and adds its links. -/
theorem transact_insert_of_accepted {doc : QJsonObject} {gen : Transaction.IdGen}
    {overwrite ignoreReadOnlyValue : Bool} {id : QByteArray} {o : QJsonObject} {isOld : Bool}
    (hacc : Transaction.accepted E σ.db σ.snapshotId doc gen overwrite ignoreReadOnlyValue =
      some (id, o, isOld)) :
    ∃ iws, (∀ w ∈ iws, IndexPut w) ∧
      (σ.transact E (.insert doc gen overwrite ignoreReadOnlyValue)).2.db =
        σ.db.applyLog (Transaction.putJsonValue id σ.snapshotId o ++ iws) ∧
      (σ.transact E (.insert doc gen overwrite ignoreReadOnlyValue)).2.snapshotId =
        σ.snapshotId ∧
      storedLinks (σ.transact E (.insert doc gen overwrite ignoreReadOnlyValue)).2.db =
        (storedLinks σ.db).addAll
          (Transaction.addedLinks E σ.snapshotId (storedIndexes σ.db) o id) := by
  obtain ⟨iws, hiws, h⟩ := transact_insert_lists hacc
  exact ⟨iws, fun w hw => (hiws w hw).indexPut, h⟩

/-- A document that is refused changes nothing. -/
theorem transact_insert_of_refused {doc : QJsonObject} {gen : Transaction.IdGen}
    {overwrite ignoreReadOnlyValue : Bool}
    (hacc : Transaction.accepted E σ.db σ.snapshotId doc gen overwrite ignoreReadOnlyValue =
      none) :
    (σ.transact E (.insert doc gen overwrite ignoreReadOnlyValue)).2.db = σ.db ∧
      (σ.transact E (.insert doc gen overwrite ignoreReadOnlyValue)).2.snapshotId =
        σ.snapshotId := by
  obtain ⟨r, id, lastError, -, heq⟩ :=
    @Transaction.insert_of_accepted_eq_none E σ.db σ.newTransaction doc gen overwrite
      ignoreReadOnlyValue hacc
  exact transact_of_refused (r := r) (by rw [TxOp.run, heq])

/-- **insert** changes nothing, or stores a document and adds its links. -/
theorem transact_insert_cases (doc : QJsonObject) (gen : Transaction.IdGen)
    (overwrite ignoreReadOnlyValue : Bool) :
    ((σ.transact E (.insert doc gen overwrite ignoreReadOnlyValue)).2.db = σ.db ∧
        (σ.transact E (.insert doc gen overwrite ignoreReadOnlyValue)).2.snapshotId =
          σ.snapshotId) ∨
      ∃ id o isOld iws, Transaction.accepted E σ.db σ.snapshotId doc gen overwrite
          ignoreReadOnlyValue = some (id, o, isOld) ∧
        (∀ w ∈ iws, IndexPut w) ∧
        (σ.transact E (.insert doc gen overwrite ignoreReadOnlyValue)).2.db =
          σ.db.applyLog (Transaction.putJsonValue id σ.snapshotId o ++ iws) ∧
        (σ.transact E (.insert doc gen overwrite ignoreReadOnlyValue)).2.snapshotId =
          σ.snapshotId ∧
        storedLinks (σ.transact E (.insert doc gen overwrite ignoreReadOnlyValue)).2.db =
          (storedLinks σ.db).addAll
            (Transaction.addedLinks E σ.snapshotId (storedIndexes σ.db) o id) := by
  cases hacc : Transaction.accepted E σ.db σ.snapshotId doc gen overwrite ignoreReadOnlyValue with
  | none => exact .inl (transact_insert_of_refused hacc)
  | some p =>
    obtain ⟨id, o, isOld⟩ := p
    obtain ⟨iws, hiws, hdb, hid, hlinks⟩ := transact_insert_of_accepted hacc
    exact .inr ⟨id, o, isOld, iws, rfl, hiws, hdb, hid, hlinks⟩

/-- **createIndex** changes nothing, or puts the start entry, the links of the documents and
the table of indexes. -/
theorem transact_createIndex_cases (fieldName indexName : QString) :
    (((storedIndexes σ.db).lookup fieldName).isSome = true ∧
        (σ.transact E (.createIndex fieldName indexName)).2.db = σ.db ∧
        (σ.transact E (.createIndex fieldName indexName)).2.snapshotId = σ.snapshotId) ∨
      ((storedIndexes σ.db).lookup fieldName).isSome = false ∧
        ∃ iws, (∀ w ∈ iws, IndexPut w) ∧
          .put (constructIndexValueKey indexName σ.snapshotId []) .empty ∈ iws ∧
          (σ.transact E (.createIndex fieldName indexName)).2.db =
            σ.db.applyLog (iws ++
              Transaction.putIndexes (storedIndexes σ.db ++ [(fieldName, indexName)])) ∧
          (σ.transact E (.createIndex fieldName indexName)).2.snapshotId = σ.snapshotId ∧
          storedLinks (σ.transact E (.createIndex fieldName indexName)).2.db =
            LinkTable.addAll
              (Function.update (storedLinks σ.db)
                (constructIndexValueKey indexName σ.snapshotId []) (some []))
              (Transaction.createdLinks E σ.snapshotId fieldName indexName
                (enumerate E.backend σ.db σ.snapshotId)) := by
  rcases @Transaction.createIndex_cases E σ.db σ.newTransaction fieldName indexName with
    ⟨hsome, heq⟩ | ⟨hnone, ⟨iws, hiws, hstart, hw⟩, hlinks⟩
  · rw [getIndexes_newTransaction, getIndexes_reader] at hsome
    have hw : Transaction.Wrote E [] σ.newTransaction
        ((TxOp.createIndex fieldName indexName).run E σ.db σ.newTransaction).2 := by
      rw [TxOp.run, heq]
      exact Transaction.wrote_nil rfl rfl
    obtain ⟨hdb, hid, -⟩ := transact_of_puts (by simp) hw
    exact .inl ⟨hsome, hdb, hid⟩
  · rw [getIndexes_newTransaction, getIndexes_reader] at hnone hw
    have hputs : ∀ k, WriteOp.delete k ∉ iws ++
        Transaction.putIndexes (storedIndexes σ.db ++ [(fieldName, indexName)]) := by
      intro k hk
      rcases List.mem_append.mp hk with hk | hk
      · exact (hiws _ hk).ne_delete k rfl
      · cases List.mem_singleton.mp hk
    obtain ⟨hdb, hid, hstored⟩ :=
      @transact_of_puts E σ (.createIndex fieldName indexName) _ hputs hw
    refine .inr ⟨hnone, iws, hiws, hstart, hdb, hid, ?_⟩
    rw [links_newTransaction] at hlinks
    exact hstored.trans hlinks

/-- The table of indexes after an index was created. -/
theorem storedIndexes_putIndexes {db : Store} {iws : List (WriteOp QByteArray Blob)}
    (hiws : ∀ w ∈ iws, IndexPut w) (indexes : List (QString × QString)) :
    storedIndexes (db.applyLog (iws ++ Transaction.putIndexes indexes)) = indexes := by
  have hfind : (db.applyLog (iws ++ Transaction.putIndexes indexes)).find? indexesKey =
      some (.indexes indexes) := by
    refine SortedMap.find?_applyLog_of_put _
      (List.mem_append_right _ (List.mem_singleton.mpr rfl)) fun w hw hwk => ?_
    rcases List.mem_append.mp hw with hw | hw
    · exact absurd hwk (hiws w hw).key_ne_indexesKey
    · exact List.mem_singleton.mp hw
  rw [storedIndexes, hfind]
  rfl

/-- **removeById** changes nothing, or commits the removal of a version and of links of the
id. -/
theorem transact_removeById_cases {N : Set QString}
    (hN : ∀ index ∈ storedIndexes σ.db, index.2 ∈ N) (id : QByteArray)
    (ignoreReadOnlyValue : Bool) :
    ((σ.transact E (.removeById id ignoreReadOnlyValue)).2.db = σ.db ∧
        (σ.transact E (.removeById id ignoreReadOnlyValue)).2.snapshotId = σ.snapshotId) ∨
      ∃ scan t iws, seekValue E.backend σ.db σ.snapshotId id = some scan ∧
        Transaction.KeepsOthers N σ.db σ.snapshotId (constructDocumentLinkKey id t) iws ∧
        (σ.transact E (.removeById id ignoreReadOnlyValue)).2.db =
          (commit E.backend σ.db
            (Transaction.removeVersion id σ.snapshotId scan ++ iws)).2 ∧
        (σ.transact E (.removeById id ignoreReadOnlyValue)).2.snapshotId = σ.snapshotId := by
  have hN' : ∀ index ∈ (σ.newTransaction.reader E σ.db).getIndexes, index.2 ∈ N := by
    rwa [getIndexes_newTransaction, getIndexes_reader]
  rcases @Transaction.removeById_wrote E σ.db σ.newTransaction N [] kvdb_newTransaction (by simp)
    hN' id ignoreReadOnlyValue with hw | ⟨scan, t, iws, hseek, hiws, hw⟩
  · obtain ⟨hdb, hid, -⟩ :=
      @transact_of_puts E σ (.removeById id ignoreReadOnlyValue) _ (by simp) hw
    exact .inl ⟨hdb, hid⟩
  · obtain ⟨hc, -⟩ := transact_spec (.removeById id ignoreReadOnlyValue) hw
    exact .inr ⟨scan, t, iws, hseek, hiws, hc.db, hc.snapshotId⟩

/-! ### Snapshots -/

/-- A loop from a key of the store on visits the keys that it is a prefix of. -/
theorem mem_entriesFrom_iff {db : Store} {p : QByteArray} (hp : db.find? p ≠ none)
    {e : QByteArray × Blob} : e ∈ entriesFrom E db p ↔ e ∈ db.entries ∧ p <+: e.1 := by
  obtain ⟨b, hb⟩ := Option.ne_none_iff_exists'.mp hp
  have hseek : kvSeek E.backend db p = db.seekGE p := by
    cases E.backend with
    | levelDB => rfl
    | map => exact SortedMap.seekEq_eq_seekGE hb
  have hsorted : (db.seekGE p).Pairwise fun a b => a.1 < b.1 :=
    db.sorted.sublist (List.dropWhile_sublist _)
  rw [entriesFrom, hseek, List.takeWhile_eq_filter_of_pairwise
    (List.pairwise_prefix_of_pairwise_lt hsorted fun e he => (SortedMap.mem_seekGE.mp he).2),
    List.mem_filter, decide_eq_true_eq, SortedMap.mem_seekGE, and_assoc]
  refine and_congr_right fun _ => and_iff_right_of_imp fun h => h.le_of_lex

section Snapshots

variable {N : Set QString} (hN : SeparatedNames N)
  (hnames : ∀ index ∈ storedIndexes σ.db, index.2 ∈ N) {l : List QString}
include hN hnames

/-- **newSnapshot** copies each entry of the current number to the next one. -/
theorem find?_newSnapshotWrites_copy {snapshotName : QString} {index : QString × QString}
    (hindex : index ∈ storedIndexes σ.db)
    (hstart : σ.db.find? (constructIndexValueStartKey index.2 σ.snapshotId) ≠ none)
    {d : QByteArray} {b : Blob}
    (hb : σ.db.find? (constructIndexValueKey index.2 σ.snapshotId d) = some b) :
    (σ.db.applyLog (newSnapshotWrites E σ l snapshotName)).find?
      (constructIndexValueKey index.2 (σ.snapshotId + 1) d) = some b := by
  refine SortedMap.find?_applyLog_of_put _ (List.mem_append_right _ ?_) fun w hw hwk => ?_
  · rw [copyIndexValues, List.mem_flatMap]
    refine ⟨index, getIndexes_reader (E := E) ▸ hindex, List.mem_map.mpr ⟨_,
      (mem_entriesFrom_iff hstart).mpr
        ⟨SortedMap.find?_eq_some_iff.mp hb, List.prefix_append _ _⟩, ?_⟩⟩
    rw [constructIndexValueKey, List.drop_left, constructIndexValueKey]
  · rcases List.mem_append.mp hw with hw | hw
    · rw [List.mem_singleton.mp hw] at hwk
      exact absurd hwk.symm (constructIndexValueKey_ne_snapshotsKey _ _ _)
    · obtain ⟨index', hindex', d', b', rfl, hb'⟩ := exists_of_mem_copyIndexValues hw
      rw [getIndexes_reader] at hindex'
      -- the names of both indexes are the same as far as keys go
      obtain ⟨hpre, -, rfl⟩ := hN.key_inj (hnames _ hindex') (hnames _ hindex) hwk
      rw [constructIndexValueKey_eq, hpre, ← constructIndexValueKey_eq, hb] at hb'
      rw [← Option.some.inj hb']
      exact congrArg (WriteOp.put · b) hwk

theorem find?_newSnapshotWrites_of_ne {snapshotName : QString} {n : QString} (hn : n ∈ N)
    {j : Byte} (hj : j ≠ σ.snapshotId + 1) (d : QByteArray) :
    (σ.db.applyLog (newSnapshotWrites E σ l snapshotName)).find?
      (constructIndexValueKey n j d) = σ.db.find? (constructIndexValueKey n j d) := by
  refine SortedMap.find?_applyLog_of_forall_ne _ fun w hw hwk => ?_
  rcases List.mem_append.mp hw with hw | hw
  · rw [List.mem_singleton.mp hw] at hwk
    exact constructIndexValueKey_ne_snapshotsKey _ _ _ hwk.symm
  · obtain ⟨index, hindex, d', b, rfl, -⟩ := exists_of_mem_copyIndexValues hw
    rw [getIndexes_reader] at hindex
    exact hN.key_ne_of_ne (hnames _ hindex) hn hj.symm hwk

omit hN hnames in
theorem find?_newSnapshotWrites_indexesKey {snapshotName : QString} :
    (σ.db.applyLog (newSnapshotWrites E σ l snapshotName)).find? indexesKey =
      σ.db.find? indexesKey := by
  refine SortedMap.find?_applyLog_of_forall_ne _ fun w hw hwk => ?_
  rcases List.mem_append.mp hw with hw | hw
  · rw [List.mem_singleton.mp hw] at hwk
    exact absurd hwk (show snapshotsKey ≠ indexesKey by decide)
  · obtain ⟨index, -, d, b, rfl, -⟩ := exists_of_mem_copyIndexValues hw
    exact constructIndexValueKey_ne_indexesKey _ _ _ hwk

/-- **revertToSnapshot** keeps the entries of the numbers that it keeps. -/
theorem find?_revert_indexValueKey {n : QString} (hn : n ∈ N) {i j : Byte}
    (hj : j ∉ droppedIds l i) (d : QByteArray) :
    (σ.db.applyLog (revertWrites E σ l i)).find? (constructIndexValueKey n j d) =
      σ.db.find? (constructIndexValueKey n j d) := by
  refine (find?_revertWrites (constructIndexValueKey_ne_snapshotsKey n j d)).2 fun hd => ?_
  rcases List.mem_append.mp hd with hd | hd
  · rcases List.mem_append.mp hd with hd | hd
    · cases List.mem_singleton.mp hd
    · obtain ⟨k, hk, (⟨-, hne⟩ | ⟨v, hv⟩)⟩ := exists_of_mem_revertVersions hd
      · exact hne rfl
      · cases hk
        exact (isMetaKey_constructIndexValueKey n j d).take_two_ne (mem_documentEntries hv).2
  · obtain ⟨index, hindex, t, ht, d', b, hw, -⟩ := exists_of_mem_revertIndexes hd
    rw [getIndexes_reader] at hindex
    refine hN.key_ne_of_ne hn (hnames _ hindex) ?_ (WriteOp.delete.inj hw)
    rintro rfl
    exact hj ht

end Snapshots

end Collection

end Qdocdb
