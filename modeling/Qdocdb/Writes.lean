import Qdocdb.Collection

/-!
# What the operations write

Each operation of a transaction amounts to a list of puts and deletions. The
lemmas here say which, and that the list depends only on what the transaction
reads: its content (the base with its own writes applied) and the values its
iterators return. They are stated for two transactions side by side (`Sim`), so
that one lemma serves both as a specification, with twice the same transaction, and
as a simulation between a transaction and its replay on another base.
-/

namespace Qdocdb

/-- A write to an index entry. -/
def IndexWrite (w : WriteOp QByteArray Blob) : Prop :=
  (∃ n s d, w.key = constructIndexValueKey n s d) ∧ ∀ o, w.outcome ≠ some (.document o)

theorem IndexWrite.isMetaKey {w : WriteOp QByteArray Blob} (h : IndexWrite w) :
    IsMetaKey w.key := by
  obtain ⟨⟨n, s, d, hk⟩, -⟩ := h
  rw [hk]
  exact isMetaKey_constructIndexValueKey n s d

theorem constructIndexValueKey_ne_snapshotsKey (n : QString) (s : Byte) (d : QByteArray) :
    constructIndexValueKey n s d ≠ snapshotsKey := by
  obtain ⟨r, hr⟩ := exists_constructIndexValueStartKey_eq n s
  rw [constructIndexValueKey, hr]
  intro h
  have hhead := (List.cons.inj (show (105 : Byte) :: (118 :: 58 :: r ++ d) = [115, 58] from h)).1
  exact absurd hhead (by decide)

theorem constructIndexValueKey_ne_indexesKey (n : QString) (s : Byte) (d : QByteArray) :
    constructIndexValueKey n s d ≠ indexesKey := by
  obtain ⟨r, hr⟩ := exists_constructIndexValueStartKey_eq n s
  rw [constructIndexValueKey, hr]
  intro h
  have htail := (List.cons.inj (show (105 : Byte) :: 118 :: (58 :: r ++ d) = [105, 110, 58] from h)).2
  exact absurd (List.cons.inj htail).1 (by decide)

/-- The index table only depends on the value read under its key. -/
theorem Reader.getIndexes_congr {R R' : Reader}
    (h : (R.getValue indexesKey).toOption = (R'.getValue indexesKey).toOption) :
    R.getIndexes = R'.getIndexes := by
  have heq : ∀ S : Reader, S.getIndexes =
      (((S.getValue indexesKey).toOption.map Blob.unmarshalIndexes).getD []) := by
    intro S
    rw [getIndexes]
    rcases S.getValue indexesKey with e | b <;> rfl
  rw [heq, heq, h]

namespace Transaction

variable {E : Env}

/-- `tx'` is `tx` after the calls `ws`; observers and error text aside. -/
structure Wrote (E : Env) (ws : List (WriteOp QByteArray Blob)) (tx tx' : Transaction) : Prop where
  kvdb : tx'.kvdb = tx.kvdb.writes E.backend ws
  snapshotId : tx'.snapshotId = tx.snapshotId

theorem wrote_nil {tx tx' : Transaction} (hk : tx'.kvdb = tx.kvdb)
    (hs : tx'.snapshotId = tx.snapshotId) : Wrote E [] tx tx' :=
  ⟨hk, hs⟩

theorem wrote_writes (tx : Transaction) (ws : List (WriteOp QByteArray Blob)) :
    Wrote E ws tx (tx.writes E ws) :=
  ⟨rfl, rfl⟩

theorem Wrote.trans {tx tx' tx'' : Transaction} {ws ws' : List (WriteOp QByteArray Blob)}
    (h : Wrote E ws tx tx') (h' : Wrote E ws' tx' tx'') : Wrote E (ws ++ ws') tx tx'' where
  kvdb := by rw [h'.kvdb, h.kvdb, KVTransaction.writes_append]
  snapshotId := h'.snapshotId.trans h.snapshotId

theorem Wrote.kvdb_eq {tx tx' : Transaction} {ws₀ ws : List (WriteOp QByteArray Blob)}
    (h : Wrote E ws tx tx') (hk : tx.kvdb = KVTransaction.new.writes E.backend ws₀) :
    tx'.kvdb = KVTransaction.new.writes E.backend (ws₀ ++ ws) := by
  rw [h.kvdb, hk, KVTransaction.writes_append]

/-- Observers and error text do not matter. -/
theorem Wrote.congr {tx tx' tx'' : Transaction} {ws : List (WriteOp QByteArray Blob)}
    (h : Wrote E ws tx tx') (hk : tx''.kvdb = tx'.kvdb) (hs : tx''.snapshotId = tx'.snapshotId) :
    Wrote E ws tx tx'' where
  kvdb := hk.trans h.kvdb
  snapshotId := hs.trans h.snapshotId

/-- Two transactions that read the same content, each over its own base. -/
structure Sim (E : Env) (db₁ db₂ : Store) (tx₁ tx₂ : Transaction) : Prop where
  content : ∃ ws₁ ws₂, tx₁.kvdb = KVTransaction.new.writes E.backend ws₁ ∧
    tx₂.kvdb = KVTransaction.new.writes E.backend ws₂ ∧ db₁.applyLog ws₁ = db₂.applyLog ws₂
  snapshotId : tx₁.snapshotId = tx₂.snapshotId

theorem Sim.of_writes (db : Store) {tx : Transaction} {ws : List (WriteOp QByteArray Blob)}
    (h : tx.kvdb = KVTransaction.new.writes E.backend ws) : Sim E db db tx tx :=
  ⟨⟨ws, ws, h, h, rfl⟩, rfl⟩

section Sim

variable {db₁ db₂ : Store} {tx₁ tx₂ tx₁' tx₂' : Transaction}

theorem Sim.wrote (h : Sim E db₁ db₂ tx₁ tx₂) {ws : List (WriteOp QByteArray Blob)}
    (h₁ : Wrote E ws tx₁ tx₁') (h₂ : Wrote E ws tx₂ tx₂') : Sim E db₁ db₂ tx₁' tx₂' := by
  obtain ⟨⟨ws₁, ws₂, hk₁, hk₂, hlog⟩, hs⟩ := h
  refine ⟨⟨ws₁ ++ ws, ws₂ ++ ws, ?_, ?_, ?_⟩, ?_⟩
  · exact h₁.kvdb_eq hk₁
  · exact h₂.kvdb_eq hk₂
  · rw [SortedMap.applyLog_append, SortedMap.applyLog_append, hlog]
  · rw [h₁.snapshotId, h₂.snapshotId, hs]

/-- Point reads agree. -/
theorem Sim.getValue (h : Sim E db₁ db₂ tx₁ tx₂) (k : QByteArray) :
    ((tx₁.reader E db₁).getValue k).toOption = ((tx₂.reader E db₂).getValue k).toOption := by
  obtain ⟨⟨ws₁, ws₂, hk₁, hk₂, hlog⟩, -⟩ := h
  rw [reader, reader, hk₁, hk₂]
  simp only
  rw [KVTransaction.getValue_writes, KVTransaction.getValue_writes, hlog]

/-- Point reads succeed with the same value, or fail on both sides. -/
theorem Sim.getValue_cases (h : Sim E db₁ db₂ tx₁ tx₂) (k : QByteArray) :
    (∃ b, (tx₁.reader E db₁).getValue k = .ok b ∧ (tx₂.reader E db₂).getValue k = .ok b) ∨
      ∃ e₁ e₂, (tx₁.reader E db₁).getValue k = .error e₁ ∧
        (tx₂.reader E db₂).getValue k = .error e₂ := by
  have hget := h.getValue k
  rcases h₁ : (tx₁.reader E db₁).getValue k with e₁ | b₁ <;>
    rcases h₂ : (tx₂.reader E db₂).getValue k with e₂ | b₂ <;> rw [h₁, h₂] at hget
  · exact .inr ⟨e₁, e₂, rfl, rfl⟩
  · cases hget
  · cases hget
  · obtain rfl : b₁ = b₂ := Option.some.inj hget
    exact .inl ⟨b₁, rfl, rfl⟩

theorem Sim.getIndexes (h : Sim E db₁ db₂ tx₁ tx₂) :
    (tx₁.reader E db₁).getIndexes = (tx₂.reader E db₂).getIndexes :=
  Reader.getIndexes_congr (h.getValue indexesKey)

theorem Sim.indexValueKey (h : Sim E db₁ db₂ tx₁ tx₂) (n : QString) (v : QJsonValue) :
    tx₁.indexValueKey E n v = tx₂.indexValueKey E n v := by
  rw [Transaction.indexValueKey, Transaction.indexValueKey, h.snapshotId]

/-! ## Index entries -/

/-- Both transactions make the same calls, and all satisfy `P`. -/
def BothWrote (E : Env) (P : List (WriteOp QByteArray Blob) → Prop)
    (tx₁ tx₁' tx₂ tx₂' : Transaction) : Prop :=
  ∃ ws, P ws ∧ Wrote E ws tx₁ tx₁' ∧ Wrote E ws tx₂ tx₂'

/-- Only index entries are written. -/
def IndexWrites (ws : List (WriteOp QByteArray Blob)) : Prop := ∀ w ∈ ws, IndexWrite w

theorem indexWrites_nil : IndexWrites [] := List.forall_mem_nil _

theorem BothWrote.refl (tx₁ tx₂ : Transaction) : BothWrote E IndexWrites tx₁ tx₁ tx₂ tx₂ :=
  ⟨[], indexWrites_nil, wrote_nil rfl rfl, wrote_nil rfl rfl⟩

theorem BothWrote.sim (h : Sim E db₁ db₂ tx₁ tx₂) {P : List (WriteOp QByteArray Blob) → Prop}
    (hw : BothWrote E P tx₁ tx₁' tx₂ tx₂') : Sim E db₁ db₂ tx₁' tx₂' := by
  obtain ⟨ws, -, h₁, h₂⟩ := hw
  exact h.wrote h₁ h₂

theorem BothWrote.trans {tx₁'' tx₂'' : Transaction}
    (h : BothWrote E IndexWrites tx₁ tx₁' tx₂ tx₂')
    (h' : BothWrote E IndexWrites tx₁' tx₁'' tx₂' tx₂'') :
    BothWrote E IndexWrites tx₁ tx₁'' tx₂ tx₂'' := by
  obtain ⟨ws, hP, h₁, h₂⟩ := h
  obtain ⟨ws', hP', h₁', h₂'⟩ := h'
  exact ⟨ws ++ ws', List.forall_mem_append.mpr ⟨hP, hP'⟩, h₁.trans h₁', h₂.trans h₂'⟩

theorem indexWrites_singleton {w : WriteOp QByteArray Blob} (h : IndexWrite w) :
    IndexWrites [w] := by
  rintro w' hw'
  rw [List.mem_singleton.mp hw']
  exact h

/-- Calls that both transactions make under the same condition. -/
theorem BothWrote.of_ite {c : Prop} [Decidable c] {ws : List (WriteOp QByteArray Blob)}
    (hws : IndexWrites ws) :
    BothWrote E IndexWrites tx₁ (if c then tx₁ else tx₁.writes E ws)
      tx₂ (if c then tx₂ else tx₂.writes E ws) := by
  by_cases hc : c
  · rw [if_pos hc, if_pos hc]
    exact .refl _ _
  · rw [if_neg hc, if_neg hc]
    exact ⟨ws, hws, wrote_writes _ _, wrote_writes _ _⟩

theorem addIndexValue_sim (h : Sim E db₁ db₂ tx₁ tx₂) (n : QString) (v : QJsonValue)
    (id : QByteArray) :
    BothWrote E IndexWrites tx₁ (tx₁.addIndexValue E db₁ n v id)
      tx₂ (tx₂.addIndexValue E db₂ n v id) := by
  have hindex : ∀ l, IndexWrites [.put (tx₂.indexValueKey E n v) (.indexValue l)] := fun l =>
    indexWrites_singleton ⟨⟨_, _, _, rfl⟩, fun o ho => by cases ho⟩
  rw [addIndexValue, addIndexValue]
  simp only [h.snapshotId, h.indexValueKey]
  rcases h.getValue_cases (tx₂.indexValueKey E n v) with ⟨b, h₁, h₂⟩ | ⟨e₁, e₂, h₁, h₂⟩
  · rw [h₁, h₂]
    exact .of_ite (hindex _)
  · rw [h₁, h₂]
    exact .of_ite (hindex _)

theorem removeIndexValue_sim (h : Sim E db₁ db₂ tx₁ tx₂) (n : QString) (v : QJsonValue)
    (linkKey : QByteArray) :
    (tx₁.removeIndexValue E db₁ n v linkKey).1 = (tx₂.removeIndexValue E db₂ n v linkKey).1 ∧
      BothWrote E IndexWrites tx₁ (tx₁.removeIndexValue E db₁ n v linkKey).2
        tx₂ (tx₂.removeIndexValue E db₂ n v linkKey).2 := by
  rw [removeIndexValue, removeIndexValue]
  simp only [h.indexValueKey]
  rcases h.getValue_cases (tx₂.indexValueKey E n v) with ⟨b, h₁, h₂⟩ | ⟨e₁, e₂, h₁, h₂⟩
  · rw [h₁, h₂]
    simp only
    split
    · refine ⟨rfl, _, indexWrites_singleton ?_, wrote_writes _ _, wrote_writes _ _⟩
      split
      · exact ⟨⟨_, _, _, rfl⟩, fun o ho => by cases ho⟩
      · exact ⟨⟨_, _, _, rfl⟩, fun o ho => by cases ho⟩
    · exact ⟨rfl, .refl _ _⟩
  · rw [h₁, h₂]
    exact ⟨rfl, [], indexWrites_nil, wrote_nil rfl rfl, wrote_nil rfl rfl⟩

theorem removeIndexValues_sim (h : Sim E db₁ db₂ tx₁ tx₂) (n : QString) (linkKey : QByteArray)
    (vs : List QJsonValue) :
    (removeIndexValues E db₁ n linkKey vs tx₁).1 = (removeIndexValues E db₂ n linkKey vs tx₂).1 ∧
      BothWrote E IndexWrites tx₁ (removeIndexValues E db₁ n linkKey vs tx₁).2
        tx₂ (removeIndexValues E db₂ n linkKey vs tx₂).2 := by
  induction vs generalizing tx₁ tx₂ with
  | nil => exact ⟨rfl, .refl _ _⟩
  | cons v vs ih =>
    obtain ⟨hr, hw⟩ := removeIndexValue_sim h n v linkKey
    rw [removeIndexValues, removeIndexValues]
    rcases h₁ : tx₁.removeIndexValue E db₁ n v linkKey with ⟨r, tx₁'⟩
    rcases h₂ : tx₂.removeIndexValue E db₂ n v linkKey with ⟨r', tx₂'⟩
    rw [h₁, h₂] at hr hw
    obtain rfl : r = r' := hr
    cases r with
    | success =>
      obtain ⟨hr', hw'⟩ := ih (hw.sim h)
      exact ⟨hr', hw.trans hw'⟩
    | _ => exact ⟨rfl, hw⟩

theorem removeFromIndexes_sim (h : Sim E db₁ db₂ tx₁ tx₂) (doc : QJsonObject)
    (linkKey : QByteArray) (indexes : List (QString × QString)) :
    (removeFromIndexes E db₁ doc linkKey indexes tx₁).1 =
        (removeFromIndexes E db₂ doc linkKey indexes tx₂).1 ∧
      BothWrote E IndexWrites tx₁ (removeFromIndexes E db₁ doc linkKey indexes tx₁).2
        tx₂ (removeFromIndexes E db₂ doc linkKey indexes tx₂).2 := by
  induction indexes generalizing tx₁ tx₂ with
  | nil => exact ⟨rfl, .refl _ _⟩
  | cons index indexes ih =>
    obtain ⟨fieldName, indexName⟩ := index
    rw [removeFromIndexes, removeFromIndexes]
    generalize indexedValues (getJsonValueByPath (.object doc) fieldName) = values
    obtain ⟨hr, hw⟩ := removeIndexValues_sim h indexName linkKey values
    rcases h₁ : removeIndexValues E db₁ indexName linkKey values tx₁ with ⟨r, tx₁'⟩
    rcases h₂ : removeIndexValues E db₂ indexName linkKey values tx₂ with ⟨r', tx₂'⟩
    rw [h₁, h₂] at hr hw
    obtain rfl : r = r' := hr
    cases r with
    | success =>
      obtain ⟨hr', hw'⟩ := ih (hw.sim h)
      exact ⟨hr', hw.trans hw'⟩
    | _ => exact ⟨rfl, hw⟩

theorem addIndexValues_sim (h : Sim E db₁ db₂ tx₁ tx₂) (doc : QJsonObject) (id : QByteArray)
    (indexes : List (QString × QString)) :
    BothWrote E IndexWrites tx₁ (addIndexValues E db₁ doc id indexes tx₁)
      tx₂ (addIndexValues E db₂ doc id indexes tx₂) := by
  induction indexes generalizing tx₁ tx₂ with
  | nil => exact .refl _ _
  | cons index indexes ih =>
    obtain ⟨fieldName, indexName⟩ := index
    have hw := addIndexValue_sim h indexName (getJsonValueByPath (.object doc) fieldName) id
    exact hw.trans (ih (hw.sim h))

/-! ## insert -/

omit E in
/-- The document to insert names the id as its `_id`. -/
theorem value_id_of_documentId {doc d : QJsonObject} {gen : IdGen} {id : QByteArray}
    (h : documentId doc gen = some (id, d)) :
    ∃ sid, QJsonObject.value d (qs "_id") = .string sid ∧ toLatin1 sid = id := by
  rw [documentId] at h
  split at h
  · rcases hv : QJsonObject.value doc (qs "_id") with _ | _ | _ | _ | sid | _ | _ <;>
      rw [hv] at h <;> cases h
    exact ⟨sid, hv, rfl⟩
  · cases h
    exact ⟨_, QJsonObject.value_insert_self _ _ _, toLatin1_fromLatin1 _⟩

/-- A generated UUID never replaces the `_id`. -/
theorem value_id_withUUID {gen : IdGen} {d : QJsonObject}
    (h : QJsonObject.value d (qs "_id") ≠ .undefined) :
    QJsonObject.value (withUUID E gen d) (qs "_id") = QJsonObject.value d (qs "_id") := by
  rw [withUUID]
  split
  · rename_i hu
    refine QJsonObject.value_insert_of_ne _ _ fun heq => ?_
    rw [← heq, QJsonObject.contains_of_value_ne h] at hu
    exact absurd hu.2 (by simp)
  · rfl

/-- The document `d` as `insert` stores it: a UUID may have been added. -/
def StoredAs (E : Env) (gen : IdGen) (d o : QJsonObject) : Prop :=
  o = d ∨ o = withUUID E gen d

theorem StoredAs.value_id {doc d o : QJsonObject} {gen : IdGen} {id : QByteArray}
    (ho : StoredAs E gen d o) (hid : documentId doc gen = some (id, d)) :
    ∃ sid, QJsonObject.value o (qs "_id") = .string sid ∧ toLatin1 sid = id := by
  obtain ⟨sid, hsid, hlatin⟩ := value_id_of_documentId hid
  rcases ho with rfl | rfl
  · exact ⟨sid, hsid, hlatin⟩
  · exact ⟨sid, (value_id_withUUID (by rw [hsid]; simp)).trans hsid, hlatin⟩

/-- What `insert` writes: nothing, or the document and its links. -/
inductive InsertWrites (E : Env) (s : Byte) (indexes : List (QString × QString))
    (doc : QJsonObject) (gen : IdGen) :
    ResultEnum → QByteArray → List (WriteOp QByteArray Blob) → Prop
  | refused {r : ResultEnum} {id : QByteArray} (hr : r ≠ .success) :
    InsertWrites E s indexes doc gen r id []
  | stored {id : QByteArray} {d o : QJsonObject} {iws : List (WriteOp QByteArray Blob)}
    (hid : documentId doc gen = some (id, d)) (ho : StoredAs E gen d o)
    (hiws : IndexWrites iws) (hnone : indexes = [] → iws = []) :
    InsertWrites E s indexes doc gen .success id (putJsonValue id s o ++ iws)

/-- Calls that leave the index table alone leave `getIndexes` alone. -/
theorem Wrote.getIndexes (db : Store) {tx tx' : Transaction} {ws₀ ws : List (WriteOp QByteArray Blob)}
    (hk : tx.kvdb = KVTransaction.new.writes E.backend ws₀) (h : Wrote E ws tx tx')
    (hws : ∀ w ∈ ws, w.key ≠ indexesKey) :
    (tx'.reader E db).getIndexes = (tx.reader E db).getIndexes := by
  have hget : ((tx'.reader E db).getValue indexesKey).toOption =
      ((tx.reader E db).getValue indexesKey).toOption := by
    rw [reader, reader, h.kvdb, hk, ← KVTransaction.writes_append]
    simp only
    rw [KVTransaction.getValue_writes, KVTransaction.getValue_writes, SortedMap.applyLog_append,
      SortedMap.find?_applyLog_of_forall_ne _ hws]
  exact Reader.getIndexes_congr hget

theorem putJsonValue_key_eq {id : QByteArray} {s : Byte} {o : QJsonObject}
    {w : WriteOp QByteArray Blob} (hw : w ∈ putJsonValue id s o) :
    w.key = constructDocumentStartKey id ∨ w.key = constructDocumentLinkKey id s := by
  rcases List.mem_cons.mp hw with rfl | hw
  · exact .inl rfl
  · exact .inr (by rw [List.mem_singleton.mp hw]; rfl)

theorem putJsonValue_key {id : QByteArray} {s : Byte} {o : QJsonObject}
    {w : WriteOp QByteArray Blob} (hw : w ∈ putJsonValue id s o) : IsKeyOf id w.key :=
  (putJsonValue_key_eq hw).imp_right fun h => ⟨s, h⟩

/-- **insert** returns the same and writes the same wherever its lookup and its point
reads agree. -/
theorem insert_sim (h : Sim E db₁ db₂ tx₁ tx₂) (doc : QJsonObject) (gen : IdGen)
    (overwrite ignoreReadOnlyValue : Bool)
    (hlook : ∀ id d, documentId doc gen = some (id, d) →
      (tx₁.reader E db₁).getJsonValue E id = (tx₂.reader E db₂).getJsonValue E id) :
    (tx₁.insert E db₁ doc gen overwrite ignoreReadOnlyValue).1 =
        (tx₂.insert E db₂ doc gen overwrite ignoreReadOnlyValue).1 ∧
      (tx₁.insert E db₁ doc gen overwrite ignoreReadOnlyValue).2.1 =
        (tx₂.insert E db₂ doc gen overwrite ignoreReadOnlyValue).2.1 ∧
      BothWrote E (InsertWrites E tx₁.snapshotId (tx₁.reader E db₁).getIndexes doc gen
          (tx₁.insert E db₁ doc gen overwrite ignoreReadOnlyValue).1
          (tx₁.insert E db₁ doc gen overwrite ignoreReadOnlyValue).2.1)
        tx₁ (tx₁.insert E db₁ doc gen overwrite ignoreReadOnlyValue).2.2
        tx₂ (tx₂.insert E db₂ doc gen overwrite ignoreReadOnlyValue).2.2 := by
  rw [insert, insert]
  rcases hid : documentId doc gen with - | ⟨id, d⟩
  · exact ⟨rfl, rfl, [], .refused (by simp), wrote_nil rfl rfl, wrote_nil rfl rfl⟩
  · simp only [hlook id d hid, h.snapshotId]
    generalize (tx₂.reader E db₂).getJsonValue E id = docOld
    by_cases hexists : (!docOld.isUndefined && !overwrite) = true
    · rw [if_pos hexists, if_pos hexists]
      exact ⟨rfl, rfl, [], .refused (by simp), wrote_nil rfl rfl, wrote_nil rfl rfl⟩
    · rw [if_neg hexists, if_neg hexists]
      by_cases hprot : (!docOld.isUndefined && isProtected E docOld ignoreReadOnlyValue) = true
      · rw [if_pos hprot, if_pos hprot]
        exact ⟨rfl, rfl, [], .refused (by simp), wrote_nil rfl rfl, wrote_nil rfl rfl⟩
      · rw [if_neg hprot, if_neg hprot]
        refine ⟨rfl, rfl, ?_⟩
        generalize ho : (if (!docOld.isUndefined) = true then d else withUUID E gen d) = o
        have hstored : StoredAs E gen d o := by
          rw [← ho]
          split
          · exact .inl rfl
          · exact .inr rfl
        have hw₁ := wrote_writes (E := E) tx₁ (putJsonValue id tx₂.snapshotId o)
        have hw₂ := wrote_writes (E := E) tx₂ (putJsonValue id tx₂.snapshotId o)
        have hsim := h.wrote hw₁ hw₂
        have hindexes : ((tx₁.writes E (putJsonValue id tx₂.snapshotId o)).reader E db₁).getIndexes =
            (tx₁.reader E db₁).getIndexes := by
          obtain ⟨⟨ws₁, -, hk₁, -⟩, -⟩ := h
          exact hw₁.getIndexes db₁ hk₁ fun w hw => (putJsonValue_key hw).ne_indexesKey
        rw [← hsim.getIndexes, hindexes]
        rcases hi : (tx₁.reader E db₁).getIndexes with - | ⟨index, indexes⟩
        · refine ⟨putJsonValue id tx₂.snapshotId o ++ [], ?_, ?_, ?_⟩
          · exact h.snapshotId ▸ .stored hid hstored indexWrites_nil fun _ => rfl
          · exact hw₁.trans (wrote_nil rfl rfl)
          · exact hw₂.trans (wrote_nil rfl rfl)
        · obtain ⟨iws, hiws, hi₁, hi₂⟩ := addIndexValues_sim hsim o id (index :: indexes)
          refine ⟨putJsonValue id tx₂.snapshotId o ++ iws, ?_, ?_, ?_⟩
          · exact h.snapshotId ▸ .stored hid hstored hiws fun hnil => by cases hnil
          · exact (hw₁.trans hi₁).congr rfl rfl
          · exact (hw₂.trans hi₂).congr rfl rfl

/-! ## removeById -/

/-- What `removeById` writes: nothing, or a tombstone or the physical removal of the
version, and changes to index entries. -/
inductive RemoveWrites (E : Env) (s : Byte) (indexes : List (QString × QString))
    (look : Option ValueScan) (id : QByteArray) :
    ResultEnum → List (WriteOp QByteArray Blob) → Prop
  | refused {r : ResultEnum} (hr : r ≠ .success) : RemoveWrites E s indexes look id r []
  | removed {scan : ValueScan} {doc : QJsonObject} {iws : List (WriteOp QByteArray Blob)}
    {r : ResultEnum} (hlook : look = some scan) (hdoc : scan.jsonValue = .object doc)
    (hiws : IndexWrites iws) (hnone : indexes = [] → iws = [] ∧ r = .success) :
    RemoveWrites E s indexes look id r (removeVersion id s scan ++ iws)

theorem removeVersion_key_eq {id : QByteArray} {s : Byte} {r : ValueScan}
    {w : WriteOp QByteArray Blob} (hw : w ∈ removeVersion id s r) :
    w.key = constructDocumentStartKey id ∨ w.key = constructDocumentLinkKey id s := by
  rw [removeVersion] at hw
  split at hw
  · exact .inr (by rw [List.mem_singleton.mp hw]; rfl)
  · rcases List.mem_cons.mp hw with rfl | hw
    · exact .inr rfl
    · exact .inl (by rw [List.mem_singleton.mp hw]; rfl)

theorem removeVersion_key {id : QByteArray} {s : Byte} {r : ValueScan}
    {w : WriteOp QByteArray Blob} (hw : w ∈ removeVersion id s r) : IsKeyOf id w.key :=
  (removeVersion_key_eq hw).imp_right fun h => ⟨s, h⟩

/-- **removeById** returns the same and writes the same wherever its scan and its point
reads agree. -/
theorem removeById_sim (h : Sim E db₁ db₂ tx₁ tx₂) (id : QByteArray) (ignoreReadOnlyValue : Bool)
    (hlook : seekValue E.backend db₁ tx₁.snapshotId id =
      seekValue E.backend db₂ tx₂.snapshotId id) :
    (tx₁.removeById E db₁ id ignoreReadOnlyValue).1 =
        (tx₂.removeById E db₂ id ignoreReadOnlyValue).1 ∧
      BothWrote E (RemoveWrites E tx₁.snapshotId (tx₁.reader E db₁).getIndexes
          (seekValue E.backend db₁ tx₁.snapshotId id) id
          (tx₁.removeById E db₁ id ignoreReadOnlyValue).1)
        tx₁ (tx₁.removeById E db₁ id ignoreReadOnlyValue).2
        tx₂ (tx₂.removeById E db₂ id ignoreReadOnlyValue).2 := by
  rw [removeById, removeById, hlook]
  generalize seekValue E.backend db₂ tx₂.snapshotId id = look
  simp only
  rcases hdoc : (look.getD .init).jsonValue with _ | _ | _ | _ | _ | _ | doc
  case object =>
    obtain ⟨scan, rfl⟩ : ∃ scan, look = some scan := by
      cases look with
      | none => cases hdoc
      | some scan => exact ⟨scan, rfl⟩
    rw [Option.getD_some] at hdoc ⊢
    simp only
    by_cases hprot : isProtected E (.object doc) ignoreReadOnlyValue = true
    · rw [if_pos hprot, if_pos hprot]
      exact ⟨rfl, [], .refused (by simp), wrote_nil rfl rfl, wrote_nil rfl rfl⟩
    · rw [if_neg hprot, if_neg hprot, h.snapshotId]
      have hw₁ := wrote_writes (E := E) tx₁ (removeVersion id tx₂.snapshotId scan)
      have hw₂ := wrote_writes (E := E) tx₂ (removeVersion id tx₂.snapshotId scan)
      have hsim := h.wrote hw₁ hw₂
      have hindexes : ((tx₁.writes E (removeVersion id tx₂.snapshotId scan)).reader E db₁).getIndexes =
          (tx₁.reader E db₁).getIndexes := by
        obtain ⟨⟨ws₁, -, hk₁, -⟩, -⟩ := h
        exact hw₁.getIndexes db₁ hk₁ fun w hw => (removeVersion_key hw).ne_indexesKey
      rw [← hsim.getIndexes, hindexes]
      rcases hi : (tx₁.reader E db₁).getIndexes with - | ⟨index, indexes⟩
      · refine ⟨rfl, removeVersion id tx₂.snapshotId scan ++ [], ?_, ?_, ?_⟩
        · exact .removed rfl hdoc indexWrites_nil fun _ => ⟨rfl, rfl⟩
        · rw [List.append_nil]
          exact hw₁.congr rfl rfl
        · rw [List.append_nil]
          exact hw₂.congr rfl rfl
      · obtain ⟨hr, iws, hiws, hi₁, hi₂⟩ := removeFromIndexes_sim hsim doc
          (constructDocumentLinkKey id (scan.snapshotId.getD 0)) (index :: indexes)
        rcases h₁ : removeFromIndexes E db₁ doc
          (constructDocumentLinkKey id (scan.snapshotId.getD 0)) (index :: indexes)
          (tx₁.writes E (removeVersion id tx₂.snapshotId scan)) with ⟨r, tx₁'⟩
        rcases h₂ : removeFromIndexes E db₂ doc
          (constructDocumentLinkKey id (scan.snapshotId.getD 0)) (index :: indexes)
          (tx₂.writes E (removeVersion id tx₂.snapshotId scan)) with ⟨r', tx₂'⟩
        rw [h₁, h₂] at hr
        rw [h₁] at hi₁
        rw [h₂] at hi₂
        obtain rfl : r = r' := hr
        have hwrites : ∀ r', RemoveWrites E tx₂.snapshotId (index :: indexes) (some scan) id r'
            (removeVersion id tx₂.snapshotId scan ++ iws) := fun r' =>
          .removed rfl hdoc hiws fun hnil => by cases hnil
        cases r with
        | success =>
          exact ⟨rfl, _, hwrites _, (hw₁.trans hi₁).congr rfl rfl, (hw₂.trans hi₂).congr rfl rfl⟩
        | _ => exact ⟨rfl, _, hwrites _, hw₁.trans hi₁, hw₂.trans hi₂⟩
  all_goals exact ⟨rfl, [], .refused (by simp), wrote_nil rfl rfl, wrote_nil rfl rfl⟩

/-! ## Operations on documents -/

/-- What an operation on documents writes. -/
def OpWrites (E : Env) (db : Store) (s : Byte) (indexes : List (QString × QString)) :
    TxOp → List (WriteOp QByteArray Blob) → Prop
  | .insert doc gen _ _, ws => ∃ r id, InsertWrites E s indexes doc gen r id ws
  | .removeById id _, ws =>
    ∃ r, RemoveWrites E s indexes (seekValue E.backend db s id) id r ws
  | _, _ => False

section OpWrites

omit E
variable {E : Env} {db : Store} {s : Byte} {indexes : List (QString × QString)} {op : TxOp}
  {ws : List (WriteOp QByteArray Blob)} (h : OpWrites E db s indexes op ws)
  {w : WriteOp QByteArray Blob} (hw : w ∈ ws)
include h hw

/-- An operation on documents writes keys of a document and index entries. -/
theorem OpWrites.isKeyOf_or_indexWrite : (∃ id, IsKeyOf id w.key) ∨ IndexWrite w := by
  cases op with
  | insert doc gen _ _ =>
    obtain ⟨r, id, hws⟩ := h
    cases hws with
    | refused => cases hw
    | stored _ _ hiws =>
      exact (List.mem_append.mp hw).imp (fun hw => ⟨_, putJsonValue_key hw⟩) (hiws _)
  | removeById id _ =>
    obtain ⟨r, hws⟩ := h
    cases hws with
    | refused => cases hw
    | removed _ _ hiws =>
      exact (List.mem_append.mp hw).imp (fun hw => ⟨_, removeVersion_key hw⟩) (hiws _)
  | _ => exact h.elim

theorem OpWrites.key_ne_indexesKey : w.key ≠ indexesKey := by
  rcases h.isKeyOf_or_indexWrite hw with ⟨id, hk⟩ | ⟨⟨n, t, d, hk⟩, -⟩
  · exact hk.ne_indexesKey
  · exact hk ▸ constructIndexValueKey_ne_indexesKey n t d

theorem OpWrites.key_ne_snapshotsKey : w.key ≠ snapshotsKey := by
  rcases h.isKeyOf_or_indexWrite hw with ⟨id, hk⟩ | ⟨⟨n, t, d, hk⟩, -⟩
  · exact hk.ne_snapshotsKey
  · exact hk ▸ constructIndexValueKey_ne_snapshotsKey n t d

end OpWrites

/-- An insertion or a removal by id. -/
def OnDocuments : TxOp → Prop
  | .insert _ _ _ _ => True
  | .removeById _ _ => True
  | _ => False

/-- An operation on documents, anywhere in a transaction. -/
theorem run_wrote (db : Store) {tx : Transaction} {ws₀ : List (WriteOp QByteArray Blob)}
    (hk : tx.kvdb = KVTransaction.new.writes E.backend ws₀) {op : TxOp} (hop : OnDocuments op) :
    ∃ ws, OpWrites E db tx.snapshotId (tx.reader E db).getIndexes op ws ∧
      Wrote E ws tx (op.run E db tx).2 := by
  match op, hop with
  | .insert doc gen overwrite ignoreReadOnlyValue, _ =>
    obtain ⟨-, -, ws, hP, hw, -⟩ := insert_sim (.of_writes db hk) doc gen overwrite
      ignoreReadOnlyValue fun _ _ _ => rfl
    exact ⟨ws, ⟨_, _, hP⟩, hw⟩
  | .removeById id ignoreReadOnlyValue, _ =>
    obtain ⟨-, ws, hP, hw, -⟩ := removeById_sim (.of_writes db hk) id ignoreReadOnlyValue rfl
    exact ⟨ws, ⟨_, hP⟩, hw⟩

/-- **A run of operations** in one transaction writes what each of them writes. By
induction on the operations; none of them changes the index table. -/
theorem runAll_wrote (db : Store) {tx : Transaction} {ws₀ : List (WriteOp QByteArray Blob)}
    (hk : tx.kvdb = KVTransaction.new.writes E.backend ws₀) {ops : List TxOp}
    (hops : ∀ op ∈ ops, OnDocuments op) :
    ∃ wss : List (List (WriteOp QByteArray Blob)),
      (∀ ws ∈ wss, ∃ op ∈ ops,
        OpWrites E db tx.snapshotId (tx.reader E db).getIndexes op ws) ∧
      Wrote E wss.flatten tx (TxOp.runAll E db ops tx) := by
  induction ops generalizing tx ws₀ with
  | nil => exact ⟨[], by simp, wrote_nil rfl rfl⟩
  | cons op ops ih =>
    obtain ⟨hop, hops⟩ := List.forall_mem_cons.mp hops
    obtain ⟨ws, hws, hw⟩ := run_wrote db hk hop
    obtain ⟨wss, hwss, hw'⟩ := ih (hw.kvdb_eq hk) hops
    have hindexes := hw.getIndexes db hk fun w hmem => hws.key_ne_indexesKey hmem
    refine ⟨ws :: wss, ?_, ?_⟩
    · rw [List.forall_mem_cons]
      refine ⟨⟨op, List.mem_cons_self, hws⟩, fun ws' hws' => ?_⟩
      obtain ⟨op', hop', hP⟩ := hwss ws' hws'
      rw [hw.snapshotId, hindexes] at hP
      exact ⟨op', List.mem_cons_of_mem _ hop', hP⟩
    · rw [List.flatten_cons]
      exact hw.trans hw'

/-! ## createIndex -/

theorem indexDocuments_wrote (db : Store) {tx : Transaction} {ws₀ : List (WriteOp QByteArray Blob)}
    (hk : tx.kvdb = KVTransaction.new.writes E.backend ws₀) (fieldName indexName : QString)
    (docs : List (QJsonValue × QByteArray)) :
    ∃ ws, IndexWrites ws ∧ Wrote E ws tx (indexDocuments E db fieldName indexName docs tx) := by
  induction docs generalizing tx ws₀ with
  | nil => exact ⟨[], indexWrites_nil, wrote_nil rfl rfl⟩
  | cons e docs ih =>
    obtain ⟨value, id⟩ := e
    rw [indexDocuments]
    by_cases hv : value.isObject = true
    · rw [if_pos hv]
      obtain ⟨ws, hws, hw, -⟩ :=
        addIndexValue_sim (.of_writes db hk) indexName (getJsonValueByPath value fieldName) id
      obtain ⟨ws', hws', hw'⟩ := ih (hw.kvdb_eq hk)
      exact ⟨ws ++ ws', List.forall_mem_append.mpr ⟨hws, hws'⟩, hw.trans hw'⟩
    · rw [if_neg hv]
      exact ih hk

/-- **createIndex** writes index entries and the index table. -/
theorem createIndex_wrote (db : Store) {tx : Transaction} {ws₀ : List (WriteOp QByteArray Blob)}
    (hk : tx.kvdb = KVTransaction.new.writes E.backend ws₀) (fieldName indexName : QString) :
    (tx.createIndex E db fieldName indexName).1 = .success ∧
      ∃ ws, (∀ w ∈ ws, IndexWrite w ∨ ∃ h, w = .put indexesKey (.indexes h)) ∧
        Wrote E ws tx (tx.createIndex E db fieldName indexName).2 := by
  rw [createIndex]
  by_cases hi : ((tx.reader E db).getIndexes.lookup fieldName).isSome = true
  · simp only [hi]
    exact ⟨rfl, [], by simp, wrote_nil rfl rfl⟩
  · simp only [hi]
    refine ⟨rfl, ?_⟩
    have hw := wrote_writes (E := E) tx
      [.put (constructIndexValueKey indexName tx.snapshotId []) .empty]
    obtain ⟨ws, hws, hw'⟩ := indexDocuments_wrote db (hw.kvdb_eq hk) fieldName indexName
      (enumerate E.backend db tx.snapshotId)
    refine ⟨_, ?_, (hw.trans hw').trans (wrote_writes _ _)⟩
    intro w hmem
    rcases List.mem_append.mp hmem with hmem | hmem
    · rcases List.mem_append.mp hmem with hmem | hmem
      · rw [List.mem_singleton.mp hmem]
        exact .inl ⟨⟨_, _, _, rfl⟩, fun o ho => by cases ho⟩
      · exact .inl (hws w hmem)
    · exact .inr ⟨_, List.mem_singleton.mp hmem⟩

end Sim

end Transaction

end Qdocdb
