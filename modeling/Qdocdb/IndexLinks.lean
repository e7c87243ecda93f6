import Qdocdb.Lib.LinkTable
import Qdocdb.Writes

/-!
# Index entries as a table of links

What a transaction reads under the keys of index entries is a table of links, in which a
key tells the index, the snapshot and the value. Inserting a document adds a link for each
index (`addIndexValues_links`), and removing one takes a link away for each indexed value,
which fails at the first value that has no entry (`removeFromIndexes_links`). The writes
to documents leave the table alone.
-/

namespace Qdocdb

/-- `iv:`, which the keys of index entries start with. -/
def indexPrefix : QByteArray := bytes "iv:"

theorem indexPrefix_prefix_constructIndexValueKey (indexName : QString) (s : Byte)
    (valueData : QByteArray) : indexPrefix <+: constructIndexValueKey indexName s valueData := by
  obtain ⟨r, hr⟩ := exists_constructIndexValueStartKey_eq indexName s
  exact ⟨r ++ valueData, by rw [constructIndexValueKey, hr]; rfl⟩

theorem IsKeyOf.not_indexPrefix {id k : QByteArray} (h : IsKeyOf id k) : ¬ indexPrefix <+: k := by
  rintro ⟨r, rfl⟩
  have hmeta : IsMetaKey (indexPrefix ++ r) := ⟨105, [118, 58] ++ r, rfl, by decide⟩
  exact hmeta.not_isKeyOf h

namespace KVTransaction

variable {K V : Type} [LinearOrder K]

/-- A read inside a transaction sees the newest write of the key. -/
theorem toOption_getValue_write (B : Backend) (db : SortedMap K V) (tx : KVTransaction K V)
    (w : WriteOp K V) (k : K) :
    ((tx.write B w).getValue B db k).toOption =
      if w.key = k then w.outcome else (tx.getValue B db k).toOption := by
  rw [getValue, getValue, cacheDeleted_write, cache_write]
  by_cases hk : w.key = k
  · subst hk
    rw [AList.lookup_insert]
    cases h : w.outcome <;> simp [Except.toOption]
  · rw [AList.lookup_insert_ne (Ne.symm hk)]
    simp [hk]

theorem toOption_getValue_writes (B : Backend) (db : SortedMap K V) (tx : KVTransaction K V)
    (ws : List (WriteOp K V)) (k : K) :
    ((tx.writes B ws).getValue B db k).toOption =
      (lastWrite ws k).getD (tx.getValue B db k).toOption := by
  induction ws using List.reverseRecOn with
  | nil => rfl
  | append_singleton ws w ih =>
    rw [writes_concat, toOption_getValue_write, lastWrite_concat, ih]
    split <;> rfl

end KVTransaction

namespace Transaction

variable {E : Env} {db : Store} {tx tx' : Transaction}

/-! ## The table of a transaction -/

/-- The index entries that a transaction reads. -/
def links (E : Env) (db : Store) (tx : Transaction) : LinkTable QByteArray QByteArray := fun k =>
  if indexPrefix <+: k then
    ((tx.reader E db).getValue k).toOption.map Blob.unmarshalIndexValue
  else none

theorem links_of_prefix {k : QByteArray} (h : indexPrefix <+: k) :
    tx.links E db k = ((tx.reader E db).getValue k).toOption.map Blob.unmarshalIndexValue :=
  if_pos h

/-- The table after some calls. -/
theorem links_writes (ws : List (WriteOp QByteArray Blob)) (k : QByteArray) :
    (tx.writes E ws).links E db k =
      if indexPrefix <+: k then
        ((lastWrite ws k).getD ((tx.reader E db).getValue k).toOption).map Blob.unmarshalIndexValue
      else none := by
  rw [links, reader, writes]
  simp only [KVTransaction.toOption_getValue_writes]
  rfl

/-- Calls outside of the index entries leave the table alone. -/
theorem links_writes_of_ne {ws : List (WriteOp QByteArray Blob)}
    (h : ∀ w ∈ ws, ¬ indexPrefix <+: w.key) : (tx.writes E ws).links E db = tx.links E db := by
  funext k
  rw [links_writes, links]
  split
  · rename_i hk
    have hnone : lastWrite ws k = none := lastWrite_eq_none_iff.mpr fun w hw heq => by
      exact h w hw (heq ▸ hk)
    rw [hnone, Option.getD_none]
  · rfl

/-- Calls for documents leave the table alone. -/
theorem links_writes_of_isKeyOf {ws : List (WriteOp QByteArray Blob)}
    (h : ∀ w ∈ ws, ∃ id, IsKeyOf id w.key) : (tx.writes E ws).links E db = tx.links E db := by
  refine links_writes_of_ne fun w hw => ?_
  obtain ⟨id, hid⟩ := h w hw
  exact hid.not_indexPrefix

/-- A call for an index entry updates the table. -/
theorem links_writes_singleton {w : WriteOp QByteArray Blob} (h : indexPrefix <+: w.key) :
    (tx.writes E [w]).links E db =
      Function.update (tx.links E db) w.key (w.outcome.map Blob.unmarshalIndexValue) := by
  funext k
  rw [links_writes, lastWrite_cons, lastWrite_nil, Option.none_or, Function.update_apply]
  by_cases hk : k = w.key
  · subst hk
    rw [if_pos h, if_pos rfl, if_pos rfl, Option.getD_some]
  · rw [if_neg (Ne.symm hk), if_neg hk, Option.getD_none, links]

/-! ## One entry -/

theorem indexPrefix_prefix_indexValueKey (n : QString) (v : QJsonValue) :
    indexPrefix <+: tx.indexValueKey E n v :=
  indexPrefix_prefix_constructIndexValueKey _ _ _

/-- What `addIndexValue` writes, by the table. -/
theorem addIndexValue_eq (n : QString) (v : QJsonValue) (id : QByteArray) :
    tx.addIndexValue E db n v id =
      if constructDocumentLinkKey id tx.snapshotId ∈
          (tx.links E db (tx.indexValueKey E n v)).getD [] then tx
      else tx.writes E [.put (tx.indexValueKey E n v) (.indexValue
        ((tx.links E db (tx.indexValueKey E n v)).getD [] ++
          [constructDocumentLinkKey id tx.snapshotId]))] := by
  rw [addIndexValue, links_of_prefix (indexPrefix_prefix_indexValueKey n v)]
  cases (tx.reader E db).getValue (tx.indexValueKey E n v) with
  | error e => simp [Except.toOption]
  | ok b =>
    by_cases hmem : constructDocumentLinkKey id tx.snapshotId ∈ b.unmarshalIndexValue <;>
      simp [Except.toOption, hmem]

theorem addIndexValue_snapshotId (n : QString) (v : QJsonValue) (id : QByteArray) :
    (tx.addIndexValue E db n v id).snapshotId = tx.snapshotId := by
  rw [addIndexValue_eq]
  split <;> rfl

/-- **addIndexValue** adds a link. -/
theorem addIndexValue_links (n : QString) (v : QJsonValue) (id : QByteArray) :
    (tx.addIndexValue E db n v id).links E db =
      (tx.links E db).add (tx.indexValueKey E n v) (constructDocumentLinkKey id tx.snapshotId) := by
  rw [addIndexValue_eq, LinkTable.add]
  split
  · rfl
  · exact links_writes_singleton (indexPrefix_prefix_indexValueKey n v)

/-- What the removal of some links comes to: the table without them, or a failure at the
first one whose value has no entry. -/
inductive RemovesLinks (E : Env) (db : Store) (tx : Transaction)
    (pairs : List (QByteArray × QByteArray)) : ResultEnum × Transaction → Prop
  | failed {tx' : Transaction} (h : LinkTable.removeAll pairs (tx.links E db) = none) :
    RemovesLinks E db tx pairs (.errorDatabase, tx')
  | removed {tx' : Transaction}
    (h : LinkTable.removeAll pairs (tx.links E db) = some (tx'.links E db))
    (hs : tx'.snapshotId = tx.snapshotId) : RemovesLinks E db tx pairs (.success, tx')

theorem RemovesLinks.success_iff {pairs : List (QByteArray × QByteArray)}
    {result : ResultEnum × Transaction} (h : RemovesLinks E db tx pairs result) :
    result.1 = .success ↔ (tx.links E db).Removable pairs := by
  rw [← LinkTable.removeAll_isSome_iff]
  cases h with
  | failed h => simp [h]
  | removed h hs => simp [h]

theorem RemovesLinks.failed_append {pairs : List (QByteArray × QByteArray)}
    (h : LinkTable.removeAll pairs (tx.links E db) = none)
    (pairs' : List (QByteArray × QByteArray)) :
    RemovesLinks E db tx (pairs ++ pairs') (.errorDatabase, tx') :=
  .failed (by rw [LinkTable.removeAll_append, h, Option.bind_none])

theorem RemovesLinks.append {pairs pairs' : List (QByteArray × QByteArray)}
    {result : ResultEnum × Transaction} (h : RemovesLinks E db tx pairs (.success, tx'))
    (h' : RemovesLinks E db tx' pairs' result) : RemovesLinks E db tx (pairs ++ pairs') result := by
  cases h with
  | removed h hs =>
    cases h' with
    | failed h' => exact .failed (by rw [LinkTable.removeAll_append, h, Option.bind_some, h'])
    | removed h' hs' =>
      exact .removed (by rw [LinkTable.removeAll_append, h, Option.bind_some, h']) (hs'.trans hs)

/-- **removeIndexValue** removes a link, or fails when the value has no entry. -/
theorem removeIndexValue_links (n : QString) (v : QJsonValue) (linkKey : QByteArray) :
    RemovesLinks E db tx [(tx.indexValueKey E n v, linkKey)]
      (tx.removeIndexValue E db n v linkKey) := by
  have hprefix := @indexPrefix_prefix_indexValueKey E tx n v
  have hall : LinkTable.removeAll [(tx.indexValueKey E n v, linkKey)] (tx.links E db) =
      (tx.links E db).remove (tx.indexValueKey E n v) linkKey := Option.bind_fun_some _
  rw [LinkTable.remove, links_of_prefix hprefix] at hall
  rw [removeIndexValue]
  dsimp only
  cases hget : (tx.reader E db).getValue (tx.indexValueKey E n v) with
  | error e => exact .failed (by rw [hall, hget]; rfl)
  | ok b =>
    rw [hget] at hall
    dsimp only
    by_cases hmem : linkKey ∈ b.unmarshalIndexValue
    · rw [if_pos (by simpa using hmem)]
      refine .removed ?_ rfl
      rw [hall, Except.toOption, Option.map_some, Option.map_some, if_pos hmem]
      by_cases hnil : b.unmarshalIndexValue.filter (· ≠ linkKey) = []
      · rw [if_pos hnil, if_pos hnil]
        exact congrArg some (links_writes_singleton (w := .delete _) hprefix).symm
      · rw [if_neg hnil, if_neg hnil]
        exact congrArg some (links_writes_singleton (w := .put (tx.indexValueKey E n v)
          (.indexValue (b.unmarshalIndexValue.filter (· ≠ linkKey)))) hprefix).symm
    · rw [if_neg (by simpa using hmem)]
      refine .removed ?_ rfl
      rw [hall, Except.toOption, Option.map_some, Option.map_some, if_neg hmem]

/-! ## The entries of a document -/

/-- The links that a new version adds: one for each index. -/
def addedLinks (E : Env) (s : Byte) (indexes : List (QString × QString)) (doc : QJsonObject)
    (id : QByteArray) : List (QByteArray × QByteArray) :=
  indexes.map fun index =>
    (constructIndexValueKey index.2 s
      (marshal E.toBinaryData (getJsonValueByPath (.object doc) index.1)),
      constructDocumentLinkKey id s)

/-- The links that a removal takes away: one for each indexed value. -/
def removedLinks (E : Env) (s : Byte) (indexes : List (QString × QString)) (doc : QJsonObject)
    (linkKey : QByteArray) : List (QByteArray × QByteArray) :=
  indexes.flatMap fun index =>
    (indexedValues (getJsonValueByPath (.object doc) index.1)).map fun value =>
      (constructIndexValueKey index.2 s (marshal E.toBinaryData value), linkKey)

/-- **The index loop of insert** adds the links of the new version. -/
theorem addIndexValues_links (doc : QJsonObject) (id : QByteArray)
    (indexes : List (QString × QString)) :
    (addIndexValues E db doc id indexes tx).links E db =
      (tx.links E db).addAll (addedLinks E tx.snapshotId indexes doc id) := by
  induction indexes generalizing tx with
  | nil => rfl
  | cons index indexes ih =>
    rw [addIndexValues, ih, addIndexValue_links, addIndexValue_snapshotId]
    rfl

theorem removeIndexValues_links (n : QString) (linkKey : QByteArray) (values : List QJsonValue) :
    RemovesLinks E db tx
      (values.map fun v =>
        (constructIndexValueKey n tx.snapshotId (marshal E.toBinaryData v), linkKey))
      (removeIndexValues E db n linkKey values tx) := by
  induction values generalizing tx with
  | nil => exact .removed rfl rfl
  | cons v values ih =>
    have hfirst := @removeIndexValue_links E db tx n v linkKey
    rw [removeIndexValues]
    generalize tx.removeIndexValue E db n v linkKey = result at hfirst ⊢
    cases hfirst with
    | failed h => exact .failed_append h _
    | @removed tx' h hs =>
      have hrest := @ih tx'
      rw [hs] at hrest
      exact (RemovesLinks.removed h hs).append hrest

/-- **The index loop of removeById** takes the links of the removed version away, or fails
where a value has no entry. -/
theorem removeFromIndexes_links (doc : QJsonObject) (linkKey : QByteArray)
    (indexes : List (QString × QString)) :
    RemovesLinks E db tx (removedLinks E tx.snapshotId indexes doc linkKey)
      (removeFromIndexes E db doc linkKey indexes tx) := by
  induction indexes generalizing tx with
  | nil => exact .removed rfl rfl
  | cons index indexes ih =>
    have hfirst := @removeIndexValues_links E db tx index.2 linkKey
      (indexedValues (getJsonValueByPath (.object doc) index.1))
    rw [removeFromIndexes]
    generalize removeIndexValues E db index.2 linkKey _ tx = result at hfirst ⊢
    cases hfirst with
    | failed h => exact .failed_append h _
    | @removed tx' h hs =>
      have hrest := @ih tx'
      rw [hs] at hrest
      exact (RemovesLinks.removed h hs).append hrest

end Transaction

end Qdocdb
