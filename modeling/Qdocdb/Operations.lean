import Qdocdb.IndexLinks

/-!
# What decides an operation

An iterator inside a transaction runs over the committed store, so whether `insert` takes
a document and whether `removeById` finds one is settled by the store alone (`accepted`,
`removable`). A document that is taken is stored and indexed without further failure; a
document that is found is removed, unless one of its indexed values has no entry.
-/

namespace Qdocdb

/-- Calls that leave the index table alone leave `getIndexes` alone. -/
theorem Transaction.getIndexes_writes {E : Env} {db : Store} {tx : Transaction}
    {ws : List (WriteOp QByteArray Blob)} (h : ∀ w ∈ ws, w.key ≠ indexesKey) :
    ((tx.writes E ws).reader E db).getIndexes = (tx.reader E db).getIndexes := by
  refine Reader.getIndexes_congr ?_
  rw [reader, reader, writes]
  simp only [KVTransaction.toOption_getValue_writes, lastWrite_eq_none_iff.mpr h, Option.getD_none]

namespace Transaction

variable {E : Env} {db : Store} {tx tx' : Transaction}

/-- `tx'` is `tx` with more calls; the error text aside. -/
structure Extends (E : Env) (db : Store) (tx tx' : Transaction) : Prop where
  kvdb : ∃ ws, tx'.kvdb = tx.kvdb.writes E.backend ws
  snapshotId : tx'.snapshotId = tx.snapshotId
  indexes : (tx'.reader E db).getIndexes = (tx.reader E db).getIndexes

theorem Extends.refl (tx : Transaction) : Extends E db tx tx := ⟨⟨[], rfl⟩, rfl, rfl⟩

theorem Extends.trans {tx'' : Transaction} (h : Extends E db tx tx') (h' : Extends E db tx' tx'') :
    Extends E db tx tx'' where
  kvdb := by
    obtain ⟨ws, hws⟩ := h.kvdb
    obtain ⟨ws', hws'⟩ := h'.kvdb
    exact ⟨ws ++ ws', by rw [hws', hws, KVTransaction.writes_append]⟩
  snapshotId := h'.snapshotId.trans h.snapshotId
  indexes := h'.indexes.trans h.indexes

theorem extends_writes {ws : List (WriteOp QByteArray Blob)} (h : ∀ w ∈ ws, w.key ≠ indexesKey) :
    Extends E db tx (tx.writes E ws) :=
  ⟨⟨ws, rfl⟩, rfl, getIndexes_writes h⟩

theorem extends_addIndexValue (n : QString) (v : QJsonValue) (id : QByteArray) :
    Extends E db tx (tx.addIndexValue E db n v id) := by
  rw [addIndexValue_eq]
  split
  · exact .refl tx
  · refine extends_writes fun w hw => ?_
    rw [List.mem_singleton.mp hw]
    exact constructIndexValueKey_ne_indexesKey _ _ _

theorem extends_addIndexValues (doc : QJsonObject) (id : QByteArray)
    (indexes : List (QString × QString)) :
    Extends E db tx (addIndexValues E db doc id indexes tx) := by
  induction indexes generalizing tx with
  | nil => exact .refl tx
  | cons index indexes ih => exact (extends_addIndexValue _ _ _).trans ih

theorem extends_removeIndexValue (n : QString) (v : QJsonValue) (linkKey : QByteArray) :
    Extends E db tx (tx.removeIndexValue E db n v linkKey).2 := by
  rw [removeIndexValue]
  dsimp only
  split
  · exact ⟨⟨[], rfl⟩, rfl, rfl⟩
  · split
    · refine extends_writes fun w hw => ?_
      rw [List.mem_singleton.mp hw]
      split <;> exact constructIndexValueKey_ne_indexesKey _ _ _
    · exact .refl tx

theorem extends_removeIndexValues (n : QString) (linkKey : QByteArray) (values : List QJsonValue) :
    Extends E db tx (removeIndexValues E db n linkKey values tx).2 := by
  induction values generalizing tx with
  | nil => exact .refl tx
  | cons v values ih =>
    have hfirst := @extends_removeIndexValue E db tx n v linkKey
    rw [removeIndexValues]
    split
    · rename_i tx' heq
      rw [heq] at hfirst
      exact hfirst.trans ih
    · rename_i r tx' _ heq
      rw [heq] at hfirst
      exact hfirst

theorem extends_removeFromIndexes (doc : QJsonObject) (linkKey : QByteArray)
    (indexes : List (QString × QString)) :
    Extends E db tx (removeFromIndexes E db doc linkKey indexes tx).2 := by
  induction indexes generalizing tx with
  | nil => exact .refl tx
  | cons index indexes ih =>
    have hfirst := @extends_removeIndexValues E db tx index.2 linkKey
      (indexedValues (getJsonValueByPath (.object doc) index.1))
    rw [removeFromIndexes]
    split
    · rename_i tx' heq
      rw [heq] at hfirst
      exact hfirst.trans ih
    · rename_i r tx' _ heq
      rw [heq] at hfirst
      exact hfirst

/-! ## insert -/

/-- What `insert` stores: the id, the document and whether it replaces one; nothing when
the document is refused. -/
def accepted (E : Env) (db : Store) (s : Byte) (doc : QJsonObject) (gen : IdGen)
    (overwrite ignoreReadOnlyValue : Bool) : Option (QByteArray × QJsonObject × Bool) :=
  (documentId doc gen).bind fun p =>
    let docOld := Qdocdb.getJsonValue E.backend db s p.1
    let isOld := !docOld.isUndefined
    if isOld && (!overwrite || isProtected E docOld ignoreReadOnlyValue) then none
    else some (p.1, if isOld then p.2 else withUUID E gen p.2, isOld)

/-- The id and the document that `insert` stores; nothing when it refuses the document. -/
def stored (E : Env) (db : Store) (s : Byte) (doc : QJsonObject) (gen : IdGen)
    (overwrite ignoreReadOnlyValue : Bool) : Option (QByteArray × QJsonObject) :=
  (accepted E db s doc gen overwrite ignoreReadOnlyValue).map fun p => (p.1, p.2.1)

/-- The transaction with a document stored and indexed. -/
def store (E : Env) (db : Store) (tx : Transaction) (id : QByteArray) (o : QJsonObject)
    (isOld : Bool) : Transaction :=
  let tx := tx.writes E (putJsonValue id tx.snapshotId o)
  let tx := addIndexValues E db o id (tx.reader E db).getIndexes tx
  { tx with observers := tx.observers.update (.inserted E o isOld) }

theorem insert_of_accepted_eq_none {doc : QJsonObject} {gen : IdGen}
    {overwrite ignoreReadOnlyValue : Bool}
    (h : accepted E db tx.snapshotId doc gen overwrite ignoreReadOnlyValue = none) :
    ∃ r id lastError, r ≠ .success ∧ tx.insert E db doc gen overwrite ignoreReadOnlyValue =
      (r, id, { tx with lastError := lastError }) := by
  rw [insert]
  rw [accepted] at h
  cases hid : documentId doc gen with
  | none => exact ⟨_, _, _, by decide, rfl⟩
  | some p =>
    obtain ⟨id, d⟩ := p
    rw [hid, Option.bind_some] at h
    dsimp only at h ⊢
    have hold : (tx.reader E db).getJsonValue E id =
        Qdocdb.getJsonValue E.backend db tx.snapshotId id := rfl
    rw [hold]
    generalize Qdocdb.getJsonValue E.backend db tx.snapshotId id = docOld at h ⊢
    cases hu : docOld.isUndefined with
    | true => simp [hu] at h
    | false =>
      cases overwrite with
      | false => exact ⟨_, _, _, by decide, rfl⟩
      | true =>
        cases hp : isProtected E docOld ignoreReadOnlyValue with
        | false => simp [hu, hp] at h
        | true => exact ⟨.errorObjectIsReadOnly, id, tx.lastError, by decide, by simp⟩

theorem observers_addIndexValues (doc : QJsonObject) (id : QByteArray)
    (indexes : List (QString × QString)) :
    (addIndexValues E db doc id indexes tx).observers = tx.observers := by
  induction indexes generalizing tx with
  | nil => rfl
  | cons index indexes ih =>
    rw [addIndexValues, ih, addIndexValue_eq]
    split <;> rfl

theorem putJsonValue_key_ne_indexesKey {id : QByteArray} {s : Byte} {o : QJsonObject} :
    ∀ w ∈ putJsonValue id s o, w.key ≠ indexesKey :=
  fun _ hw => (putJsonValue_key hw).ne_indexesKey

/-- **insert** stores a document that it does not refuse. -/
theorem insert_of_accepted {doc : QJsonObject} {gen : IdGen} {overwrite ignoreReadOnlyValue : Bool}
    {id : QByteArray} {o : QJsonObject} {isOld : Bool}
    (h : accepted E db tx.snapshotId doc gen overwrite ignoreReadOnlyValue = some (id, o, isOld)) :
    tx.insert E db doc gen overwrite ignoreReadOnlyValue =
      (.success, id, tx.store E db id o isOld) := by
  rw [insert]
  rw [accepted] at h
  obtain ⟨⟨id', d⟩, hid, h⟩ := Option.bind_eq_some_iff.mp h
  rw [hid]
  dsimp only at h ⊢
  have hold : (tx.reader E db).getJsonValue E id' =
      Qdocdb.getJsonValue E.backend db tx.snapshotId id' := rfl
  rw [hold]
  generalize Qdocdb.getJsonValue E.backend db tx.snapshotId id' = docOld at h ⊢
  cases hu : docOld.isUndefined with
  | true =>
    simp only [hu, Bool.not_true, Bool.false_and, Bool.false_eq_true, if_false,
      Option.some.injEq, Prod.mk.injEq] at h ⊢
    obtain ⟨rfl, rfl, rfl⟩ := h
    exact ⟨trivial, rfl, rfl⟩
  | false =>
    simp only [hu, Bool.not_false, Bool.true_and, if_true] at h ⊢
    cases overwrite with
    | false => simp at h
    | true =>
      cases hp : isProtected E docOld ignoreReadOnlyValue with
      | true => simp [hp] at h
      | false =>
        simp only [hp, Bool.not_true, Bool.or_self, Bool.false_eq_true, if_false,
          Option.some.injEq, Prod.mk.injEq] at h ⊢
        obtain ⟨rfl, rfl, rfl⟩ := h
        exact ⟨trivial, rfl, rfl⟩

/-- What is taken is the document for its id, as `insert` stores it. -/
theorem documentId_of_accepted {s : Byte} {doc : QJsonObject} {gen : IdGen}
    {overwrite ignoreReadOnlyValue : Bool} {id : QByteArray} {o : QJsonObject} {isOld : Bool}
    (h : accepted E db s doc gen overwrite ignoreReadOnlyValue = some (id, o, isOld)) :
    ∃ d, documentId doc gen = some (id, d) ∧ StoredAs E gen d o := by
  rw [accepted] at h
  obtain ⟨⟨id', d⟩, hid, h⟩ := Option.bind_eq_some_iff.mp h
  dsimp only at h
  split at h
  · cases h
  · obtain ⟨rfl, ho, -⟩ : id' = id ∧ _ ∧ _ := by simpa using h
    refine ⟨d, hid, ?_⟩
    rw [StoredAs, ← ho]
    split
    · exact .inl rfl
    · exact .inr rfl

/-- A document that is taken names its id. -/
theorem value_id_of_accepted {s : Byte} {doc : QJsonObject} {gen : IdGen}
    {overwrite ignoreReadOnlyValue : Bool} {id : QByteArray} {o : QJsonObject} {isOld : Bool}
    (h : accepted E db s doc gen overwrite ignoreReadOnlyValue = some (id, o, isOld)) :
    ∃ sid, QJsonObject.value o (qs "_id") = .string sid ∧ toLatin1 sid = id := by
  obtain ⟨d, hid, ho⟩ := documentId_of_accepted h
  exact ho.value_id hid

section Store

variable (id : QByteArray) (o : QJsonObject) (isOld : Bool)

theorem observers_store :
    (tx.store E db id o isOld).observers = tx.observers.update (.inserted E o isOld) := by
  rw [store]
  dsimp only
  rw [observers_addIndexValues]
  rfl

theorem extends_store : Extends E db tx (tx.store E db id o isOld) := by
  have h : Extends E db tx (addIndexValues E db o id
      ((tx.writes E (putJsonValue id tx.snapshotId o)).reader E db).getIndexes
      (tx.writes E (putJsonValue id tx.snapshotId o))) :=
    (extends_writes putJsonValue_key_ne_indexesKey).trans (extends_addIndexValues _ _ _)
  exact ⟨h.kvdb, h.snapshotId, h.indexes⟩

/-- A stored document adds its links. -/
theorem links_store : (tx.store E db id o isOld).links E db =
    (tx.links E db).addAll
      (addedLinks E tx.snapshotId (tx.reader E db).getIndexes o id) := by
  have h := @addIndexValues_links E db (tx.writes E (putJsonValue id tx.snapshotId o))
    o id (tx.reader E db).getIndexes
  rw [links_writes_of_isKeyOf fun w hw => ⟨id, putJsonValue_key hw⟩] at h
  rw [store, getIndexes_writes putJsonValue_key_ne_indexesKey]
  exact h

end Store

/-! ## removeById -/

/-- What `removeById` finds and may remove: the document and the scan of its versions. -/
def removable (E : Env) (db : Store) (s : Byte) (id : QByteArray) (ignoreReadOnlyValue : Bool) :
    Option (QJsonObject × ValueScan) :=
  let scan := (seekValue E.backend db s id).getD .init
  match scan.jsonValue with
  | .object doc => if isProtected E (.object doc) ignoreReadOnlyValue then none else some (doc, scan)
  | _ => none

/-- The links that the removal of an id takes away. -/
def removalLinks (E : Env) (db : Store) (s : Byte) (indexes : List (QString × QString))
    (ignoreReadOnlyValue : Bool) (id : QByteArray) : List (QByteArray × QByteArray) :=
  match removable E db s id ignoreReadOnlyValue with
  | some (doc, scan) =>
    removedLinks E s indexes doc (constructDocumentLinkKey id (scan.snapshotId.getD 0))
  | none => []

theorem removeById_of_removable_eq_none {id : QByteArray} {ignoreReadOnlyValue : Bool}
    (h : removable E db tx.snapshotId id ignoreReadOnlyValue = none) :
    ∃ r lastError, r ≠ .success ∧
      tx.removeById E db id ignoreReadOnlyValue = (r, { tx with lastError := lastError }) := by
  rw [removeById]
  rw [removable] at h
  dsimp only at h ⊢
  split
  · rename_i doc hdoc
    rw [hdoc] at h
    dsimp only at h
    cases hp : isProtected E (.object doc) ignoreReadOnlyValue with
    | true => exact ⟨.errorObjectIsReadOnly, tx.lastError, by decide, rfl⟩
    | false => simp [hp] at h
  · exact ⟨_, _, by decide, rfl⟩

theorem observers_removeIndexValues (n : QString) (linkKey : QByteArray) (values : List QJsonValue) :
    (removeIndexValues E db n linkKey values tx).2.observers = tx.observers := by
  induction values generalizing tx with
  | nil => rfl
  | cons v values ih =>
    have hfirst : (tx.removeIndexValue E db n v linkKey).2.observers = tx.observers := by
      rw [removeIndexValue]
      dsimp only
      split
      · rfl
      · split <;> rfl
    rw [removeIndexValues]
    split
    · rename_i tx' heq
      rw [heq] at hfirst
      exact ih.trans hfirst
    · rename_i r tx' _ heq
      rw [heq] at hfirst
      exact hfirst

theorem observers_removeFromIndexes (doc : QJsonObject) (linkKey : QByteArray)
    (indexes : List (QString × QString)) :
    (removeFromIndexes E db doc linkKey indexes tx).2.observers = tx.observers := by
  induction indexes generalizing tx with
  | nil => rfl
  | cons index indexes ih =>
    have hfirst := @observers_removeIndexValues E db tx index.2 linkKey
      (indexedValues (getJsonValueByPath (.object doc) index.1))
    rw [removeFromIndexes]
    split
    · rename_i tx' heq
      rw [heq] at hfirst
      exact ih.trans hfirst
    · rename_i r tx' _ heq
      rw [heq] at hfirst
      exact hfirst

theorem removable_eq_some {s : Byte} {id : QByteArray} {ignoreReadOnlyValue : Bool}
    {doc : QJsonObject} {scan : ValueScan}
    (h : removable E db s id ignoreReadOnlyValue = some (doc, scan)) :
    (seekValue E.backend db s id).getD .init = scan ∧ scan.jsonValue = .object doc ∧
      isProtected E (.object doc) ignoreReadOnlyValue = false := by
  rw [removable] at h
  split at h
  · rename_i doc' hdoc
    split at h
    · cases h
    · rename_i hp
      obtain ⟨rfl, hscan⟩ := Prod.mk.inj (Option.some.inj h)
      subst hscan
      exact ⟨rfl, hdoc, by simpa using hp⟩
  · cases h

theorem removeVersion_key_ne_indexesKey {id : QByteArray} {s : Byte} {scan : ValueScan} :
    ∀ w ∈ removeVersion id s scan, w.key ≠ indexesKey :=
  fun _ hw => (removeVersion_key hw).ne_indexesKey

/-- What `removeById` does with a document that it finds. -/
theorem removeById_eq {id : QByteArray} {ignoreReadOnlyValue : Bool} {doc : QJsonObject}
    {scan : ValueScan}
    (h : removable E db tx.snapshotId id ignoreReadOnlyValue = some (doc, scan)) :
    tx.removeById E db id ignoreReadOnlyValue =
      match removeFromIndexes E db doc (constructDocumentLinkKey id (scan.snapshotId.getD 0))
        (tx.reader E db).getIndexes (tx.writes E (removeVersion id tx.snapshotId scan)) with
      | (.success, tx) => (.success, { tx with observers := tx.observers.update (.removed E doc) })
      | (r, tx) => (r, tx) := by
  obtain ⟨hscan, hdoc, hp⟩ := removable_eq_some h
  rw [removeById, hscan]
  dsimp only
  rw [hdoc]
  dsimp only
  rw [hp, getIndexes_writes removeVersion_key_ne_indexesKey]
  rfl

/-- **removeById** removes a document that it finds, with its links, unless one of its
indexed values has no entry when its turn comes. -/
theorem removeById_of_removable {id : QByteArray} {ignoreReadOnlyValue : Bool} {doc : QJsonObject}
    {scan : ValueScan}
    (h : removable E db tx.snapshotId id ignoreReadOnlyValue = some (doc, scan)) :
    Extends E db (tx.writes E (removeVersion id tx.snapshotId scan))
        (tx.removeById E db id ignoreReadOnlyValue).2 ∧
      RemovesLinks E db tx
        (removalLinks E db tx.snapshotId (tx.reader E db).getIndexes ignoreReadOnlyValue id)
        (tx.removeById E db id ignoreReadOnlyValue) ∧
      ((tx.removeById E db id ignoreReadOnlyValue).1 = .success →
        (tx.removeById E db id ignoreReadOnlyValue).2.observers =
          tx.observers.update (.removed E doc)) := by
  have hlinks : (tx.writes E (removeVersion id tx.snapshotId scan)).links E db = tx.links E db :=
    links_writes_of_isKeyOf fun w hw => ⟨id, removeVersion_key hw⟩
  have hextends := @extends_removeFromIndexes E db
    (tx.writes E (removeVersion id tx.snapshotId scan)) doc
    (constructDocumentLinkKey id (scan.snapshotId.getD 0)) (tx.reader E db).getIndexes
  have hobservers := @observers_removeFromIndexes E db
    (tx.writes E (removeVersion id tx.snapshotId scan)) doc
    (constructDocumentLinkKey id (scan.snapshotId.getD 0)) (tx.reader E db).getIndexes
  have hremoves := @removeFromIndexes_links E db
    (tx.writes E (removeVersion id tx.snapshotId scan)) doc
    (constructDocumentLinkKey id (scan.snapshotId.getD 0)) (tx.reader E db).getIndexes
  rw [removalLinks, h]
  rw [removeById_eq h]
  generalize removeFromIndexes E db doc _ _ _ = result at hextends hobservers hremoves ⊢
  cases hremoves with
  | failed hall => exact ⟨hextends, .failed (hlinks ▸ hall), fun hr => by cases hr⟩
  | removed hall hs =>
    refine ⟨⟨hextends.kvdb, hextends.snapshotId, hextends.indexes⟩, .removed ?_ hs, fun _ => ?_⟩
    · exact hlinks ▸ hall
    · exact congrArg (Observers.update · _) hobservers

end Transaction

end Qdocdb
