import Qdocdb.IndexWrites
import Qdocdb.Invariants

/-!
# Collections without snapshots

Insertions and the creation of indexes, as long as nothing else happens, give each document
two neighbouring keys, its start key and its version `0` (`FlatStore.entries_eq`). A loop over
the documents of such a store stops at the start keys in order, except those of ids that go on
behind a stored id with a byte from the colon on: they carry the prefix of that id and are
skipped with it (`FlatStore.enumerate_eq`).
-/

namespace Qdocdb

/-! ## The invariant -/

/-- An insertion or the creation of an index, in its own transaction. -/
def InsertOp : Op → Prop
  | .transact (.insert _ _ _ _) => True
  | .transact (.createIndex _ _) => True
  | _ => False

/-- What is stored under a key: nothing behind a start key, a document under a version `0`,
and anything behind the documents. -/
def FlatBinding (k : QByteArray) (b : Blob) : Prop :=
  (∃ id, k = constructDocumentStartKey id ∧ b = .empty) ∨
    (∃ id o, k = constructDocumentLinkKey id 0 ∧ b = .document o) ∨ IsMetaKey k

/-- A store in which each document has its start key and its version `0`. -/
structure FlatStore (db : Store) : Prop where
  binding : ∀ k b, db.find? k = some b → FlatBinding k b
  paired : ∀ id, db.find? (constructDocumentStartKey id) ≠ none ↔
    db.find? (constructDocumentLinkKey id 0) ≠ none

/-- The last byte of a version `0` is not the one of a start key. -/
theorem linkKey_zero_ne_startKey (id id' : QByteArray) :
    constructDocumentLinkKey id 0 ≠ constructDocumentStartKey id' := by
  intro h
  have hlast := congrArg List.getLast? h
  rw [constructDocumentLinkKey, List.getLast?_concat, constructDocumentStartKey,
    List.getLast?_concat] at hlast
  cases hlast

theorem startKey_eq_iff {id id' : QByteArray} :
    constructDocumentStartKey id = constructDocumentStartKey id' ↔ id = id' :=
  constructDocumentStartKey_injective.eq_iff

namespace FlatStore

variable {db : Store} {id : QByteArray} {b : Blob}

theorem eq_empty (h : FlatStore db) (hb : db.find? (constructDocumentStartKey id) = some b) :
    b = .empty := by
  rcases h.binding _ _ hb with ⟨id', -, rfl⟩ | ⟨id', o, hk, -⟩ | hmeta
  · rfl
  · exact absurd hk.symm (linkKey_zero_ne_startKey id' id)
  · exact absurd (isKeyOf_startKey id) hmeta.not_isKeyOf

theorem exists_document (h : FlatStore db)
    (hb : db.find? (constructDocumentLinkKey id 0) = some b) : ∃ o, b = .document o := by
  rcases h.binding _ _ hb with ⟨id', hk, -⟩ | ⟨id', o, -, rfl⟩ | hmeta
  · exact absurd hk (linkKey_zero_ne_startKey id id')
  · exact ⟨o, rfl⟩
  · exact absurd (isKeyOf_linkKey id 0) hmeta.not_isKeyOf

/-- A reader at the number `0` sees what is stored under it. -/
theorem visible_iff {o : QJsonObject} :
    visible db 0 id = some o ↔ db.find? (constructDocumentLinkKey id 0) = some (.document o) := by
  have hview : visible db 0 id =
      ((db.find? (constructDocumentLinkKey id 0)).map Blob.document?).join := by
    rw [visible, History.view, ← history_val]
    rfl
  rw [hview]
  cases db.find? (constructDocumentLinkKey id 0) with
  | none => simp
  | some b => cases b <;> simp [Blob.document?]

/-- Puts behind the documents keep the shape. -/
theorem applyLog (h : FlatStore db) {ws : List (WriteOp QByteArray Blob)}
    (hws : ∀ w ∈ ws, IsMetaKey w.key) : FlatStore (db.applyLog ws) := by
  have hdoc : ∀ id k, IsKeyOf id k → (db.applyLog ws).find? k = db.find? k := fun id k hk =>
    db.find?_applyLog_of_forall_ne fun w hw heq => (heq ▸ hws w hw).not_isKeyOf hk
  refine ⟨fun k b hb => ?_, fun id => ?_⟩
  · rcases SortedMap.find?_applyLog_eq_some hb with hb | hput
    · exact h.binding k b hb
    · exact .inr (.inr (hws _ hput))
  · rw [hdoc id _ (isKeyOf_startKey id), hdoc id _ (isKeyOf_linkKey id 0)]
    exact h.paired id

/-- A document is stored with its start key. -/
theorem putJsonValue (h : FlatStore db) (id : QByteArray) (o : QJsonObject) :
    FlatStore (db.applyLog (Transaction.putJsonValue id 0 o)) := by
  have hfind : ∀ k, (db.applyLog (Transaction.putJsonValue id 0 o)).find? k =
      if k = constructDocumentLinkKey id 0 then some (.document o)
      else if k = constructDocumentStartKey id then some .empty else db.find? k := by
    intro k
    rw [Transaction.putJsonValue, SortedMap.applyLog_cons, SortedMap.applyLog_cons,
      SortedMap.applyLog_nil]
    simp only [WriteOp.find?_apply, WriteOp.key_put, WriteOp.outcome_put]
    congr
  refine ⟨fun k b hb => ?_, fun id' => ?_⟩
  · rw [hfind] at hb
    split at hb
    · rename_i hk
      exact .inr (.inl ⟨id, o, hk, (Option.some.inj hb).symm⟩)
    · split at hb
      · rename_i hk
        exact .inl ⟨id, hk, (Option.some.inj hb).symm⟩
      · exact h.binding k b hb
  · rw [hfind, hfind, if_neg (linkKey_zero_ne_startKey id id').symm,
      if_neg (linkKey_zero_ne_startKey id' id)]
    by_cases hid : id' = id
    · subst hid
      simp
    · have hlink : constructDocumentLinkKey id' 0 ≠ constructDocumentLinkKey id 0 := fun heq =>
        hid (constructDocumentLinkKey_inj.mp heq).1
      rw [if_neg (startKey_eq_iff.not.mpr hid), if_neg hlink]
      exact h.paired id'

/-- A document is deleted with its start key. -/
theorem deleteJsonValue (h : FlatStore db) (id : QByteArray) :
    FlatStore (db.applyLog [.delete (constructDocumentLinkKey id 0),
      .delete (constructDocumentStartKey id)]) := by
  refine ⟨fun k b hb => ?_, fun id' => ?_⟩
  · rcases SortedMap.find?_applyLog_eq_some hb with hb | hput
    · exact h.binding k b hb
    · simp at hput
  · by_cases hid : id' = id
    · subst hid
      rw [SortedMap.applyLog_cons, SortedMap.applyLog_cons, SortedMap.applyLog_nil,
        WriteOp.find?_apply, WriteOp.find?_apply, WriteOp.find?_apply, WriteOp.find?_apply]
      simp
    · have hne : ∀ k, k = constructDocumentStartKey id' ∨ k = constructDocumentLinkKey id' 0 →
          ∀ w ∈ ([.delete (constructDocumentLinkKey id 0),
            .delete (constructDocumentStartKey id)] : List (WriteOp QByteArray Blob)),
          w.key ≠ k := by
        intro k hk w hw
        simp only [List.mem_cons, List.not_mem_nil, or_false] at hw
        rcases hw with rfl | rfl <;> rcases hk with rfl | rfl
        · exact linkKey_zero_ne_startKey id id'
        · exact fun heq => hid (constructDocumentLinkKey_inj.mp heq).1.symm
        · exact fun heq => hid (startKey_eq_iff.mp heq).symm
        · exact (linkKey_zero_ne_startKey id' id).symm
      rw [SortedMap.find?_applyLog_of_forall_ne _ (hne _ (.inl rfl)),
        SortedMap.find?_applyLog_of_forall_ne _ (hne _ (.inr rfl))]
      exact h.paired id'

end FlatStore

section Runs

variable {E : Env} {σ : Collection}

theorem flatStore_open : FlatStore (Collection.open E .empty).db := by
  have hfind : ∀ k b, (Collection.open E .empty).db.find? k = some b → IsMetaKey k := by
    intro k b hb
    rw [Collection.open_empty.1, SortedMap.find?_insert] at hb
    split at hb
    · rename_i hk
      exact hk ▸ isMetaKey_snapshotsKey
    · cases hb
  have hnone : ∀ id k, IsKeyOf id k → (Collection.open E .empty).db.find? k = none := by
    intro id k hk
    cases hb : (Collection.open E .empty).db.find? k with
    | none => rfl
    | some b => exact absurd hk (hfind k b hb).not_isKeyOf
  refine ⟨fun k b hb => .inr (.inr (hfind k b hb)), fun id => ?_⟩
  rw [hnone id _ (isKeyOf_startKey id), hnone id _ (isKeyOf_linkKey id 0)]

theorem FlatStore.insert (h : FlatStore σ.db) (hs : σ.snapshotId = 0) (doc : QJsonObject)
    (gen : Transaction.IdGen) (overwrite ignoreReadOnlyValue : Bool) :
    FlatStore (σ.transact E (.insert doc gen overwrite ignoreReadOnlyValue)).2.db ∧
      (σ.transact E (.insert doc gen overwrite ignoreReadOnlyValue)).2.snapshotId = 0 := by
  rcases @Collection.transact_insert_cases E σ doc gen overwrite ignoreReadOnlyValue with
    ⟨hdb, hid⟩ | ⟨id, o, isOld, iws, -, hiws, hdb, hid, -⟩
  · exact ⟨hdb ▸ h, hid.trans hs⟩
  · refine ⟨?_, hid.trans hs⟩
    rw [hdb, hs, SortedMap.applyLog_append]
    exact (h.putJsonValue id o).applyLog fun w hw => (hiws w hw).isMetaKey

theorem FlatStore.createIndex (h : FlatStore σ.db) (hs : σ.snapshotId = 0)
    (fieldName indexName : QString) :
    FlatStore (σ.transact E (.createIndex fieldName indexName)).2.db ∧
      (σ.transact E (.createIndex fieldName indexName)).2.snapshotId = 0 := by
  rcases @Collection.transact_createIndex_cases E σ fieldName indexName with
    ⟨-, hdb, hid⟩ | ⟨-, iws, hiws, -, hdb, hid, -⟩
  · exact ⟨hdb ▸ h, hid.trans hs⟩
  · refine ⟨?_, hid.trans hs⟩
    rw [hdb]
    apply h.applyLog
    intro w hw
    rcases List.mem_append.mp hw with hw | hw
    · exact (hiws w hw).isMetaKey
    · rw [List.mem_singleton.mp hw]
      exact isMetaKey_indexesKey

theorem InsertOp.opIds {op : Op} (h : InsertOp op) : OpIds Set.univ op := by
  match op, h with
  | .transact (.insert doc gen overwrite ignoreReadOnlyValue), _ =>
    exact fun id d _ => Set.mem_univ id
  | .transact (.createIndex fieldName indexName), _ => trivial

/-- **Run**: insertions and the creation of indexes keep the store flat and at the number
`0`. -/
theorem flatStore_of_reachable (h : Reachable E (fun _ op => InsertOp op) σ) :
    FlatStore σ.db ∧ σ.snapshotId = 0 := by
  induction h with
  | opened => exact ⟨flatStore_open, Collection.open_empty.2⟩
  | @served σ σ' op r _ hop happly ih =>
    obtain ⟨hflat, hs⟩ := ih
    match op, hop with
    | .transact (.insert doc gen overwrite ignoreReadOnlyValue), _ =>
      obtain rfl : (σ.transact E (.insert doc gen overwrite ignoreReadOnlyValue)).2 = σ' :=
        congrArg Prod.snd (Option.some.inj happly)
      exact hflat.insert hs doc gen overwrite ignoreReadOnlyValue
    | .transact (.createIndex fieldName indexName), _ =>
      obtain rfl : (σ.transact E (.createIndex fieldName indexName)).2 = σ' :=
        congrArg Prod.snd (Option.some.inj happly)
      exact hflat.createIndex hs fieldName indexName

end Runs

/-! ## The order of the keys -/

/-- `J` goes on behind `I` with a byte from the colon on. -/
def Hides (I J : QByteArray) : Prop := ∃ c r, J = I ++ c :: r ∧ colon ≤ c

/-- The keys of a hidden id carry the prefix of the other one and come behind its start key. -/
theorem hides_iff {I J : QByteArray} :
    Hides I J ↔ constructDocumentStartKey I < constructDocumentStartKey J ∧
      documentPrefix I <+: constructDocumentStartKey J := by
  constructor
  · rintro ⟨c, r, rfl, hc⟩
    have hkey : constructDocumentStartKey (I ++ c :: r) =
        documentPrefix I ++ c :: (r ++ [colon]) := by
      simp [constructDocumentStartKey, documentPrefix]
    rw [hkey]
    refine ⟨?_, List.prefix_append _ _⟩
    rw [constructDocumentStartKey, List.append_lt_append_iff]
    rcases hc.lt_or_eq with hlt | rfl
    · exact .rel hlt
    · apply List.cons_lt_cons_self.mpr
      cases r with
      | nil => exact List.nil_lt_cons _ _
      | cons c' r => exact List.nil_lt_cons _ _
  · rintro ⟨hlt, t, ht⟩
    rw [constructDocumentStartKey, documentPrefix, documentPrefix, List.append_assoc,
      List.append_assoc, List.append_cancel_left_eq] at ht
    have hlt' : I ++ [colon] < J ++ [colon] := by
      simpa [constructDocumentStartKey, documentPrefix, List.append_lt_append_iff] using hlt
    rw [← ht] at hlt'
    cases t with
    | nil =>
      rw [List.append_nil] at hlt'
      exact absurd (List.lt_append_cons I colon []) hlt'.not_gt
    | cons c r =>
      rw [List.append_lt_append_iff] at hlt'
      rcases List.eq_nil_or_concat r with rfl | ⟨r, d, rfl⟩
      · have hcolon : c = colon := (List.append_inj' ht rfl).2 |> List.singleton_inj.mp
        exact absurd hlt' (hcolon ▸ lt_irrefl _)
      · rw [List.concat_eq_append, ← List.cons_append, ← List.append_assoc] at ht
        obtain ⟨rfl, -⟩ := List.append_inj' ht rfl
        exact ⟨c, r, rfl, List.head_le_of_lt hlt'⟩

instance : DecidableRel Hides := fun _ _ => decidable_of_iff _ hides_iff.symm

theorem Hides.trans {I J K : QByteArray} (h : Hides I J) (h' : Hides J K) : Hides I K := by
  obtain ⟨c, r, rfl, hc⟩ := h
  obtain ⟨c', r', rfl, -⟩ := h'
  exact ⟨c, r ++ c' :: r', by simp, hc⟩

/-- Nothing lies between a word and the word with the least byte behind it. -/
theorem le_of_lt_append_zero {k p : QByteArray} (h : k < p ++ [0]) : k ≤ p := by
  by_contra hlt
  have hpk : p <+: k :=
    List.prefix_rfl.of_le_of_le (List.prefix_append p [0]) (not_le.mp hlt).le h.le
  obtain ⟨t, rfl⟩ := hpk
  rw [List.append_lt_append_iff] at h
  cases t with
  | nil => exact hlt (by simp)
  | cons c t =>
    rcases lt_or_eq_of_le (List.head_le_of_lt h) with hc | rfl
    · exact absurd hc (Fin.not_lt_zero c)
    · exact absurd (List.cons_lt_cons_self.mp h) (List.not_lt_nil t)

theorem linkKey_zero_lt_startKey {I J : QByteArray}
    (h : constructDocumentStartKey I < constructDocumentStartKey J) :
    constructDocumentLinkKey I 0 < constructDocumentStartKey J := by
  rcases lt_trichotomy (constructDocumentLinkKey I 0) (constructDocumentStartKey J) with
    hlt | heq | hlt
  · exact hlt
  · exact absurd heq (linkKey_zero_ne_startKey I J)
  · exact absurd (le_of_lt_append_zero hlt) h.not_ge

theorem startKey_lt_of_linkKey_zero_lt {I J : QByteArray}
    (h : constructDocumentLinkKey I 0 < constructDocumentLinkKey J 0) :
    constructDocumentStartKey I < constructDocumentStartKey J :=
  (startKey_lt_linkKey I 0).trans_le (le_of_lt_append_zero h)

/-! ## The documents in key order -/

/-- The id in a version key. -/
def idOfLinkKey (k : QByteArray) : QByteArray := (k.drop 2).dropLast.dropLast

@[simp] theorem idOfLinkKey_linkKey (id : QByteArray) (s : Byte) :
    idOfLinkKey (constructDocumentLinkKey id s) = id := by
  simp [idOfLinkKey, constructDocumentLinkKey, constructDocumentStartKey, documentPrefix]

/-- The documents of a store with the ids of their keys, in key order. -/
def storedDocuments (db : Store) : List (QByteArray × QJsonObject) :=
  db.entries.filterMap fun e => e.2.document?.map fun o => (idOfLinkKey e.1, o)

/-- The entries of a document. -/
def entriesOf (p : QByteArray × QJsonObject) : List (QByteArray × Blob) :=
  [(constructDocumentStartKey p.1, .empty), (constructDocumentLinkKey p.1 0, .document p.2)]

/-- The entries behind the documents. -/
def metaEntries (db : Store) : List (QByteArray × Blob) :=
  db.entries.filter fun e => e.1.take 2 ≠ bytes "d:"

namespace FlatStore

variable {db : Store} (h : FlatStore db) (hgood : GoodStore Set.univ db)
include h hgood

/-- Documents are stored under versions `0`. -/
theorem exists_linkKey {k : QByteArray} {o : QJsonObject}
    (hk : db.find? k = some (.document o)) : ∃ id, k = constructDocumentLinkKey id 0 := by
  rcases h.binding _ _ hk with ⟨id, -, hb⟩ | ⟨id, o', hk, -⟩ | hmeta
  · cases hb
  · exact ⟨id, hk⟩
  · obtain ⟨sid, s, -, rfl⟩ := (hgood _ _ hk).document o rfl
    exact absurd (isKeyOf_linkKey _ s) hmeta.not_isKeyOf

theorem mem_storedDocuments_iff {id : QByteArray} {o : QJsonObject} :
    (id, o) ∈ storedDocuments db ↔
      db.find? (constructDocumentLinkKey id 0) = some (.document o) := by
  constructor
  · intro hmem
    obtain ⟨⟨k, b⟩, he, heq⟩ := List.mem_filterMap.mp hmem
    obtain ⟨o', ho', hp⟩ := Option.map_eq_some_iff.mp heq
    cases b <;> cases ho'
    have hk := SortedMap.find?_eq_some_iff.mpr he
    obtain ⟨id', rfl⟩ := h.exists_linkKey hgood hk
    simp only [idOfLinkKey_linkKey, Prod.mk.injEq] at hp
    obtain ⟨rfl, rfl⟩ := hp
    exact hk
  · intro hk
    exact List.mem_filterMap.mpr ⟨_, SortedMap.find?_eq_some_iff.mp hk, by simp [Blob.document?]⟩

/-- The start keys increase. -/
theorem pairwise_storedDocuments : (storedDocuments db).Pairwise fun p q =>
    constructDocumentStartKey p.1 < constructDocumentStartKey q.1 := by
  rw [storedDocuments, List.pairwise_filterMap]
  refine db.sorted.imp_of_mem fun {e e'} he he' hlt p hp q hq => ?_
  have hkey : ∀ (e : QByteArray × Blob) (p : QByteArray × QJsonObject), e ∈ db.entries →
      e.2.document?.map (fun o => (idOfLinkKey e.1, o)) = some p →
      e.1 = constructDocumentLinkKey p.1 0 := by
    rintro ⟨k, b⟩ p he hp
    obtain ⟨o, ho, rfl⟩ := Option.map_eq_some_iff.mp hp
    cases b <;> cases ho
    obtain ⟨id, rfl⟩ := h.exists_linkKey hgood (SortedMap.find?_eq_some_iff.mpr he)
    simp
  rw [hkey e p he hp, hkey e' q he' hq] at hlt
  exact startKey_lt_of_linkKey_zero_lt hlt

omit h hgood in
theorem isKeyOf_of_mem_entriesOf {p : QByteArray × QJsonObject} {e : QByteArray × Blob}
    (he : e ∈ entriesOf p) : IsKeyOf p.1 e.1 := by
  rcases List.mem_cons.mp he with rfl | he
  · exact isKeyOf_startKey _
  · rw [List.mem_singleton.mp he]
    exact isKeyOf_linkKey _ 0

omit hgood in
theorem isMetaKey_of_mem_metaEntries {e : QByteArray × Blob} (he : e ∈ metaEntries db) :
    IsMetaKey e.1 := by
  obtain ⟨he, htake⟩ := List.mem_filter.mp he
  rcases h.binding _ _ (SortedMap.find?_eq_some_iff.mpr he) with ⟨id, hk, -⟩ | ⟨id, o, hk, -⟩ | hmeta
  · rw [hk, (isKeyOf_startKey id).take_two] at htake
    simp at htake
  · rw [hk, (isKeyOf_linkKey id 0).take_two] at htake
    simp at htake
  · exact hmeta

/-- **Normal form**: two entries for each document, and what is behind the documents. -/
theorem entries_eq : db.entries = (storedDocuments db).flatMap entriesOf ++ metaEntries db := by
  have hsorted : ((storedDocuments db).flatMap entriesOf ++ metaEntries db).Pairwise
      fun a b => a.1 < b.1 := by
    rw [List.pairwise_append, List.pairwise_flatMap]
    refine ⟨⟨fun p _ => ?_, ?_⟩, db.sorted.filter _, fun e he e' he' => ?_⟩
    · simpa [entriesOf] using startKey_lt_linkKey p.1 0
    · refine (h.pairwise_storedDocuments hgood).imp fun {p q} hlt e he e' he' => ?_
      have hle : e.1 ≤ constructDocumentLinkKey p.1 0 := by
        rcases List.mem_cons.mp he with rfl | he
        · exact (startKey_lt_linkKey p.1 0).le
        · rw [List.mem_singleton.mp he]
      exact (hle.trans_lt (linkKey_zero_lt_startKey hlt)).trans_le
        (isKeyOf_of_mem_entriesOf he').startKey_le
    · obtain ⟨p, -, he⟩ := List.mem_flatMap.mp he
      exact (isKeyOf_of_mem_entriesOf he).lt_of_isMetaKey (h.isMetaKey_of_mem_metaEntries he')
  have hirr : Std.Irrefl fun a b : QByteArray × Blob => a.1 < b.1 := ⟨fun a => lt_irrefl a.1⟩
  refine db.sorted.eq_of_mem_iff hsorted fun e => ?_
  rw [List.mem_append, List.mem_flatMap]
  constructor
  · intro he
    have hk := SortedMap.find?_eq_some_iff.mpr he
    rcases h.binding _ _ hk with ⟨id, hkey, hb⟩ | ⟨id, o, hkey, hb⟩ | hmeta
    · have hstart : db.find? (constructDocumentStartKey id) ≠ none := by simp [← hkey, hk]
      obtain ⟨b, hlink⟩ := Option.ne_none_iff_exists'.mp ((h.paired id).mp hstart)
      obtain ⟨o, rfl⟩ := h.exists_document hlink
      refine .inl ⟨(id, o), (h.mem_storedDocuments_iff hgood).mpr hlink, ?_⟩
      exact List.mem_cons.mpr (.inl (Prod.ext hkey hb))
    · refine .inl ⟨(id, o), (h.mem_storedDocuments_iff hgood).mpr (hkey ▸ hb ▸ hk), ?_⟩
      exact List.mem_cons.mpr (.inr (List.mem_singleton.mpr (Prod.ext hkey hb)))
    · exact .inr (List.mem_filter.mpr ⟨he, by simpa using hmeta.take_two_ne⟩)
  · rintro (⟨⟨id, o⟩, hmem, he⟩ | he)
    · have hlink := (h.mem_storedDocuments_iff hgood).mp hmem
      rcases List.mem_cons.mp he with rfl | he
      · have hstart := (h.paired id).mpr (by simp [hlink])
        obtain ⟨b, hb⟩ := Option.ne_none_iff_exists'.mp hstart
        exact SortedMap.find?_eq_some_iff.mp (h.eq_empty hb ▸ hb)
      · rw [List.mem_singleton.mp he]
        exact SortedMap.find?_eq_some_iff.mp hlink
    · exact (List.mem_filter.mp he).1

end FlatStore

/-! ## The documents a loop meets -/

/-- The documents that no other one hides. -/
def unhidden (docs : List (QByteArray × QJsonObject)) : List (QByteArray × QJsonObject) :=
  docs.filter fun q => ∀ p ∈ docs, ¬ Hides p.1 q.1

/-- The first document is not hidden, and what it hides hides nothing else. -/
theorem unhidden_cons {p : QByteArray × QJsonObject} {docs : List (QByteArray × QJsonObject)}
    (hs : (p :: docs).Pairwise fun p q =>
      constructDocumentStartKey p.1 < constructDocumentStartKey q.1) :
    unhidden (p :: docs) = p :: unhidden (docs.filter fun q => ¬ Hides p.1 q.1) := by
  obtain ⟨hp, -⟩ := List.pairwise_cons.mp hs
  have hself : ¬ Hides p.1 p.1 := fun h => lt_irrefl _ (hides_iff.mp h).1
  have hfirst : ∀ r ∈ p :: docs, ¬ Hides r.1 p.1 := by
    intro r hr h
    rcases List.mem_cons.mp hr with rfl | hr
    · exact hself h
    · exact lt_asymm (hp r hr) (hides_iff.mp h).1
  rw [unhidden, List.filter_cons_of_pos (by simpa using hfirst), unhidden, List.filter_filter]
  refine congrArg (p :: ·) (List.filter_congr fun q hq => ?_)
  rw [Bool.eq_iff_iff]
  simp only [decide_eq_true_eq, Bool.and_eq_true, List.mem_filter, List.forall_mem_cons, and_imp]
  constructor
  · rintro ⟨hpq, hrest⟩
    exact ⟨fun r hr _ => hrest r hr, hpq⟩
  · rintro ⟨hrest, hpq⟩
    refine ⟨hpq, fun r hr hrq => ?_⟩
    by_cases hpr : Hides p.1 r.1
    · exact hpq (hpr.trans hrq)
    · exact hrest r hr hpr hrq

/-- `next` passes the documents that the current one hides. -/
theorem dropWhile_entriesOf {p : QByteArray × QJsonObject} {docs : List (QByteArray × QJsonObject)}
    (hs : (p :: docs).Pairwise fun p q =>
      constructDocumentStartKey p.1 < constructDocumentStartKey q.1)
    {metas : List (QByteArray × Blob)} (hmetas : ∀ e ∈ metas, IsMetaKey e.1) :
    (docs.flatMap entriesOf ++ metas).dropWhile (fun e => documentPrefix p.1 <+: e.1) =
      (docs.filter fun q => ¬ Hides p.1 q.1).flatMap entriesOf ++ metas := by
  induction docs with
  | nil =>
    have hnot : ∀ e ∈ metas, ¬ documentPrefix p.1 <+: e.1 := fun e he =>
      (hmetas e he).not_documentPrefix
    cases metas with
    | nil => rfl
    | cons e metas =>
      exact List.dropWhile_cons_of_neg (by simpa using hnot e List.mem_cons_self)
  | cons q docs ih =>
    obtain ⟨hp, hq, hs'⟩ := by simpa only [List.pairwise_cons] using hs
    have hlt := hp q List.mem_cons_self
    by_cases hpre : documentPrefix p.1 <+: constructDocumentStartKey q.1
    · have hhides : Hides p.1 q.1 := hides_iff.mpr ⟨hlt, hpre⟩
      have hlink : documentPrefix p.1 <+: constructDocumentLinkKey q.1 0 :=
        hpre.trans (List.prefix_append _ _)
      rw [List.filter_cons_of_neg (by simpa using hhides), List.flatMap_cons, entriesOf,
        List.append_assoc, List.cons_append, List.cons_append, List.nil_append,
        List.dropWhile_cons_of_pos (by simpa using hpre),
        List.dropWhile_cons_of_pos (by simpa using hlink)]
      exact ih (List.pairwise_cons.mpr ⟨fun r hr => hp r (List.mem_cons_of_mem _ hr), hs'⟩)
    · -- the keys with the prefix come first, so nothing behind is hidden either
      have hnone : ∀ r ∈ q :: docs, ¬ Hides p.1 r.1 := by
        intro r hr hr'
        obtain ⟨-, hrpre⟩ := hides_iff.mp hr'
        rcases List.mem_cons.mp hr with rfl | hr
        · exact hpre hrpre
        · exact hpre ((documentPrefix_prefix_startKey p.1).of_le_of_le hrpre hlt.le (hq r hr).le)
      rw [List.filter_eq_self.mpr fun r hr => by simpa using hnone r hr, List.flatMap_cons,
        entriesOf, List.append_assoc, List.cons_append,
        List.dropWhile_cons_of_neg (by simpa using hpre)]

section Stops

variable {db : Store} {B : Backend}

/-- The iterator in front of a document stands on it and reads it. -/
theorem value_entriesOf {it : Iterator} (h : it.Positioned db) (hs : it.snapshotId = 0)
    {p : QByteArray × QJsonObject} {l : List (QByteArray × Blob)}
    (hr : it.rest = entriesOf p ++ l) :
    it.isValid = true ∧ it.keyPrefix = documentPrefix p.1 ∧
      (it.value B db).1 = ⟨.document p.2, some 0, true, true, true⟩ := by
  have hrest : it.rest = (constructDocumentStartKey p.1, .empty) ::
      (constructDocumentLinkKey p.1 0, .document p.2) :: l := hr
  have hkey : it.keyPrefix = documentPrefix p.1 := by
    rw [h.keyPrefix_eq hrest, if_pos (isKeyOf_startKey p.1).take_two, constructDocumentStartKey,
      List.dropLast_concat]
  refine ⟨by simp [Iterator.isValid, hrest, hkey, documentPrefix], hkey, ?_⟩
  rw [Iterator.value, h.kvSeek_beginKey (by simp [hrest]), hrest, hkey, hs, scanVersions,
    if_pos ⟨documentPrefix_prefix_startKey p.1, rfl⟩, if_neg (by simp), scanVersions,
    if_pos ⟨documentPrefix_prefix_linkKey p.1 0, rfl⟩, if_pos (by simp), lastByte_linkKey,
    ValueScan.visit_self]
  cases l with
  | nil => rfl
  | cons e l => rw [scanVersions, if_neg (by simp)]; rfl

/-- **The loop** from a document on meets the documents that are not hidden. By induction on
the fuel. -/
theorem map_stopsFrom {metas : List (QByteArray × Blob)} (hmetas : ∀ e ∈ metas, IsMetaKey e.1)
    (fuel : ℕ) {it : Iterator} (h : it.Positioned db) (hs : it.snapshotId = 0)
    {docs : List (QByteArray × QJsonObject)} (hrest : it.rest = docs.flatMap entriesOf ++ metas)
    (hsorted : docs.Pairwise fun p q =>
      constructDocumentStartKey p.1 < constructDocumentStartKey q.1)
    (hfuel : it.rest.length < fuel) :
    (stopsFrom B db fuel it).map (fun it => ((it.value B db).1.jsonValue, it.key)) =
      (unhidden docs).map fun p => (.object p.2, p.1) := by
  induction fuel generalizing it docs with
  | zero => omega
  | succ fuel ih =>
    cases docs with
    | nil =>
      have hvalid : it.isValid = false := by
        rw [List.flatMap_nil, List.nil_append] at hrest
        cases metas with
        | nil => simp [Iterator.isValid, hrest]
        | cons e metas => exact h.not_isValid_of_isMetaKey hrest (hmetas e List.mem_cons_self)
      rw [stopsFrom_of_not_isValid hvalid]
      rfl
    | cons p docs =>
      rw [List.flatMap_cons, List.append_assoc] at hrest
      obtain ⟨hvalid, hkey, hvalue⟩ := @value_entriesOf db B it h hs p _ hrest
      have hnext : it.next.rest =
          (docs.filter fun q => ¬ Hides p.1 q.1).flatMap entriesOf ++ metas := by
        rw [Iterator.next, Iterator.rest_setupPrefix, hrest, hkey, entriesOf, List.cons_append,
          List.cons_append, List.nil_append,
          List.dropWhile_cons_of_pos (by simpa using documentPrefix_prefix_startKey p.1),
          List.dropWhile_cons_of_pos (by simpa using documentPrefix_prefix_linkKey p.1 0)]
        exact dropWhile_entriesOf hsorted hmetas
      have hlt := h.length_next_lt hvalid
      rw [stopsFrom_succ h hvalid, List.map_cons, unhidden_cons hsorted, List.map_cons,
        ih (Iterator.positioned_next h) (by rw [Iterator.snapshotId_next, hs]) hnext
          ((List.pairwise_cons.mp hsorted).2.filter _) (by omega), hvalue, Iterator.key, hkey]
      rfl

end Stops

/-- **Enumeration** of a flat store: the documents that are not hidden, in key order. -/
theorem FlatStore.enumerate_eq {db : Store} (h : FlatStore db) (hgood : GoodStore Set.univ db)
    (B : Backend) :
    enumerate B db 0 = (unhidden (storedDocuments db)).map fun p => (.object p.2, p.1) := by
  refine map_stopsFrom (fun e he => h.isMetaKey_of_mem_metaEntries he) _
    (Iterator.positioned_seekToFirst db _) ?_ ?_ (h.pairwise_storedDocuments hgood) ?_
  · simp [Iterator.seekToFirst, newIterator]
  · rw [Iterator.seekToFirst, Iterator.rest_setupPrefix]
    exact h.entries_eq hgood
  · rw [Iterator.seekToFirst, Iterator.rest_setupPrefix]
    exact Nat.lt_succ_self _

/-! ## Looking up an id -/

section Seeks

variable {db : Store} {B : Backend} {id : QByteArray}

/-- A seek that ends in front of a document reads it. -/
theorem seekValue_of_kvSeek {p : QByteArray × QJsonObject} {l : List (QByteArray × Blob)}
    (hseek : kvSeek B db (constructDocumentStartKey id) = entriesOf p ++ l) :
    seekValue B db 0 id = some ⟨.document p.2, some 0, true, true, true⟩ := by
  have hrest : ((newIterator db 0).seek B db id).rest = entriesOf p ++ l := by
    rw [rest_seek, hseek]
  obtain ⟨hvalid, -, hvalue⟩ := value_entriesOf (positioned_seek (newIterator db 0))
    (snapshotId_seek _) hrest
  rw [seekValue_eq_some hvalid, hvalue]

/-- A seek that ends behind the documents finds nothing. -/
theorem seekValue_of_kvSeek_metas
    (hseek : ∀ e ∈ kvSeek B db (constructDocumentStartKey id), IsMetaKey e.1) :
    seekValue B db 0 id = none := by
  apply seekValue_eq_none
  have hrest : ((newIterator db 0).seek B db id).rest =
      kvSeek B db (constructDocumentStartKey id) := rest_seek _
  cases hl : kvSeek B db (constructDocumentStartKey id) with
  | nil => rw [Iterator.isValid, hrest, hl]; rfl
  | cons e l =>
    apply Iterator.Positioned.not_isValid_of_isMetaKey (positioned_seek _) (hrest.trans hl)
    exact hseek e (hl ▸ List.mem_cons_self)

/-- The seek of an id may end at the start key of `J`. -/
def Reaches (B : Backend) (id J : QByteArray) : Prop :=
  match B with
  | .map => J = id
  | .levelDB => constructDocumentStartKey id ≤ constructDocumentStartKey J

instance (B : Backend) (id J : QByteArray) : Decidable (Reaches B id J) :=
  match B with
  | .map => inferInstanceAs (Decidable (J = id))
  | .levelDB =>
    inferInstanceAs (Decidable (constructDocumentStartKey id ≤ constructDocumentStartKey J))

theorem Reaches.refl (B : Backend) (id : QByteArray) : Reaches B id id := by
  cases B with
  | map => rfl
  | levelDB => exact le_refl (constructDocumentStartKey id)

namespace FlatStore

variable (h : FlatStore db) (hgood : GoodStore Set.univ db)
include h hgood

/-- Looking up a stored id of a flat store finds its only version. -/
theorem seekValue_eq {o : QJsonObject}
    (ho : db.find? (constructDocumentLinkKey id 0) = some (.document o)) (B : Backend) :
    seekValue B db 0 id = some ⟨.document o, some 0, true, true, true⟩ := by
  obtain ⟨l, r, hlr⟩ := List.append_of_mem ((h.mem_storedDocuments_iff hgood).mpr ho)
  have hentries : db.entries = l.flatMap entriesOf ++
      (entriesOf (id, o) ++ (r.flatMap entriesOf ++ metaEntries db)) := by
    rw [h.entries_eq hgood, hlr, List.flatMap_append, List.flatMap_cons, List.append_assoc,
      List.append_assoc]
  exact seekValue_of_kvSeek (kvSeek_of_suffix ⟨_, hentries.symm⟩ B)

/-- LevelDB's seek goes on to the first document whose start key is not in front. -/
theorem kvSeek_levelDB (id : QByteArray) :
    kvSeek .levelDB db (constructDocumentStartKey id) =
      ((storedDocuments db).filter fun p =>
        constructDocumentStartKey id ≤ constructDocumentStartKey p.1).flatMap entriesOf ++
        metaEntries db := by
  rw [kvSeek, SortedMap.seekGE_eq_filter, h.entries_eq hgood, List.filter_append]
  congr 1
  · -- both entries of a document are on the same side
    generalize storedDocuments db = docs
    induction docs with
    | nil => rfl
    | cons p docs ih =>
      rw [List.flatMap_cons, List.filter_append, ih]
      by_cases hle : constructDocumentStartKey id ≤ constructDocumentStartKey p.1
      · rw [List.filter_cons_of_pos (by simpa using hle), List.flatMap_cons,
          List.filter_eq_self.mpr]
        intro e he
        simpa using hle.trans (isKeyOf_of_mem_entriesOf he).startKey_le
      · have hlt := lt_of_not_ge hle
        rw [List.filter_cons_of_neg (by simpa using hle), List.filter_eq_nil_iff.mpr,
          List.nil_append]
        intro e he
        rcases List.mem_cons.mp he with rfl | he
        · simpa using hlt
        · rw [List.mem_singleton.mp he]
          simpa using linkKey_zero_lt_startKey hlt
  · rw [List.filter_eq_self]
    intro e he
    have hlt := (isKeyOf_startKey id).lt_of_isMetaKey (h.isMetaKey_of_mem_metaEntries he)
    simpa using hlt.le

/-- Looking up an id that is not stored: nothing on the map; with LevelDB the next document, if
there is one. -/
theorem seekValue_of_absent (B : Backend)
    (hid : db.find? (constructDocumentLinkKey id 0) = none) :
    seekValue B db 0 id = match B with
      | .map => none
      | .levelDB => ((storedDocuments db).find? fun p =>
          constructDocumentStartKey id ≤ constructDocumentStartKey p.1).map fun p =>
            ⟨.document p.2, some 0, true, true, true⟩ := by
  cases B with
  | map =>
    apply seekValue_map_of_startKey_none
    by_contra hstart
    exact (h.paired id).mp hstart hid
  | levelDB =>
    have hseek := h.kvSeek_levelDB hgood id
    rw [← List.head?_filter]
    cases hl : (storedDocuments db).filter fun p =>
        constructDocumentStartKey id ≤ constructDocumentStartKey p.1 with
    | nil =>
      rw [hl, List.flatMap_nil, List.nil_append] at hseek
      apply seekValue_of_kvSeek_metas
      rw [hseek]
      exact fun e he => h.isMetaKey_of_mem_metaEntries he
    | cons p l =>
      rw [hl, List.flatMap_cons, List.append_assoc] at hseek
      exact seekValue_of_kvSeek hseek

/-- **Looking up** finds nothing when the backend's seek does not reach a document: the map
reaches its own id, LevelDB each id whose start key is not in front. -/
theorem getJsonValue_eq_undefined_iff (B : Backend) (id : QByteArray) :
    getJsonValue B db 0 id = .undefined ↔ ∀ p ∈ storedDocuments db, ¬ Reaches B id p.1 := by
  rw [getJsonValue]
  cases hlink : db.find? (constructDocumentLinkKey id 0) with
  | some b =>
    obtain ⟨o, rfl⟩ := h.exists_document hlink
    rw [h.seekValue_eq hgood hlink]
    refine ⟨fun hv => QJsonValue.noConfusion hv, fun hp => ?_⟩
    refine absurd (Reaches.refl B id) (hp (id, o) ?_)
    exact (h.mem_storedDocuments_iff hgood).mpr hlink
  | none =>
    rw [h.seekValue_of_absent hgood B hlink]
    cases B with
    | map =>
      refine ⟨fun _ => ?_, fun _ => rfl⟩
      rintro ⟨id', o⟩ hp rfl
      rw [(h.mem_storedDocuments_iff hgood).mp hp] at hlink
      cases hlink
    | levelDB =>
      cases hfind : (storedDocuments db).find? fun p =>
          decide (constructDocumentStartKey id ≤ constructDocumentStartKey p.1) with
      | none =>
        refine ⟨fun _ p hp => ?_, fun _ => rfl⟩
        simpa [Reaches] using List.find?_eq_none.mp hfind p hp
      | some p =>
        refine ⟨fun hv => QJsonValue.noConfusion hv, fun hp => ?_⟩
        exact absurd (by simpa [Reaches] using List.find?_some hfind)
          (hp p (List.mem_of_find?_eq_some hfind))

end FlatStore

end Seeks

end Qdocdb
