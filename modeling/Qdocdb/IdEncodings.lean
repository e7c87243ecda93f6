import Qdocdb.Client
import Qdocdb.FlatStore
import Qdocdb.Shortcut
import Qdocdb.Undo

/-!
# The encodings of an id

A document is stored under the Latin-1 bytes of its `_id`; `find` and `removeId` look for the
UTF-8 bytes. In an otherwise empty collection a document is found and removed by its `_id` when
the two encodings agree on it, and two documents are kept apart when, besides, the lookup of the
second one does not reach the first (`idEncodings_iff`).
-/

namespace Qdocdb

/-- `QDocdbConnector::removeId` without a transaction of its own, as the server serves it. -/
def removeIdOp (docId : QString) : TxOp := .removeById (toLocal8Bit docId) false

variable {E : Env} {σ : Collection}

/-! ## Finding an `_id` -/

/-- `find({"_id": s})` returns exactly the document. -/
def FindsExactly (E : Env) (σ : Collection) (s : QString) (o : QJsonObject) : Prop :=
  (find E (σ.reader E) [(qs "_id", .string s)] []).1 = .success ∧
    (find E (σ.reader E) [(qs "_id", .string s)] []).2.map Prod.fst = [.object o]

theorem wellFormed_id (s : QString) : WellFormed (.object [(qs "_id", .string s)]) := by
  apply WellFormed.query
  intro f hf
  obtain rfl := List.mem_singleton.mp hf
  apply WellFormedField.literal
  · show (qs "_id").head? ≠ some 36
    decide
  · rfl

theorem getJsonValueByPath_id (o : QJsonObject) :
    getJsonValueByPath (.object o) (qs "_id") = QJsonObject.value o (qs "_id") := rfl

/-- A document satisfies the query for its own `_id`. -/
theorem sat_id {s : QString} {o : QJsonObject} (ho : QJsonObject.value o (qs "_id") = .string s) :
    Sat (.object [(qs "_id", .string s)]) (.object o) := by
  rw [sat_object, List.forall_mem_singleton]
  have hkey : (qs "_id").head? ≠ some 36 := by decide
  apply (satField_path hkey).mpr
  rw [getJsonValueByPath_id, ho, if_neg (by simp [QJsonValue.isObject])]
  exact decide_eq_true rfl

/-- **find** by an `_id` reads the one version key of its UTF-8 bytes. -/
theorem find_id (s : QString) :
    find E (σ.reader E) [(qs "_id", .string s)] [] =
      (.success, [((σ.reader E).getJsonValueByLinkKey
          (constructDocumentLinkKey (toLocal8Bit s) σ.snapshotId),
        constructDocumentLinkKey (toLocal8Bit s) σ.snapshotId)].filter
          (selects E [(qs "_id", .string s)])) := by
  have hindexed : Indexed (σ.reader E).getIndexes [(qs "_id", .string s)] :=
    ⟨_, List.mem_cons_self, .inl rfl⟩
  have hthere : EntriesThere E (σ.reader E) (σ.reader E).getIndexes [(qs "_id", .string s)] := by
    intro f hf hid
    rw [List.mem_singleton.mp hf] at hid
    exact absurd rfl hid
  rw [find_eq_collectValid hindexed hthere, collectValid_eq (wellFormed_id s)]
  rfl

/-- A document is found exactly when it is stored under the UTF-8 bytes of its `_id`. -/
theorem findsExactly_iff {s : QString} {o : QJsonObject}
    (ho : QJsonObject.value o (qs "_id") = .string s) :
    FindsExactly E σ s o ↔
      σ.db.find? (constructDocumentLinkKey (toLocal8Bit s) σ.snapshotId) = some (.document o) := by
  rw [FindsExactly, find_id]
  constructor
  · rintro ⟨-, hdocs⟩
    by_cases hselects : selects E [(qs "_id", .string s)]
        ((σ.reader E).getJsonValueByLinkKey
          (constructDocumentLinkKey (toLocal8Bit s) σ.snapshotId),
          constructDocumentLinkKey (toLocal8Bit s) σ.snapshotId) = true
    · rw [List.filter_cons_of_pos hselects] at hdocs
      apply @find?_of_getJsonValueByLinkKey E σ σ.snapshotId
      exact (List.cons.inj hdocs).1
    · rw [List.filter_cons_of_neg hselects] at hdocs
      cases hdocs
  · intro hstored
    have hvalue : (σ.reader E).getJsonValueByLinkKey
        (constructDocumentLinkKey (toLocal8Bit s) σ.snapshotId) = .object o := by
      simp only [Reader.getJsonValueByLinkKey, Collection.reader, kvGetValue, hstored]
      rfl
    rw [hvalue, List.filter_cons_of_pos]
    · exact ⟨rfl, rfl⟩
    · exact (selects_iff (wellFormed_id s)).mpr ⟨⟨o, rfl⟩, sat_id ho⟩

/-! ## A collection with given documents -/

/-- The collection is flat and holds exactly the documents of the list. -/
structure HoldsDocuments (docs : List (QByteArray × QJsonObject)) (σ : Collection) : Prop where
  flat : FlatStore σ.db
  good : GoodStore Set.univ σ.db
  snapshotId : σ.snapshotId = 0
  document : ∀ id o, σ.db.find? (constructDocumentLinkKey id 0) = some (.document o) ↔
    (id, o) ∈ docs

namespace HoldsDocuments

variable {docs : List (QByteArray × QJsonObject)} {id : QByteArray} {o : QJsonObject}

theorem opened : HoldsDocuments [] (Collection.open E .empty) where
  flat := flatStore_open
  good := goodStore_open
  snapshotId := Collection.open_empty.2
  document := by
    intro id o
    rw [Collection.open_empty.1, SortedMap.find?_insert, if_neg]
    · simp
    · intro hk
      exact (hk ▸ isMetaKey_snapshotsKey).not_isKeyOf (isKeyOf_linkKey id 0)

/-- The lookup of an id reaches none of the documents when it finds nothing. -/
theorem getJsonValue_eq_undefined_iff (h : HoldsDocuments docs σ) (id : QByteArray) :
    getJsonValue E.backend σ.db σ.snapshotId id = .undefined ↔
      ∀ p ∈ docs, ¬ Reaches E.backend id p.1 := by
  rw [h.snapshotId, h.flat.getJsonValue_eq_undefined_iff h.good]
  refine forall_congr' fun p => ?_
  rw [h.flat.mem_storedDocuments_iff h.good, h.document]

theorem seekValue_eq (h : HoldsDocuments docs σ) (hid : (id, o) ∈ docs) :
    seekValue E.backend σ.db σ.snapshotId id = some ⟨.document o, some 0, true, true, true⟩ := by
  rw [h.snapshotId]
  exact h.flat.seekValue_eq h.good ((h.document id o).mpr hid) E.backend

section Insert

variable {s : QString} {doc : QJsonObject} (hs : QJsonObject.value doc (qs "_id") = .string s)
  {gen : Transaction.IdGen} {overwrite ignoreReadOnlyValue : Bool}
include hs

omit E σ in
theorem documentId_eq : Transaction.documentId doc gen = some (toLatin1 s, doc) := by
  have hcontains : QJsonObject.contains doc (qs "_id") = true := by
    apply QJsonObject.contains_of_value_ne
    rw [hs]
    exact QJsonValue.noConfusion
  rw [Transaction.documentId, if_pos hcontains, hs]

theorem value_withUUID : QJsonObject.value (Transaction.withUUID E gen doc) (qs "_id") =
    .string s := by
  rw [Transaction.value_id_withUUID (hs ▸ QJsonValue.noConfusion), hs]

variable (h : HoldsDocuments docs σ)
include h

/-- A document whose id reaches none of the others is taken. -/
theorem accepted_eq (hreach : ∀ p ∈ docs, ¬ Reaches E.backend (toLatin1 s) p.1) :
    Transaction.accepted E σ.db σ.snapshotId doc gen overwrite ignoreReadOnlyValue =
      some (toLatin1 s, Transaction.withUUID E gen doc, false) := by
  rw [Transaction.accepted, documentId_eq hs, Option.bind_some]
  simp only
  rw [(h.getJsonValue_eq_undefined_iff _).mpr hreach]
  rfl

/-- Without overwriting, an insertion succeeds when its id reaches no document. -/
theorem transact_insert_success_iff :
    (σ.transact E (.insert doc gen false ignoreReadOnlyValue)).1 = .success ↔
      ∀ p ∈ docs, ¬ Reaches E.backend (toLatin1 s) p.1 := by
  rw [Collection.transact_insert_success_iff]
  constructor
  · intro hacc
    rw [← h.getJsonValue_eq_undefined_iff]
    by_contra hold
    apply hacc
    rw [Transaction.accepted, documentId_eq hs, Option.bind_some]
    have hundefined : (getJsonValue E.backend σ.db σ.snapshotId (toLatin1 s)).isUndefined =
        false := by
      cases hv : getJsonValue E.backend σ.db σ.snapshotId (toLatin1 s) <;>
        simp_all [QJsonValue.isUndefined]
    simp [hundefined]
  · intro hreach
    rw [accepted_eq hs h hreach]
    exact Option.some_ne_none _

/-- **insert** adds the document. -/
theorem transact_insert (hreach : ∀ p ∈ docs, ¬ Reaches E.backend (toLatin1 s) p.1) :
    HoldsDocuments ((toLatin1 s, Transaction.withUUID E gen doc) :: docs)
      (σ.transact E (.insert doc gen overwrite ignoreReadOnlyValue)).2 := by
  have hacc := @accepted_eq E σ docs s doc hs gen overwrite ignoreReadOnlyValue h hreach
  have hins := Collection.inserted_of_accepted hacc
  obtain ⟨hflat, hid⟩ := h.flat.insert h.snapshotId doc gen overwrite ignoreReadOnlyValue
  refine ⟨hflat, ?_, hid, fun id o => ?_⟩
  · exact h.good.transact fun _ _ _ => Set.mem_univ _
  · rw [List.mem_cons, ← h.document, Prod.mk.injEq]
    have hlink := hins.linkKey
    rw [h.snapshotId] at hlink
    by_cases heq : id = toLatin1 s
    · subst heq
      -- the id was free
      have hfree : σ.db.find? (constructDocumentLinkKey (toLatin1 s) 0) ≠ some (.document o) := by
        intro hold
        exact hreach _ ((h.document _ o).mp hold) (Reaches.refl _ _)
      rw [hlink]
      simp [hfree, eq_comm]
    · have hother := hins.other (constructDocumentLinkKey id 0) (linkKey_zero_ne_startKey _ _) ?_
        fun hmeta => hmeta.not_isKeyOf (isKeyOf_linkKey id 0)
      · rw [hother]
        simp [heq]
      · intro hk
        rw [h.snapshotId] at hk
        exact heq (by simpa using congrArg idOfLinkKey hk)

end Insert

end HoldsDocuments

/-! ## One document -/

/-- In an empty collection the document is found by its `_id` once it is inserted, and removed
by it. -/
def HandlesId (E : Env) (s : QString) (doc : QJsonObject) (gen : Transaction.IdGen)
    (overwrite ignoreReadOnlyValue : Bool) : Prop :=
  let inserted := (Collection.open E .empty).transact E
    (.insert doc gen overwrite ignoreReadOnlyValue)
  let removed := inserted.2.transact E (removeIdOp s)
  inserted.1 = .success ∧
    FindsExactly E inserted.2 s (Transaction.withUUID E gen doc) ∧
    removed.1 = .success ∧ visible removed.2.db removed.2.snapshotId (toLatin1 s) = none

section One

variable {s : QString} {doc : QJsonObject} (hs : QJsonObject.value doc (qs "_id") = .string s)
include hs

/-- **One document**: it is found and removed by its `_id` when the encodings agree on the `_id`,
and no read-only key protects the document. -/
theorem handlesId_iff (gen : Transaction.IdGen) (overwrite ignoreReadOnlyValue : Bool) :
    HandlesId E s doc gen overwrite ignoreReadOnlyValue ↔
      isOneByteString s = true ∧
        Transaction.isProtected E (.object (Transaction.withUUID E gen doc)) false = false := by
  have hopen := HoldsDocuments.opened (E := E)
  have hnone : ∀ p ∈ ([] : List (QByteArray × QJsonObject)),
      ¬ Reaches E.backend (toLatin1 s) p.1 := fun p hp => absurd hp List.not_mem_nil
  have hacc := @HoldsDocuments.accepted_eq E _ [] s doc hs gen overwrite ignoreReadOnlyValue
    hopen hnone
  have hins := Collection.inserted_of_accepted hacc
  have hholds := @HoldsDocuments.transact_insert E _ [] s doc hs gen overwrite ignoreReadOnlyValue
    hopen hnone
  have hsuccess := Collection.transact_insert_success_iff.mpr (hacc ▸ Option.some_ne_none _)
  have ho := @HoldsDocuments.value_withUUID E s doc hs gen
  rw [HandlesId, findsExactly_iff ho]
  generalize (Collection.open E .empty).transact E
    (.insert doc gen overwrite ignoreReadOnlyValue) = inserted at *
  generalize Transaction.withUUID E gen doc = o at *
  rw [hholds.snapshotId, hholds.document, List.mem_singleton, Prod.mk.injEq, and_iff_left rfl,
    toLocal8Bit_eq_toLatin1_iff, and_iff_right hsuccess]
  refine and_congr_right fun hone => ?_
  rw [removeIdOp, toLocal8Bit_eq_toLatin1_iff.mpr hone]
  have hlook := hholds.seekValue_eq (E := E) List.mem_cons_self
  cases hp : Transaction.isProtected E (.object o) false with
  | true =>
    refine iff_of_false (fun h => ?_) (by simp)
    apply Collection.transact_removeById_of_removable_eq_none _ h.1
    rw [Transaction.removable, hlook]
    exact if_pos hp
  | false =>
    refine iff_of_true ?_ rfl
    have hremovable : Transaction.removable E inserted.2.db inserted.2.snapshotId (toLatin1 s)
        false = some (o, ⟨.document o, some 0, true, true, true⟩) := by
      rw [Transaction.removable, hlook]
      exact if_neg (by simpa using hp)
    have hindexes : storedIndexes (Collection.open E .empty).db = [] := by
      rw [storedIndexes, Collection.open_empty.1, SortedMap.find?_insert, if_neg (by decide)]
      rfl
    have hempty : ∀ k, IsKeyOf (toLatin1 s) k → (Collection.open E .empty).db.find? k = none := by
      intro k hk
      rw [Collection.open_empty.1, SortedMap.find?_insert, if_neg]
      · rfl
      · intro heq
        exact (heq ▸ isMetaKey_snapshotsKey).not_isKeyOf hk
    -- there are no indexes, so that there are no links to take back
    have hundone := (hins.undone_iff hempty hremovable (by rw [hholds.snapshotId]) rfl).mpr (by
      rw [hindexes]
      exact LinkTable.takesBack_self List.nodup_nil (fun k hk => absurd hk List.not_mem_nil)
        fun k hk => absurd hk List.not_mem_nil)
    refine ⟨hundone.1, ?_⟩
    rw [hundone.2]
    exact visible_eq_none_of_forall fun t _ => hempty _ (isKeyOf_linkKey _ t)

end One

/-! ## Two documents -/

/-- In an empty collection both documents can be inserted without overwriting, and both are then
found by their `_id`s. -/
def KeepsApart (E : Env) (s s' : QString) (doc doc' : QJsonObject) (gen gen' : Transaction.IdGen)
    (ignoreReadOnlyValue : Bool) : Prop :=
  let first := (Collection.open E .empty).transact E (.insert doc gen false ignoreReadOnlyValue)
  let second := first.2.transact E (.insert doc' gen' false ignoreReadOnlyValue)
  first.1 = .success ∧ second.1 = .success ∧
    FindsExactly E second.2 s (Transaction.withUUID E gen doc) ∧
    FindsExactly E second.2 s' (Transaction.withUUID E gen' doc')

section Two

variable {s s' : QString} {doc doc' : QJsonObject}
  (hs : QJsonObject.value doc (qs "_id") = .string s)
  (hs' : QJsonObject.value doc' (qs "_id") = .string s')
include hs hs'

/-- **Two documents** are kept apart when the encodings agree on both `_id`s and the lookup of
the second one does not reach the first. -/
theorem keepsApart_iff (gen gen' : Transaction.IdGen) (ignoreReadOnlyValue : Bool) :
    KeepsApart E s s' doc doc' gen gen' ignoreReadOnlyValue ↔
      isOneByteString s = true ∧ isOneByteString s' = true ∧
        ¬ Reaches E.backend (toLatin1 s') (toLatin1 s) := by
  have hopen := HoldsDocuments.opened (E := E)
  have hnone : ∀ p ∈ ([] : List (QByteArray × QJsonObject)),
      ¬ Reaches E.backend (toLatin1 s) p.1 := fun p hp => absurd hp List.not_mem_nil
  have hfirst := (@HoldsDocuments.transact_insert_success_iff E _ [] s doc hs gen
    ignoreReadOnlyValue hopen).mpr hnone
  have hholds := @HoldsDocuments.transact_insert E _ [] s doc hs gen false ignoreReadOnlyValue
    hopen hnone
  have ho := @HoldsDocuments.value_withUUID E s doc hs gen
  have ho' := @HoldsDocuments.value_withUUID E s' doc' hs' gen'
  rw [KeepsApart, findsExactly_iff ho, findsExactly_iff ho', and_iff_right hfirst]
  generalize (Collection.open E .empty).transact E (.insert doc gen false ignoreReadOnlyValue) =
    first at *
  have hsecond := @HoldsDocuments.transact_insert_success_iff E first.2 _ s' doc' hs' gen'
    ignoreReadOnlyValue hholds
  rw [List.forall_mem_singleton] at hsecond
  rw [hsecond]
  constructor
  · rintro ⟨hreach, hfind, hfind'⟩
    have hboth := @HoldsDocuments.transact_insert E first.2 _ s' doc' hs' gen' false
      ignoreReadOnlyValue hholds (List.forall_mem_singleton.mpr hreach)
    rw [hboth.snapshotId, hboth.document] at hfind hfind'
    have hne : toLatin1 s ≠ toLatin1 s' := fun heq => hreach (heq ▸ Reaches.refl _ _)
    -- each document names its own id, so that neither is found in place of the other
    have hown : ∀ {r r' : QString} {o o' : QJsonObject},
        QJsonObject.value o (qs "_id") = .string r → QJsonObject.value o' (qs "_id") = .string r' →
        toLatin1 r ≠ toLatin1 r' → o ≠ o' := by
      rintro r r' o o' hr hr' hrr' rfl
      exact hrr' (congrArg toLatin1 (QJsonValue.string.inj (hr.symm.trans hr')))
    simp only [List.mem_cons, List.not_mem_nil, or_false, Prod.mk.injEq] at hfind hfind'
    refine ⟨?_, ?_, hreach⟩
    · rw [← toLocal8Bit_eq_toLatin1_iff]
      exact (hfind.resolve_left fun h => hown ho ho' hne h.2).1
    · rw [← toLocal8Bit_eq_toLatin1_iff]
      exact (hfind'.resolve_right fun h => hown ho' ho hne.symm h.2).1
  · rintro ⟨hone, hone', hreach⟩
    have hboth := @HoldsDocuments.transact_insert E first.2 _ s' doc' hs' gen' false
      ignoreReadOnlyValue hholds (List.forall_mem_singleton.mpr hreach)
    rw [hboth.snapshotId, hboth.document, hboth.document,
      toLocal8Bit_eq_toLatin1_iff.mpr hone, toLocal8Bit_eq_toLatin1_iff.mpr hone']
    exact ⟨hreach, List.mem_cons_of_mem _ List.mem_cons_self, List.mem_cons_self⟩

end Two

/-- **Encodings**: the entry points agree on the ids of a document, and of two documents, exactly
for ids that UTF-8 encodes in one byte for each code unit, when no read-only key stands against
the removal, and the lookup of the second id does not reach the first. -/
theorem idEncodings_iff {s s' : QString} {doc doc' : QJsonObject}
    (hs : QJsonObject.value doc (qs "_id") = .string s)
    (hs' : QJsonObject.value doc' (qs "_id") = .string s') (gen gen' : Transaction.IdGen)
    (overwrite ignoreReadOnlyValue : Bool) :
    (HandlesId E s doc gen overwrite ignoreReadOnlyValue ↔
      isOneByteString s = true ∧
        Transaction.isProtected E (.object (Transaction.withUUID E gen doc)) false = false) ∧
    (KeepsApart E s s' doc doc' gen gen' ignoreReadOnlyValue ↔
      isOneByteString s = true ∧ isOneByteString s' = true ∧
        ¬ Reaches E.backend (toLatin1 s') (toLatin1 s)) :=
  ⟨handlesId_iff hs gen overwrite ignoreReadOnlyValue,
    keepsApart_iff hs hs' gen gen' ignoreReadOnlyValue⟩

/-- A document without fields of its own. -/
def idOnly (s : QString) : QJsonObject := [(qs "_id", .string s)]

/-- With ids of ASCII characters, given in the order of their keys, all goes well. -/
theorem idEncodings_ab :
    HandlesId (Env.plain .levelDB) (qs "a") (idOnly (qs "a")) ⟨[], []⟩ false false ∧
      KeepsApart (Env.plain .levelDB) (qs "a") (qs "b") (idOnly (qs "a")) (idOnly (qs "b"))
        ⟨[], []⟩ ⟨[], []⟩ false := by
  obtain ⟨hone, htwo⟩ := @idEncodings_iff (Env.plain .levelDB) (qs "a") (qs "b")
    (idOnly (qs "a")) (idOnly (qs "b")) rfl rfl ⟨[], []⟩ ⟨[], []⟩ false false
  exact ⟨hone.mpr (by decide), htwo.mpr (by decide)⟩

/-- The document with the id `é` is stored under `\xE9` and looked for under `\xC3\xA9`. -/
theorem not_idEncodings :
    ¬ ∀ (E : Env) (s s' : QString) (doc doc' : QJsonObject) (gen gen' : Transaction.IdGen)
        (overwrite ignoreReadOnlyValue : Bool),
      QJsonObject.value doc (qs "_id") = .string s →
      QJsonObject.value doc' (qs "_id") = .string s' →
      HandlesId E s doc gen overwrite ignoreReadOnlyValue ∧
        (s ≠ s' → KeepsApart E s s' doc doc' gen gen' ignoreReadOnlyValue) := by
  intro h
  obtain ⟨⟨-, hfinds, -⟩, -⟩ := h (Env.plain .map) [0xE9] [0xE9] (idOnly [0xE9]) (idOnly [0xE9])
    ⟨[], []⟩ ⟨[], []⟩ false false rfl rfl
  revert hfinds
  rw [findsExactly_iff rfl]
  decide +kernel

end Qdocdb
