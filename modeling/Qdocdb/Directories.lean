import Qdocdb.ServerSteps

/-!
# Collections and their directories

The server tells collections apart by their names, but a LevelDB store belongs to a directory:
what is written to a collection is seen in all collections whose names lead to its directory.
`Stores` is the one place where it is said what a request does to the stores. It may open the
collection of its url, and it puts a collection back into its place, with other content only when
it is a request that writes.
-/

namespace Qdocdb

namespace LinkObjectType

/-- A request that changes the content of the collection of its url: a document is written
without a transaction, or the request is about indexes or snapshots. -/
def writes : LinkObjectType → Bool
  | createIndex _ _ => true
  | newSnapshot => true
  | revertToSnapshot => true
  | removeSnapshot => true
  | type => type.document?.any fun p => p.1 = -1

end LinkObjectType

theorem writes_of_document {type : LinkObjectType} {op : TxOp}
    (h : type.document? = some (-1, op)) : type.writes = true := by
  cases type <;> simp_all [LinkObjectType.writes, LinkObjectType.document?]

theorem collNeeded_of_document {type : LinkObjectType} {p : ℤ × TxOp}
    (h : type.document? = some p) : type.collNeeded = true := by
  cases type <;> first | rfl | cases h

/-- The names of two collections lead to the same directory. -/
def SameDirectory (E : ServerEnv) (place place' : Place) : Prop :=
  ∃ path, E.directory place.1 place.2 = some path ∧ E.directory place'.1 place'.2 = some path

/-- The store of a collection does not change hands. -/
structure OpenCollection.KeepsStore (c c' : OpenCollection) : Prop where
  backend : c'.backend = c.backend
  path : c'.path = c.path

/-- Reading leaves the content of a collection alone, and the number of its snapshot. -/
structure OnlyRead (c c' : OpenCollection) : Prop where
  db : c'.coll.db = c.coll.db
  snapshotId : c'.coll.snapshotId = c.coll.snapshotId

namespace QDocdbServer

variable {E : ServerEnv} {s s' : QDocdbServer} {client : ClientId} {o : QDocdbLinkObject}
  {place : Place} {c c' : OpenCollection}

/-! ## Reading -/

theorem onlyRead_afterReaderOf (c : OpenCollection) (snapshotName : QString) :
    OnlyRead c (afterReaderOf E c snapshotName) := by
  rw [afterReaderOf]
  split
  · exact ⟨rfl, rfl⟩
  · exact ⟨Collection.db_noteSnapshotsError _, Collection.snapshotId_noteSnapshotsError _⟩

theorem onlyRead_onCollection {snapshotName : QString} {type : LinkObjectType} {r : Reply}
    (hr : onCollection E c snapshotName type = some (c', r)) (hw : type.writes = false) :
    OnlyRead c c' := by
  cases type with
  | createIndex fieldName indexName => cases hw
  | newSnapshot => cases hw
  | revertToSnapshot => cases hw
  | removeSnapshot => cases hw
  | find query queryOptions =>
    cases hr
    exact onlyRead_afterReaderOf c snapshotName
  | findOne query queryOptions =>
    cases hr
    exact onlyRead_afterReaderOf c snapshotName
  | count query queryOptions =>
    cases hr
    exact onlyRead_afterReaderOf c snapshotName
  | getModified =>
    cases hr
    exact onlyRead_afterReaderOf c snapshotName
  | getSnapshotList =>
    rw [onCollection] at hr
    split at hr <;> cases hr <;> exact ⟨rfl, rfl⟩
  | _ =>
    cases hr
    exact ⟨rfl, rfl⟩

theorem onlyRead_observe (E : Env) (c : OpenCollection) (query queryOptions : QJsonObject)
    (preferedId nextNumber : ℤ) : OnlyRead c
      { c with coll := (c.coll.observe E query queryOptions preferedId nextNumber).2.2 } := by
  have hemit : ∀ (σ : Collection) (id : ℤ),
      (σ.emitObserver id).db = σ.db ∧ (σ.emitObserver id).snapshotId = σ.snapshotId := by
    intro σ id
    rw [Collection.emitObserver]
    split
    · split <;> exact ⟨rfl, rfl⟩
    · exact ⟨rfl, rfl⟩
  exact ⟨(hemit _ _).1, (hemit _ _).2⟩

theorem keepsStore_onCollection {snapshotName : QString} {type : LinkObjectType} {r : Reply}
    (hr : onCollection E c snapshotName type = some (c', r)) : c.KeepsStore c' := by
  have hread : c.KeepsStore (afterReaderOf E c snapshotName) := by
    rw [afterReaderOf]
    split <;> exact ⟨rfl, rfl⟩
  have hsnapshot : ∀ {result}, snapshotReply c result = some (c', r) → c.KeepsStore c' := by
    intro result hresult
    obtain ⟨p, -, heq⟩ := Option.map_eq_some_iff.mp hresult
    cases heq
    exact ⟨rfl, rfl⟩
  cases type with
  | find query queryOptions =>
    cases hr
    exact hread
  | findOne query queryOptions =>
    cases hr
    exact hread
  | count query queryOptions =>
    cases hr
    exact hread
  | getModified =>
    cases hr
    exact hread
  | createIndex fieldName indexName =>
    rw [onCollection] at hr
    dsimp only at hr
    split at hr <;> cases hr <;> exact ⟨rfl, rfl⟩
  | getSnapshotList =>
    rw [onCollection] at hr
    split at hr <;> cases hr <;> exact ⟨rfl, rfl⟩
  | newSnapshot =>
    rw [onCollection] at hr
    split at hr
    · cases hr
      exact ⟨rfl, rfl⟩
    · exact hsnapshot hr
  | revertToSnapshot =>
    rw [onCollection] at hr
    split at hr
    · cases hr
      exact ⟨rfl, rfl⟩
    · exact hsnapshot hr
  | removeSnapshot =>
    rw [onCollection] at hr
    split at hr
    · cases hr
      exact ⟨rfl, rfl⟩
    · exact hsnapshot hr
  | _ =>
    cases hr
    exact ⟨rfl, rfl⟩

/-! ## What a request does to the stores -/

/-- The collections and the open stores of two servers are the same. -/
structure SameStores (s s' : QDocdbServer) : Prop where
  collection? : ∀ place, s'.collection? place = s.collection? place
  dbMap : s'.dbMap = s.dbMap

/-- A request opens the collection of its url, or writes to it. -/
def WritesOrOpens (s : QDocdbServer) (o : QDocdbLinkObject) : Prop :=
  o.type.collNeeded = true ∧ (s.collection? o.place = none ∨ o.type.writes = true)

/-- What becomes of the collections and the stores when a request is served. -/
inductive Stores (E : ServerEnv) (s : QDocdbServer) (o : QDocdbLinkObject) : QDocdbServer → Prop
  | kept {s' : QDocdbServer} (h : SameStores s s') : Stores E s o s'
  | opened {s' : QDocdbServer} (ho : o.type.collNeeded = true)
    (h : SameStores (s.openCollectionOf E o) s') : Stores E s o s'
  | served {s' : QDocdbServer} {c : OpenCollection} (ho : o.type.collNeeded = true)
    (hc : (s.openCollectionOf E o).collection? o.place = some c) (c' : OpenCollection)
    (hstore : c.KeepsStore c')
    (hdb : c'.coll.db = c.coll.db ∨ o.type.writes = true)
    (h : SameStores ((s.openCollectionOf E o).setCollection o.place c') s') : Stores E s o s'
  | unobserved {s' : QDocdbServer} {place : Place} {c : OpenCollection}
    (hc : s.collection? place = some c) (c' : OpenCollection) (hstore : c.KeepsStore c')
    (hdb : c'.coll.db = c.coll.db) (h : SameStores (s.setCollection place c') s') :
    Stores E s o s'
  | committed {s' : QDocdbServer} {txId : ℤ} {t : OpenTransaction} {c : OpenCollection}
    (ht : o.type = .writeTransaction txId) (hlookup : s.transactions.lookup txId = some t)
    (hc : s.collection? t.place = some c) (c' : OpenCollection) (hstore : c.KeepsStore c')
    (h : SameStores (s.setCollection t.place c') s') : Stores E s o s'

theorem Served.stores {p : QDocdbServer × Reply} (h : Served E s client o p) :
    Stores E s o p.1 := by
  cases h with
  | @writeTransaction txId ht =>
    rw [QDocdbServer.writeTransaction]
    split
    · exact .kept ⟨fun _ => rfl, rfl⟩
    · rename_i t hlookup
      dsimp only
      split
      · exact .kept ⟨fun _ => rfl, rfl⟩
      · rename_i c hc
        exact .committed ht hlookup hc
          { c with coll := (c.coll.writeTransaction (E.env.on c.backend) t.tx).2 } ⟨rfl, rfl⟩
          ⟨fun _ => rfl, rfl⟩
  | discardTransaction ht =>
    rw [QDocdbServer.discardTransaction]
    split <;> exact .kept ⟨fun _ => rfl, rfl⟩
  | unobserve ht =>
    rw [QDocdbServer.unobserve]
    split
    · exact .kept ⟨fun _ => rfl, rfl⟩
    · split
      · exact .kept ⟨fun _ => rfl, rfl⟩
      · split
        · rw [unobserveAt]
          split
          · rename_i c hc
            exact .unobserved hc { c with coll := c.coll.unobserve _ } ⟨rfl, rfl⟩ rfl
              ⟨fun _ => rfl, rfl⟩
          · exact .kept ⟨fun _ => rfl, rfl⟩
        · exact .kept ⟨fun _ => rfl, rfl⟩
  | cannotOpenDatabase hurl => exact .kept ⟨fun _ => rfl, rfl⟩
  | exclusiveLock ht =>
    rw [QDocdbServer.exclusiveLock]
    split <;> exact .kept ⟨fun _ => rfl, rfl⟩
  | unlock ht =>
    rw [QDocdbServer.unlock]
    split
    · exact .kept ⟨fun _ => rfl, rfl⟩
    · split <;> exact .kept ⟨fun _ => rfl, rfl⟩
  | emptyCollectionName hurl => exact .kept ⟨fun _ => rfl, rfl⟩
  | cannotOpenCollection hcoll => exact .opened hcoll ⟨fun _ => rfl, rfl⟩
  | @autoCommit op c ht hc =>
    exact .served (collNeeded_of_document ht) hc
      { c with coll := (c.coll.transact (E.env.on c.backend) op).2 } ⟨rfl, rfl⟩
      (.inr (writes_of_document ht)) ⟨fun _ => rfl, rfl⟩
  | operation ht hne =>
    rw [QDocdbServer.operation]
    split
    · exact .opened (collNeeded_of_document ht) ⟨fun _ => rfl, rfl⟩
    · split <;> exact .opened (collNeeded_of_document ht) ⟨fun _ => rfl, rfl⟩
  | newTransaction ht hc => exact .opened (by rw [ht]; rfl) ⟨fun _ => rfl, rfl⟩
  | @observe query queryOptions preferedId c ht hc =>
    exact .served (by rw [ht]; rfl) hc { c with
        coll := (c.coll.observe (E.env.on c.backend) query queryOptions preferedId
          (s.openCollectionOf E o).nextNumber).2.2 } ⟨rfl, rfl⟩
      (.inl (onlyRead_observe _ _ _ _ _ _).db) ⟨fun _ => rfl, rfl⟩
  | onCollection hcoll hdoc hnew hobserve hc hr =>
    refine .served hcoll hc _ (keepsStore_onCollection hr) ?_ ⟨fun _ => rfl, rfl⟩
    cases hw : o.type.writes with
    | true => exact .inr rfl
    | false => exact .inl (onlyRead_onCollection hr hw).db

theorem WritesOrOpens.mono (h : s'.WritesOrOpens o)
    (hopen : s'.collection? o.place = none → s.collection? o.place = none) : s.WritesOrOpens o :=
  ⟨h.1, h.2.imp_left hopen⟩

theorem openCollectionOf_of_some (hc : s.collection? o.place = some c) :
    s.openCollectionOf E o = s := by
  rcases openCollectionOf_cases E s o with heq | ⟨hnone, -⟩
  · exact heq
  · rw [hc] at hnone
    cases hnone

theorem openCollectionOf_of_not_writesOrOpens (ho : o.type.collNeeded = true)
    (h : ¬ s.WritesOrOpens o) :
    s.openCollectionOf E o = s ∧ o.type.writes = false := by
  rw [WritesOrOpens, not_and, not_or, Bool.not_eq_true] at h
  obtain ⟨hopen, hw⟩ := h ho
  obtain ⟨c, hc⟩ := Option.ne_none_iff_exists'.mp hopen
  exact ⟨openCollectionOf_of_some hc, hw⟩

/-- Collections are not closed. -/
theorem collection?_eq_none_of_setCollection {place' : Place}
    (h : (s.setCollection place c).collection? place' = none) : s.collection? place' = none := by
  rw [collection?_setCollection] at h
  split at h
  · cases h
  · exact Option.map_eq_none_iff.mp h

theorem collection?_eq_none_of_openCollectionOf
    (h : (s.openCollectionOf E o).collection? place = none) : s.collection? place = none := by
  rcases openCollectionOf_cases E s o with heq | ⟨-, B, path, db, -, heq⟩ <;> rw [heq] at h
  · exact h
  · exact collection?_eq_none_of_setCollection h

theorem Stores.collection?_eq_none (hs : Stores E s o s') (h : s'.collection? place = none) :
    s.collection? place = none := by
  cases hs with
  | kept hsame => rwa [hsame.collection?] at h
  | opened _ hsame =>
    rw [hsame.collection?] at h
    exact collection?_eq_none_of_openCollectionOf h
  | served _ _ c' _ _ hsame =>
    rw [hsame.collection?] at h
    exact collection?_eq_none_of_openCollectionOf (collection?_eq_none_of_setCollection h)
  | unobserved _ c' _ _ hsame =>
    rw [hsame.collection?] at h
    exact collection?_eq_none_of_setCollection h
  | committed _ _ _ c' _ hsame =>
    rw [hsame.collection?] at h
    exact collection?_eq_none_of_setCollection h

/-! ## The directories of open collections -/

/-- Every open collection that is not kept in memory has the directory of its name, and its
content is the one of the store there. -/
def Attached (E : ServerEnv) (s : QDocdbServer) : Prop :=
  ∀ place c, s.collection? place = some c → c.backend = .levelDB →
    E.directory place.1 place.2 = some c.path ∧ s.dbMap c.path = some c.coll.db

theorem Attached.congr (h : Attached E s) (hsame : SameStores s s') : Attached E s' := by
  intro place c hc hB
  rw [hsame.collection?] at hc
  rw [hsame.dbMap]
  exact h place c hc hB

theorem Attached.setCollection (h : Attached E s)
    (hc : c.backend = .levelDB → E.directory place.1 place.2 = some c.path) :
    Attached E (s.setCollection place c) := by
  intro place' c' hc' hB'
  rcases collection?_of_setCollection hc' with ⟨rfl, rfl⟩ | ⟨-, c₀, hc₀, rfl⟩
  · have hB : c.backend = .levelDB := hB'
    refine ⟨hc hB, ?_⟩
    rw [dbMap_setCollection_of_levelDB hB, Function.update_self]
  · rw [OpenCollection.backend_sharingWith] at hB'
    obtain ⟨hpath, hdb⟩ := h place' c₀ hc₀ hB'
    rw [OpenCollection.path_sharingWith, OpenCollection.db_sharingWith]
    refine ⟨hpath, ?_⟩
    cases hB : c.backend with
    | map =>
      have hnot : ¬ c₀.Shares c := fun hshares => by
        have hlevelDB := hshares.1
        rw [hB] at hlevelDB
        cases hlevelDB
      rw [dbMap_setCollection_of_map hB, if_neg hnot, hdb]
    | levelDB =>
      rw [dbMap_setCollection_of_levelDB hB]
      by_cases heq : c₀.path = c.path
      · rw [if_pos ⟨hB, hB', heq⟩, heq, Function.update_self]
      · rw [if_neg fun hshares => heq hshares.2.2, Function.update_of_ne heq, hdb]

theorem Attached.openCollectionOf (h : Attached E s) : Attached E (s.openCollectionOf E o) := by
  rcases openCollectionOf_cases E s o with heq | ⟨-, B, path, db, hopens, heq⟩
  · rwa [heq]
  · rw [heq]
    refine h.setCollection fun hB => ?_
    obtain rfl : B = .levelDB := hB
    exact hopens.1

theorem Attached.keepsStore (h : Attached E s) (hc : s.collection? place = some c)
    (hstore : c.KeepsStore c') : Attached E (s.setCollection place c') :=
  h.setCollection fun hB => by
    rw [hstore.path]
    exact (h place c hc (hstore.backend ▸ hB)).1

theorem Attached.stores (h : Attached E s) (hs : Stores E s o s') : Attached E s' := by
  cases hs with
  | kept hsame => exact h.congr hsame
  | opened ho hsame => exact h.openCollectionOf.congr hsame
  | served ho hc c' hstore hdb hsame => exact (h.openCollectionOf.keepsStore hc hstore).congr hsame
  | unobserved hc c' hstore hdb hsame => exact (h.keepsStore hc hstore).congr hsame
  | committed ht hlookup hc c' hstore hsame => exact (h.keepsStore hc hstore).congr hsame

theorem sameStores_openDatabaseOf : SameStores s (s.openDatabaseOf E o) := by
  obtain ⟨databases, heq, hcollection⟩ := openDatabaseOf_eq E s o
  exact ⟨hcollection, by rw [heq]⟩

theorem collection?_clientRemoved (client : ClientId) (place : Place) :
    (s.clientRemoved client).collection? place =
      (s.collection? place).map (s.unobserveClient client place) := by
  simp only [collection?, clientRemoved, Option.map_map]
  cases s.databases place.1 with
  | none => rfl
  | some collList =>
    cases hc : collList place.2 with
    | none => simp [hc]
    | some c =>
      obtain ⟨B, path, coll⟩ := c
      cases B <;> simp [hc, attach, unobserveClient]

theorem Attached.clientRemoved (h : Attached E s) : Attached E (s.clientRemoved client) := by
  intro place c hc hB
  rw [collection?_clientRemoved] at hc
  obtain ⟨c₀, hc₀, rfl⟩ := Option.map_eq_some_iff.mp hc
  exact h place c₀ hc₀ hB

/-! ## Content -/

/-- The key/value content of an open collection. -/
def content (s : QDocdbServer) (place : Place) : Option Store :=
  (s.collection? place).map fun c => c.coll.db

theorem SameStores.content (h : SameStores s s') (place : Place) :
    s'.content place = s.content place := by
  rw [QDocdbServer.content, QDocdbServer.content, h.collection?]

theorem content_clientRemoved (place : Place) :
    (s.clientRemoved client).content place = s.content place := by
  rw [content, content, collection?_clientRemoved, Option.map_map]
  rfl

/-- A collection that is put in its place is seen in no collection of another directory. -/
theorem content_setCollection_of_apart (h : Attached E s) {place' : Place} (hne : place' ≠ place)
    (hc : c.backend = .levelDB → E.directory place.1 place.2 = some c.path)
    (hapart : ¬ SameDirectory E place place') :
    (s.setCollection place c).content place' = s.content place' := by
  rw [content, content, collection?_setCollection, if_neg hne, Option.map_map]
  cases hc' : s.collection? place' with
  | none => rfl
  | some c' =>
    have hnot : ¬ c'.Shares c := by
      rintro ⟨hB, hB', hpath⟩
      exact hapart ⟨c.path, hc hB, hpath ▸ (h place' c' hc' hB').1⟩
    rw [Option.map_some, Option.map_some, Function.comp_apply,
      OpenCollection.sharingWith_of_not_shares hnot]

/-- A collection with the same content is not seen anywhere. -/
theorem content_setCollection_of_same (h : Attached E s) (hc : s.collection? place = some c)
    (hstore : c.KeepsStore c') (hdb : c'.coll.db = c.coll.db) (place' : Place) :
    (s.setCollection place c').content place' = s.content place' := by
  rw [content, content, collection?_setCollection]
  split
  · rename_i heq
    rw [heq, hc, Option.map_some, Option.map_some, hdb]
  · rw [Option.map_map]
    cases hc₀ : s.collection? place' with
    | none => rfl
    | some c₀ =>
      rw [Option.map_some, Option.map_some, Function.comp_apply, OpenCollection.db_sharingWith]
      split
      · rename_i hshares
        obtain ⟨hB', hB₀, hpath⟩ := hshares
        have hfound := (h place c hc (hstore.backend ▸ hB')).2
        have hfound₀ := (h place' c₀ hc₀ hB₀).2
        rw [hpath, hstore.path] at hfound₀
        rw [hdb, Option.some.inj (hfound.symm.trans hfound₀)]
      · rfl

/-- Nor is it seen in the open stores. -/
theorem dbMap_setCollection_of_same (h : Attached E s) (hc : s.collection? place = some c)
    (hstore : c.KeepsStore c') (hdb : c'.coll.db = c.coll.db) :
    (s.setCollection place c').dbMap = s.dbMap := by
  cases hB : c'.backend with
  | map => exact dbMap_setCollection_of_map hB
  | levelDB =>
    have hfound := (h place c hc (hstore.backend ▸ hB)).2
    rw [dbMap_setCollection_of_levelDB hB, hdb, hstore.path, ← hfound, Function.update_eq_self]

/-- Only the store of one directory is written. -/
theorem dbMap_setCollection_of_ne {path : QString} (hne : c.backend = .levelDB → c.path ≠ path) :
    (s.setCollection place c).dbMap path = s.dbMap path := by
  cases hB : c.backend with
  | map => rw [dbMap_setCollection_of_map hB]
  | levelDB => rw [dbMap_setCollection_of_levelDB hB, Function.update_of_ne (hne hB).symm]

/-- Opening a collection is seen in no collection of another directory. -/
theorem content_openCollectionOf_of_apart (h : Attached E s) (hne : place ≠ o.place)
    (hapart : ¬ SameDirectory E o.place place) :
    (s.openCollectionOf E o).content place = s.content place := by
  rcases openCollectionOf_cases E s o with heq | ⟨-, B, path, db, hopens, heq⟩
  · rw [heq]
  · rw [heq]
    refine content_setCollection_of_apart h hne (fun hB => ?_) hapart
    obtain rfl : B = .levelDB := hB
    exact hopens.1

theorem dbMap_openCollectionOf_of_ne {path : QString}
    (hne : E.directory o.place.1 o.place.2 ≠ some path) :
    (s.openCollectionOf E o).dbMap path = s.dbMap path := by
  rcases openCollectionOf_cases E s o with heq | ⟨-, B, path', db, hopens, heq⟩
  · rw [heq]
  · rw [heq]
    refine dbMap_setCollection_of_ne fun hB hpath => hne ?_
    obtain rfl : B = .levelDB := hB
    rw [← hpath]
    exact hopens.1

/-- **What a request changes**: content of the collections with the directory of the collection
of its url, or of the one whose transaction it writes. -/
theorem Stores.content_of_apart (h : Attached E s) (hs : Stores E s o s')
    (ho : s.WritesOrOpens o → place ≠ o.place ∧ ¬ SameDirectory E o.place place)
    (htx : ∀ txId t, o.type = .writeTransaction txId → s.transactions.lookup txId = some t →
      place ≠ t.place ∧ ¬ SameDirectory E t.place place) : s'.content place = s.content place := by
  have hput : ∀ {s₁ : QDocdbServer} {place₁ : Place} {c c' : OpenCollection}, Attached E s₁ →
      s₁.collection? place₁ = some c → c.KeepsStore c' → place ≠ place₁ →
      ¬ SameDirectory E place₁ place →
      (s₁.setCollection place₁ c').content place = s₁.content place := by
    intro s₁ place₁ c c' h₁ hc hstore hne hapart
    refine content_setCollection_of_apart h₁ hne (fun hB => ?_) hapart
    rw [hstore.path]
    exact (h₁ place₁ c hc (hstore.backend ▸ hB)).1
  cases hs with
  | kept hsame => exact hsame.content place
  | opened hneeded hsame =>
    rw [hsame.content]
    by_cases hwrites : s.WritesOrOpens o
    · exact content_openCollectionOf_of_apart h (ho hwrites).1 (ho hwrites).2
    · rw [(openCollectionOf_of_not_writesOrOpens hneeded hwrites).1]
  | served hneeded hc c' hstore hdb hsame =>
    rw [hsame.content]
    by_cases hwrites : s.WritesOrOpens o
    · obtain ⟨hne, hapart⟩ := ho hwrites
      exact (hput h.openCollectionOf hc hstore hne hapart).trans
        (content_openCollectionOf_of_apart h hne hapart)
    · -- an open collection is read
      obtain ⟨hopen, hw⟩ := openCollectionOf_of_not_writesOrOpens (E := E) hneeded hwrites
      rw [hopen] at hc ⊢
      refine content_setCollection_of_same h hc hstore (hdb.resolve_right fun hw' => ?_) place
      rw [hw] at hw'
      cases hw'
  | unobserved hc c' hstore hdb hsame =>
    exact (hsame.content place).trans (content_setCollection_of_same h hc hstore hdb place)
  | committed ht hlookup hc c' hstore hsame =>
    obtain ⟨hne, hapart⟩ := htx _ _ ht hlookup
    exact (hsame.content place).trans (hput h hc hstore hne hapart)

/-- Nor does it change another store. -/
theorem Stores.dbMap_of_apart (h : Attached E s) (hs : Stores E s o s') {path : QString}
    (ho : s.WritesOrOpens o → E.directory o.place.1 o.place.2 ≠ some path)
    (htx : ∀ txId t, o.type = .writeTransaction txId → s.transactions.lookup txId = some t →
      E.directory t.place.1 t.place.2 ≠ some path) : s'.dbMap path = s.dbMap path := by
  have hput : ∀ {s₁ : QDocdbServer} {place₁ : Place} {c c' : OpenCollection}, Attached E s₁ →
      s₁.collection? place₁ = some c → c.KeepsStore c' →
      E.directory place₁.1 place₁.2 ≠ some path →
      (s₁.setCollection place₁ c').dbMap path = s₁.dbMap path := by
    intro s₁ place₁ c c' h₁ hc hstore hne
    refine dbMap_setCollection_of_ne fun hB hpath => hne ?_
    rw [← hpath, hstore.path]
    exact (h₁ place₁ c hc (hstore.backend ▸ hB)).1
  cases hs with
  | kept hsame => rw [hsame.dbMap]
  | opened hneeded hsame =>
    rw [hsame.dbMap]
    by_cases hwrites : s.WritesOrOpens o
    · exact dbMap_openCollectionOf_of_ne (ho hwrites)
    · rw [(openCollectionOf_of_not_writesOrOpens hneeded hwrites).1]
  | served hneeded hc c' hstore hdb hsame =>
    rw [hsame.dbMap]
    by_cases hwrites : s.WritesOrOpens o
    · rw [hput h.openCollectionOf hc hstore (ho hwrites),
        dbMap_openCollectionOf_of_ne (ho hwrites)]
    · obtain ⟨hopen, hw⟩ := openCollectionOf_of_not_writesOrOpens (E := E) hneeded hwrites
      rw [hopen] at hc ⊢
      rw [dbMap_setCollection_of_same h hc hstore (hdb.resolve_right fun hw' => ?_)]
      rw [hw] at hw'
      cases hw'
  | unobserved hc c' hstore hdb hsame =>
    rw [hsame.dbMap, dbMap_setCollection_of_same h hc hstore hdb]
  | committed ht hlookup hc c' hstore hsame =>
    rw [hsame.dbMap, hput h hc hstore (htx _ _ ht hlookup)]

end QDocdbServer

end Qdocdb
