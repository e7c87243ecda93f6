import Qdocdb.DocumentMaps
import Qdocdb.Effects
import Qdocdb.SnapshotNumbers

/-!
# The history of the documents

What clients are told is the history of maps of documents, one for each store: a directory, or a
collection in memory. As long as no indexes, snapshots and transactions are asked for, there are
maps before and after each reply that the reply is right for: a search found what satisfies its
query in the map of its store, an insertion and a removal changed one document of it, and nothing
else changed (`history_of_reachable`). So a document that was inserted is found by every search
that is called later, under whatever name of the directory, as long as nobody else names its id
(`foundInserted_of_leads`).
-/

namespace Qdocdb

/-! ## Histories -/

/-- What a collection is stored in: a map of its own, or the directory that its names lead to. -/
inductive StoreName where
  | map (place : Place)
  | levelDB (directory : Option QString)
  deriving DecidableEq

/-- The store of a collection, when those in `M` are kept in memory. -/
def ServerEnv.storeName (E : ServerEnv) (M : Place → Bool) (place : Place) : StoreName :=
  if M place then .map place else .levelDB (E.directory place.1 place.2)

/-- The documents of all stores. -/
abbrev Views : Type := StoreName → View

namespace LinkObjectType

/-- The query and the options of a search. -/
def search? : LinkObjectType → Option (QJsonObject × QJsonObject)
  | find query queryOptions => some (query, queryOptions)
  | findOne query queryOptions => some (query, queryOptions)
  | count query queryOptions => some (query, queryOptions)
  | _ => none

/-- What a search is answered with that comes to these documents. -/
def replyWith (found : List (QJsonValue × QByteArray)) : LinkObjectType → ReplyValue
  | find _ _ => .findReply (found.map Prod.fst)
  | findOne _ _ => .findOneReply (found.head?.elim [] fun p => p.1.toObject)
  | count _ _ => .countReply found.length
  | _ => .unknown

end LinkObjectType

/-- A request inserts or removes a document with its id in `F`, or changes no collection. The
collections in `M` are asked for as collections in memory, and others are not. -/
structure QDocdbLinkObject.AboutDocuments (M : Place → Bool) (F : Set QByteArray)
    (o : QDocdbLinkObject) : Prop where
  inMemory : o.type.collNeeded = true → o.url.inMemory = M o.place
  ids : ∀ op, o.type.document? = some (-1, op) → TxIds F op
  others : o.type.writes = true → o.type.document? ≠ none
  uncommitted : ∀ txId, o.type ≠ .writeTransaction txId

theorem exists_op_of_writes {type : LinkObjectType} (hw : type.writes = true)
    (hdoc : type.document? ≠ none) : ∃ op, type.document? = some (-1, op) := by
  cases type <;> simp_all [LinkObjectType.writes, LinkObjectType.document?]

/-- **A reply is right** for the documents of its collection before and after it. -/
structure RightReply (E : Env) (V V' : View) (o : QDocdbLinkObject) (r : Reply) : Prop where
  written : ∀ op, o.type.document? = some (-1, op) → Tells E V op r V'
  kept : o.type.writes = false → V' = V
  found : ∀ query options, o.type.search? = some (query, options) →
    o.snapshotName = currentName → WellFormed (.object query) → (∀ f ∈ query, f.1 ≠ qs "_id") →
      r.error = [] → ∃ l, View.Lists V query l ∧
        r.value = o.type.replyWith (applyOptions (repliesOf l) options)

/-- The documents behind the replies, from the first to the last one. -/
inductive History (E : ServerEnv) (M : Place → Bool) (V₀ : Views) :
    QDocdbServer.Replies → Views → Prop
  | start : History E M V₀ [] V₀
  | answered {replies : QDocdbServer.Replies} {V : Views} {V' : View} {client : ClientId}
    {o : QDocdbLinkObject} {r : Reply} : History E M V₀ replies V →
      RightReply E.env (V (E.storeName M o.place)) V' o r →
      History E M V₀ (replies ++ [(client, o, r)])
        (Function.update V (E.storeName M o.place) V')

section History

variable {S : ServerEnv} {M : Place → Bool} {E : Env} {V₀ V : Views} {V' : View}
  {replies : QDocdbServer.Replies} {a : ClientId × QDocdbLinkObject × Reply}
  {o : QDocdbLinkObject}

theorem History.of_append_singleton (h : History S M V₀ (replies ++ [a]) V) :
    ∃ V₁ V', History S M V₀ replies V₁ ∧
      RightReply S.env (V₁ (S.storeName M a.2.1.place)) V' a.2.1 a.2.2 := by
  generalize hall : replies ++ [a] = all at h
  cases h with
  | start => simp at hall
  | answered h htold =>
    obtain ⟨rfl, heq⟩ := List.append_inj' hall rfl
    obtain rfl := List.singleton_inj.mp heq
    exact ⟨_, _, h, htold⟩

/-- Each reply is right for the documents at its moment. By induction on the replies behind it. -/
theorem History.of_append_cons {after : QDocdbServer.Replies}
    (h : History S M V₀ (replies ++ a :: after) V) :
    ∃ V₁ V', History S M V₀ replies V₁ ∧
      RightReply S.env (V₁ (S.storeName M a.2.1.place)) V' a.2.1 a.2.2 := by
  induction after using List.reverseRecOn generalizing V with
  | nil => exact h.of_append_singleton
  | append_singleton after b ih =>
    rw [← List.cons_append, ← List.append_assoc] at h
    obtain ⟨V₁, -, h₁, -⟩ := h.of_append_singleton
    exact ih h₁

/-- A request without a transaction that inserts or removes a document with that id. -/
def QDocdbLinkObject.Names (o : QDocdbLinkObject) (id : QByteArray) : Prop :=
  ∃ op, o.type.document? = some (-1, op) ∧ op.id? = some id

/-- The document of an insertion is there, as it is stored. -/
def Present (E : Env) (o : QDocdbLinkObject) (id : QByteArray) (V : View) : Prop :=
  ∃ doc gen overwrite ignoreReadOnlyValue d d',
    o.type = .insert (-1) doc gen overwrite ignoreReadOnlyValue ∧
    Transaction.documentId doc gen = some (id, d) ∧ Transaction.StoredAs E gen d d' ∧
    V id = some d'

/-- What does not name an id leaves it alone. -/
theorem Tells.eq_of_ne {V V' : View} {op : TxOp} {r : Reply} (h : Tells E V op r V')
    {id : QByteArray} (hne : op.id? ≠ some id) : V' id = V id := by
  cases h with
  | inserted hid =>
    rw [TxOp.id?, hid] at hne
    exact Function.update_of_ne (fun heq => hne (congrArg some heq.symm)) _ _
  | notInserted => rfl
  | removed => exact Function.update_of_ne (fun heq => hne (congrArg some heq.symm)) _ _
  | notRemoved => rfl

/-- **Start**: an insertion was told to have gone through. -/
theorem RightReply.present {V : View} {id : QByteArray} {doc : QJsonObject}
    {gen : Transaction.IdGen} {overwrite ignoreReadOnlyValue : Bool}
    (h : RightReply E V V' o ⟨[], .insertReply id⟩)
    (ht : o.type = .insert (-1) doc gen overwrite ignoreReadOnlyValue) : Present E o id V' := by
  have htells := h.written (.insert doc gen overwrite ignoreReadOnlyValue) (by rw [ht]; rfl)
  cases htells with
  | inserted hid hd => exact ⟨_, _, _, _, _, _, ht, hid, hd, Function.update_self ..⟩
  | notInserted hr => cases hr

/-- **Step**: the document stays while nobody else names its id. -/
theorem RightReply.keeps_present {F : Set QByteArray} {V : View} {id : QByteArray}
    {o₁ : QDocdbLinkObject} {r : Reply} (h : RightReply E V V' o₁ r) (ho : o₁.AboutDocuments M F)
    (hother : o₁.Names id → o₁ = o) (hI : Present E o id V) : Present E o id V' := by
  cases hw : o₁.type.writes with
  | false => rwa [h.kept hw]
  | true =>
    obtain ⟨op, hop⟩ := exists_op_of_writes hw (ho.others hw)
    have htells := h.written op hop
    by_cases hid : op.id? = some id
    · -- the same insertion again
      obtain rfl := hother ⟨op, hop, hid⟩
      obtain ⟨doc, gen, overwrite, ignoreReadOnlyValue, d, d', ht, hd, hd', hv⟩ := hI
      rw [ht] at hop
      obtain ⟨-, rfl⟩ := Prod.mk.inj (Option.some.inj hop)
      cases htells with
      | @inserted _ _ _ _ _ _ id' hid' hd₁ =>
        obtain ⟨rfl, rfl⟩ := Prod.mk.inj (Option.some.inj (hid'.symm.trans hd))
        exact ⟨_, _, _, _, _, _, ht, hd, hd₁, Function.update_self ..⟩
      | notInserted => exact ⟨_, _, _, _, _, _, ht, hd, hd', hv⟩
    · obtain ⟨doc, gen, overwrite, ignoreReadOnlyValue, d, d', ht, hd, hd', hv⟩ := hI
      exact ⟨_, _, _, _, _, _, ht, hd, hd', (htells.eq_of_ne hid).trans hv⟩

/-- **Run**: an inserted document is there from then on. By induction on the history. -/
theorem History.present {F : Set QByteArray} (h : History S M V₀ replies V)
    (ho : ∀ a ∈ replies, a.2.1.AboutDocuments M F) {link : ClientId} {id : QByteArray}
    {doc : QJsonObject} {gen : Transaction.IdGen} {overwrite ignoreReadOnlyValue : Bool}
    (ht : o.type = .insert (-1) doc gen overwrite ignoreReadOnlyValue)
    (hother : ∀ a ∈ replies, S.storeName M a.2.1.place = S.storeName M o.place →
      a.2.1.Names id → a.2.1 = o)
    (hmem : (link, o, ⟨[], .insertReply id⟩) ∈ replies) :
    Present S.env o id (V (S.storeName M o.place)) := by
  induction h with
  | start => cases hmem
  | @answered replies V V' client o₁ r h htold ih =>
    have hlast : (client, o₁, r) ∈ replies ++ [(client, o₁, r)] :=
      List.mem_append_right _ (List.mem_singleton_self _)
    have hbefore : (link, o, ⟨[], .insertReply id⟩) ∈ replies →
        Present S.env o id (V (S.storeName M o.place)) :=
      ih (fun a ha => ho a (List.mem_append_left _ ha))
        fun a ha => hother a (List.mem_append_left _ ha)
    by_cases hstore : S.storeName M o.place = S.storeName M o₁.place
    · rw [hstore, Function.update_self]
      rcases List.mem_append.mp hmem with hold | hnew
      · exact (hstore ▸ htold).keeps_present (ho _ hlast) (hother _ hlast hstore.symm)
          (hbefore hold)
      · obtain ⟨rfl, h⟩ := Prod.mk.inj (List.mem_singleton.mp hnew)
        obtain ⟨rfl, rfl⟩ := Prod.mk.inj h
        exact htold.present ht
    · rw [Function.update_of_ne hstore]
      refine hbefore ((List.mem_append.mp hmem).resolve_right fun hnew => hstore ?_)
      obtain ⟨-, h⟩ := Prod.mk.inj (List.mem_singleton.mp hnew)
      rw [(Prod.mk.inj h).1]

end History

/-! ## Collections -/

/-- The collection is in serial use, its number is the last one of the list of snapshots, and it
holds the documents. -/
structure Collection.Holds (F : Set QByteArray) (σ : Collection) (V : View) : Prop where
  serial : SerialInv F σ
  listed : NumbersListed σ
  visible_eq : visible σ.db σ.snapshotId = V

section Holds

variable {E : Env} {F : Set QByteArray} {σ σ' : Collection} {V : View}

theorem Collection.Holds.congr (h : σ.Holds F V) (hdb : σ'.db = σ.db)
    (hs : σ'.snapshotId = σ.snapshotId) : σ'.Holds F V where
  serial := by
    change SerialStore F σ'.snapshotId σ'.db
    rw [hdb, hs]
    exact h.serial
  listed := h.listed.congr (by rw [hdb]) hs
  visible_eq := by rw [hdb, hs, h.visible_eq]

/-- Opening the store again finds the same documents. -/
theorem Collection.Holds.open (h : σ.Holds F V) : (Collection.open E σ.db).Holds F V :=
  h.congr (h.listed.open (E := E)).1 (h.listed.open (E := E)).2

/-- An empty store holds no documents. -/
theorem Collection.holds_open_empty : (Collection.open E .empty).Holds F fun _ => none where
  serial := serialInv_open
  listed := numbersListed_open
  visible_eq := by
    refine funext fun id => visible_eq_none_of_forall fun t _ => ?_
    rw [(Collection.open_empty (E := E)).1,
      SortedMap.find?_insert_of_ne _ _ (isKeyOf_linkKey id t).ne_snapshotsKey,
      SortedMap.find?_empty]

/-- Two collections on one store have the same number. -/
theorem NumbersListed.snapshotId_eq (h : NumbersListed σ) (h' : NumbersListed σ')
    (hdb : σ'.db = σ.db) : σ'.snapshotId = σ.snapshotId := by
  obtain ⟨names, hnames, hs⟩ := h
  obtain ⟨names', hnames', hs'⟩ := h'
  rw [hdb, hnames] at hnames'
  obtain rfl := List.append_cancel_right (Blob.snapshots.inj (Option.some.inj hnames'))
  rw [hs, hs']

end Holds

/-- **What is found** when a server starts: each directory can hold a store in serial use without
indexes, with these documents, and collections in memory are empty. -/
structure Stored (E : ServerEnv) (F : Set QByteArray) (V₀ : Views) : Prop where
  levelDB : ∀ path db, E.openStore path = some db →
    (Collection.open (E.env.on .levelDB) db).Holds F (V₀ (.levelDB (some path)))
  map : ∀ place, V₀ (.map place) = fun _ => none

/-- The collections that are open hold the documents, and so do others when they are opened. -/
structure HoldsViews (E : ServerEnv) (M : Place → Bool) (F : Set QByteArray) (V : Views)
    (s : QDocdbServer) : Prop where
  attached : s.Attached E
  backend : ∀ place c, s.collection? place = some c →
    c.backend = if M place then .map else .levelDB
  opened : ∀ place c, s.collection? place = some c → c.coll.Holds F (V (E.storeName M place))
  stored : ∀ path db, (s.dbMap path).or (E.openStore path) = some db →
    (Collection.open (E.env.on .levelDB) db).Holds F (V (.levelDB (some path)))
  empty : ∀ place, s.collection? place = none → V (.map place) = fun _ => none

theorem Stored.holdsViews {E : ServerEnv} {M : Place → Bool} {F : Set QByteArray} {V₀ : Views}
    (h : Stored E F V₀) : HoldsViews E M F V₀ .init where
  attached := fun place c hc => by cases hc
  backend := fun place c hc => by cases hc
  opened := fun place c hc => by cases hc
  stored := h.levelDB
  empty := fun place _ => h.map place

namespace HoldsViews

open QDocdbServer

variable {E : ServerEnv} {M : Place → Bool} {F : Set QByteArray} {V : Views} {V' : View}
  {s s' : QDocdbServer} {client : ClientId} {o : QDocdbLinkObject} {place : Place}
  {c c' : OpenCollection}

theorem congr (h : HoldsViews E M F V s) (hsame : SameStores s s') : HoldsViews E M F V s' where
  attached := h.attached.congr hsame
  backend := fun place c hc => h.backend place c (hsame.collection? place ▸ hc)
  opened := fun place c hc => h.opened place c (hsame.collection? place ▸ hc)
  stored := fun path db hdb => h.stored path db (hsame.dbMap ▸ hdb)
  empty := fun place hc => h.empty place (hsame.collection? place ▸ hc)

/-- Collections share a store if and only if it has one name. -/
theorem shares_iff (h : HoldsViews E M F V s) {place' : Place} (hne : place' ≠ place)
    (hc' : s.collection? place' = some c')
    (hB : c.backend = if M place then .map else .levelDB)
    (hpath : c.backend = .levelDB → E.directory place.1 place.2 = some c.path) :
    c'.Shares c ↔ E.storeName M place' = E.storeName M place := by
  have hB' := h.backend place' c' hc'
  rw [ServerEnv.storeName, ServerEnv.storeName]
  cases hM : M place <;> cases hM' : M place' <;> rw [hM] at hB <;> rw [hM'] at hB'
  · have hpath := hpath hB
    obtain ⟨hpath', -⟩ := h.attached place' c' hc' hB'
    simp [OpenCollection.Shares, hB, hB', hpath, hpath']
  · simp [OpenCollection.Shares, hB']
  · simp [OpenCollection.Shares, hB]
  · simp [OpenCollection.Shares, hB, hne]

/-- **A collection is put in its place**, with other documents. -/
theorem setCollection (h : HoldsViews E M F V s)
    (hB : c.backend = if M place then .map else .levelDB)
    (hpath : c.backend = .levelDB → E.directory place.1 place.2 = some c.path)
    (hs : ∀ place' c', s.collection? place' = some c' → c'.Shares c →
      c'.coll.snapshotId = c.coll.snapshotId)
    (hc : c.coll.Holds F V') :
    HoldsViews E M F (Function.update V (E.storeName M place) V') (s.setCollection place c) where
  attached := h.attached.setCollection hpath
  backend := fun place' c' hc' => by
    rcases collection?_of_setCollection hc' with ⟨rfl, rfl⟩ | ⟨-, c₀, hc₀, rfl⟩
    · exact hB
    · rw [OpenCollection.backend_sharingWith]
      exact h.backend place' c₀ hc₀
  opened := fun place' c' hc' => by
    rcases collection?_of_setCollection hc' with ⟨rfl, rfl⟩ | ⟨hne, c₀, hc₀, rfl⟩
    · rw [Function.update_self]
      exact hc.congr rfl rfl
    · have hiff := h.shares_iff hne hc₀ hB hpath
      by_cases hshares : c₀.Shares c
      · rw [hiff.mp hshares, Function.update_self]
        have hdb : (c₀.sharingWith c).coll.db = c.coll.db := by
          rw [OpenCollection.db_sharingWith, if_pos hshares]
        have hid : (c₀.sharingWith c).coll.snapshotId = c.coll.snapshotId := by
          rw [OpenCollection.snapshotId_sharingWith]
          exact hs place' c₀ hc₀ hshares
        exact hc.congr hdb hid
      · rw [OpenCollection.sharingWith_of_not_shares hshares,
          Function.update_of_ne (mt hiff.mpr hshares)]
        exact h.opened place' c₀ hc₀
  stored := fun path db hdb => by
    cases hM : M place with
    | true =>
      rw [hM] at hB
      rw [dbMap_setCollection_of_map hB] at hdb
      have hname : StoreName.levelDB (some path) ≠ E.storeName M place := by
        simp [ServerEnv.storeName, hM]
      rw [Function.update_of_ne hname]
      exact h.stored path db hdb
    | false =>
      rw [hM] at hB
      have hname : E.storeName M place = .levelDB (some c.path) := by
        simp [ServerEnv.storeName, hM, hpath hB]
      rw [dbMap_setCollection_of_levelDB hB] at hdb
      rw [hname]
      by_cases heq : path = c.path
      · rw [heq, Function.update_self, Option.some_or] at hdb
        obtain rfl := Option.some.inj hdb
        rw [heq, Function.update_self]
        exact hc.open
      · rw [Function.update_of_ne heq] at hdb
        rw [Function.update_of_ne (by simpa using heq)]
        exact h.stored path db hdb
  empty := fun place' hc' => by
    rw [collection?_setCollection] at hc'
    split at hc'
    · cases hc'
    · rename_i hne
      have hname : StoreName.map place' ≠ E.storeName M place := by
        rw [ServerEnv.storeName]
        split
        · exact fun heq => hne (StoreName.map.inj heq)
        · exact fun heq => by cases heq
      rw [Function.update_of_ne hname]
      exact h.empty place' (Option.map_eq_none_iff.mp hc')

/-- Collections on the store of an open one have its number. -/
theorem snapshotId_eq (h : HoldsViews E M F V s) (hc : s.collection? place = some c)
    {place' : Place} (hc' : s.collection? place' = some c') (hshares : c'.Shares c) :
    c'.coll.snapshotId = c.coll.snapshotId := by
  obtain ⟨hB, hB', hpath⟩ := hshares
  have hdb := (h.attached place c hc hB).2
  have hdb' := (h.attached place' c' hc' hB').2
  rw [hpath, hdb] at hdb'
  exact (h.opened place c hc).listed.snapshotId_eq (h.opened place' c' hc').listed
    (Option.some.inj hdb').symm

/-- An open collection is put back, with other documents. -/
theorem putBack (h : HoldsViews E M F V s) (hc : s.collection? place = some c)
    (hstore : c.KeepsStore c') (hs : c'.coll.snapshotId = c.coll.snapshotId)
    (hc' : c'.coll.Holds F V') :
    HoldsViews E M F (Function.update V (E.storeName M place) V') (s.setCollection place c') := by
  refine h.setCollection (hstore.backend ▸ h.backend place c hc) (fun hB => ?_) ?_ hc'
  · rw [hstore.path]
    exact (h.attached place c hc (hstore.backend ▸ hB)).1
  · intro place₁ c₁ hc₁ hshares
    rw [hs]
    refine h.snapshotId_eq hc hc₁ ⟨?_, hshares.2.1, ?_⟩
    · rw [← hstore.backend]
      exact hshares.1
    · rw [← hstore.path]
      exact hshares.2.2

/-- A collection is put back without a change of its documents. -/
theorem putBack_same (h : HoldsViews E M F V s) (hc : s.collection? place = some c)
    (hstore : c.KeepsStore c') (hread : OnlyRead c c') :
    HoldsViews E M F V (s.setCollection place c') := by
  have hput := h.putBack hc hstore hread.snapshotId
    ((h.opened place c hc).congr hread.db hread.snapshotId)
  rwa [Function.update_eq_self] at hput

theorem openCollectionOf (h : HoldsViews E M F V s)
    (ho : o.url.inMemory = M o.place) : HoldsViews E M F V (s.openCollectionOf E o) := by
  rcases openCollectionOf_cases E s o with heq | ⟨hnone, B, path, db, hopens, heq⟩
  · rwa [heq]
  · have hB := backend_of_opened hnone heq
    rw [ho] at hB
    rw [heq]
    have hset : HoldsViews E M F (Function.update V (E.storeName M o.place)
        (V (E.storeName M o.place)))
        (s.setCollection o.place ⟨B, path, Collection.open (E.env.on B) db⟩) := by
      refine h.setCollection hB (fun hlevelDB => ?_) (fun place c hc hshares => ?_) ?_
      · obtain rfl : B = .levelDB := hlevelDB
        exact hopens.1
      · obtain ⟨hlevelDB, hB', hpath⟩ := hshares
        obtain rfl : B = .levelDB := hlevelDB
        obtain rfl : c.path = path := hpath
        -- the store of an open collection is opened again
        have hdb := (h.attached place c hc hB').2
        have hopen := hopens.2
        rw [hdb, Option.some_or] at hopen
        obtain rfl := Option.some.inj hopen
        exact (h.opened place c hc).listed.open.2.symm
      · cases B with
        | map =>
          obtain rfl : db = .empty := hopens
          have hM : M o.place = true := by
            by_contra hM
            rw [Bool.not_eq_true] at hM
            rw [hM] at hB
            cases hB
          rw [ServerEnv.storeName, hM, if_pos rfl, h.empty o.place hnone]
          exact Collection.holds_open_empty
        | levelDB =>
          have hM : M o.place = false := by
            by_contra hM
            rw [Bool.not_eq_false] at hM
            rw [hM] at hB
            cases hB
          rw [ServerEnv.storeName, hM, if_neg (by simp), hopens.1]
          exact h.stored path db hopens.2
    rwa [Function.update_eq_self] at hset

theorem unobserve (h : HoldsViews E M F V s) (observeId : ℤ) :
    HoldsViews E M F V (s.unobserve client observeId).1 := by
  have hat : ∀ place, HoldsViews E M F V (s.unobserveAt place observeId) := by
    intro place
    rw [QDocdbServer.unobserveAt]
    split
    · rename_i c hc
      have hput : HoldsViews E M F V
          (s.setCollection place { c with coll := c.coll.unobserve observeId }) :=
        h.putBack_same hc ⟨rfl, rfl⟩ ⟨rfl, rfl⟩
      exact hput.congr ⟨fun _ => rfl, rfl⟩
    · exact h.congr ⟨fun _ => rfl, rfl⟩
  rw [QDocdbServer.unobserve]
  split
  · exact h.congr ⟨fun _ => rfl, rfl⟩
  · split
    · exact h.congr ⟨fun _ => rfl, rfl⟩
    · split
      · exact (hat _).congr ⟨fun _ => rfl, rfl⟩
      · exact h.congr ⟨fun _ => rfl, rfl⟩

theorem clientRemoved (h : HoldsViews E M F V s) :
    HoldsViews E M F V (s.clientRemoved client) where
  attached := h.attached.clientRemoved
  backend := fun place c hc => by
    rw [collection?_clientRemoved] at hc
    obtain ⟨c₀, hc₀, rfl⟩ := Option.map_eq_some_iff.mp hc
    exact h.backend place c₀ hc₀
  opened := fun place c hc => by
    rw [collection?_clientRemoved] at hc
    obtain ⟨c₀, hc₀, rfl⟩ := Option.map_eq_some_iff.mp hc
    exact (h.opened place c₀ hc₀).congr rfl rfl
  stored := h.stored
  empty := fun place hc => by
    rw [collection?_clientRemoved, Option.map_eq_none_iff] at hc
    exact h.empty place hc

end HoldsViews

/-! ## Serving -/

namespace QDocdbServer

variable {E : ServerEnv} {M : Place → Bool} {F : Set QByteArray} {V : Views}
  {s s' : QDocdbServer} {client : ClientId} {o : QDocdbLinkObject}

/-- A search without an error got to its collection. -/
theorem getsTo_of_search {p : QDocdbServer × Reply} (hs : s.serve E client o = some p)
    {query options : QJsonObject} (hsearch : o.type.search? = some (query, options))
    (hr : p.2.error = []) : ∃ c, GetsTo E s o c := by
  have hserve : s.serve E client o =
      if (s.databases o.url.dbName).isNone then some (s, .cannotOpenDatabase o.url.dbName)
      else if o.url.collName = [] then some (s, .emptyCollectionName)
      else ((s.openCollectionOf E o).collection? o.place).elim
        (some (s.openCollectionOf E o, .cannotOpenCollection o.url.collName o.url.dbName))
        fun c => (s.openCollectionOf E o).serveCollection E client o o.place c := by
    rw [serve]
    cases htype : o.type <;> rw [htype] at hsearch <;> first
      | dsimp only
        cases (s.openCollectionOf E o).collection? o.place <;> rfl
      | cases hsearch
  rw [hserve] at hs
  split at hs
  · obtain rfl := Option.some.inj hs
    simp [Reply.cannotOpenDatabase, Reply.ofError, qs] at hr
  · rename_i hdb
    split at hs
    · obtain rfl := Option.some.inj hs
      simp [Reply.emptyCollectionName, Reply.ofError, qs] at hr
    · rename_i hname
      cases hc : (s.openCollectionOf E o).collection? o.place with
      | none =>
        rw [hc] at hs
        obtain rfl := Option.some.inj hs
        simp [Reply.cannotOpenCollection, Reply.ofError, qs] at hr
      | some c =>
        exact ⟨c, Option.isSome_iff_ne_none.mpr fun hnone => hdb (by rw [hnone]; rfl), hname, hc⟩

/-- **A search** finds the documents of its store. -/
theorem found_of_serve (hF : PlainIds F) (h : HoldsViews E M F V s)
    (ho : o.AboutDocuments M F) {p : QDocdbServer × Reply}
    (hs : s.serve E client o = some p) {query options : QJsonObject}
    (hsearch : o.type.search? = some (query, options)) (hname : o.snapshotName = currentName)
    (hq : WellFormed (.object query)) (hid : ∀ f ∈ query, f.1 ≠ qs "_id") (hr : p.2.error = []) :
    ∃ l, View.Lists (V (E.storeName M o.place)) query l ∧
      p.2.value = o.type.replyWith (applyOptions (repliesOf l) options) := by
  obtain ⟨c, hc⟩ := getsTo_of_search hs hsearch hr
  have hneeded : o.type.collNeeded = true := by
    cases htype : o.type <;> rw [htype] at hsearch <;> first | rfl | cases hsearch
  obtain ⟨hserial, -, hview⟩ :=
    (h.openCollectionOf (ho.inMemory hneeded)).opened o.place c hc.collection
  obtain ⟨l, hl, hfind⟩ := hserial.search (E := E.env.on c.backend) hF hq hid options
  rw [hview] at hl
  refine ⟨l, hl, ?_⟩
  have hreader : readerOf E c o.snapshotName = c.coll.reader (E.env.on c.backend) := if_pos hname
  have hdoc : o.type.document? = none := by
    cases htype : o.type <;> rw [htype] at hsearch <;> first | rfl | cases hsearch
  have hread : (readResult E c o.snapshotName o.type).isSome = true := by
    cases htype : o.type <;> rw [htype] at hsearch <;> first | rfl | cases hsearch
  rw [serve_of_onCollection client hc hdoc (.inr (.inl hread))] at hs
  obtain ⟨⟨c', r⟩, hon, rfl⟩ := Option.map_eq_some_iff.mp hs
  cases htype : o.type with
  | find q qo =>
    rw [htype] at hsearch hon
    obtain ⟨rfl, rfl⟩ := Prod.mk.inj (Option.some.inj hsearch)
    rw [onCollection, hreader, hfind] at hon
    obtain ⟨-, rfl⟩ := Prod.mk.inj (Option.some.inj hon)
    rfl
  | findOne q qo =>
    rw [htype] at hsearch hon
    obtain ⟨rfl, rfl⟩ := Prod.mk.inj (Option.some.inj hsearch)
    rw [onCollection, hreader, findOne, hfind] at hon
    obtain ⟨-, rfl⟩ := Prod.mk.inj (Option.some.inj hon)
    cases applyOptions (repliesOf l) qo <;> rfl
  | count q qo =>
    rw [htype] at hsearch hon
    obtain ⟨rfl, rfl⟩ := Prod.mk.inj (Option.some.inj hsearch)
    rw [onCollection, hreader, count, hfind] at hon
    obtain ⟨-, rfl⟩ := Prod.mk.inj (Option.some.inj hon)
    rfl
  | _ =>
    rw [htype] at hsearch
    cases hsearch

/-- The store behind a collection is not seen in what is told. -/
theorem tells_of_on {E : Env} {B : Backend} {V V' : View} {op : TxOp} {r : Reply}
    (h : Tells (E.on B) V op r V') : Tells E V op r V' := by
  cases h with
  | inserted hid ho hnew => exact .inserted hid ho hnew
  | notInserted hr => exact .notInserted hr
  | removed => exact .removed
  | notRemoved hr => exact .notRemoved hr

/-- A request that fails changes no document. -/
theorem tells_of_error {E : Env} {V : View} {op : TxOp} (hop : TxIds F op) {e : QString}
    (he : e ≠ []) : Tells E V op (.ofError e) V := by
  cases op with
  | insert => exact .notInserted rfl
  | removeById => exact .notRemoved (.inl he)
  | _ => exact hop.elim

/-- An operation in a transaction of its own. -/
theorem tells_autoCommit (hF : PlainIds F) {c : OpenCollection} {V : View}
    (hc : c.coll.Holds F V) {op : TxOp} (hop : TxIds F op) (place : Place) :
    Tells E.env V op (s.autoCommit E place c op).2
        (visible (c.coll.transact (E.env.on c.backend) op).2.db c.coll.snapshotId) ∧
      (c.coll.transact (E.env.on c.backend) op).2.snapshotId = c.coll.snapshotId ∧
      (c.coll.transact (E.env.on c.backend) op).2.Holds F
        (visible (c.coll.transact (E.env.on c.backend) op).2.db c.coll.snapshotId) := by
  obtain ⟨hserial, hlisted, rfl⟩ := hc
  have hops : ∀ op' ∈ [op], TxIds F op' := List.forall_mem_singleton.mpr hop
  have hid := (hserial.transactAll (E := E.env.on c.backend) hF hops).2
  rw [Collection.transactAll_singleton] at hid
  refine ⟨?_, hid, serialInv_transactAll hF hserial [op] hops, ?_, congrArg _ hid⟩
  · have htells := hserial.tells (E := E.env.on c.backend) hF hop
    have hsuccess := hserial.writeTransaction_success (E := E.env.on c.backend) hF hop
    rw [autoCommit]
    dsimp only
    rw [if_pos hsuccess]
    exact tells_of_on htells
  · exact hlisted.transactAll fun op' (hop' : op' ∈ [op]) => (hops op' hop').onDocuments

/-- **Step** -/
theorem told_of_serve (hF : PlainIds F) (h : HoldsViews E M F V s) (ho : o.AboutDocuments M F)
    {p : QDocdbServer × Reply} (hs : s.serve E client o = some p) :
    ∃ V', RightReply E.env (V (E.storeName M o.place)) V' o p.2 ∧
      HoldsViews E M F (Function.update V (E.storeName M o.place) V') p.1 := by
  have hfound := fun query options hsearch hname hq hid hr =>
    @found_of_serve E M F V s client o hF h ho p hs query options hsearch hname hq hid hr
  -- the documents stay, and an operation without a transaction was refused
  have hkept : (∀ op, o.type.document? = some (-1, op) →
      Tells E.env (V (E.storeName M o.place)) op p.2 (V (E.storeName M o.place))) →
      HoldsViews E M F V p.1 →
      ∃ V', RightReply E.env (V (E.storeName M o.place)) V' o p.2 ∧
        HoldsViews E M F (Function.update V (E.storeName M o.place) V') p.1 :=
    fun htold hholds =>
      ⟨V (E.storeName M o.place), ⟨htold, fun _ => rfl, hfound⟩,
        by rwa [Function.update_eq_self]⟩
  have hother : o.type.document? = none → HoldsViews E M F V p.1 →
      ∃ V', RightReply E.env (V (E.storeName M o.place)) V' o p.2 ∧
        HoldsViews E M F (Function.update V (E.storeName M o.place) V') p.1 := fun hnone =>
    hkept fun op hop => by rw [hnone] at hop; cases hop
  have hopen : o.type.collNeeded = true → HoldsViews E M F V (s.openCollectionOf E o) :=
    fun hneeded => h.openCollectionOf (ho.inMemory hneeded)
  cases served_of_serve hs with
  | writeTransaction ht => exact absurd ht (ho.uncommitted _)
  | discardTransaction ht =>
    refine hother (by rw [ht]; rfl) ?_
    rw [discardTransaction]
    split <;> exact h.congr ⟨fun _ => rfl, rfl⟩
  | unobserve ht =>
    exact hother (by rw [ht]; rfl) (h.unobserve _)
  | cannotOpenDatabase _ =>
    exact hkept (fun op hop => tells_of_error (ho.ids op hop) (by simp [qs])) h
  | exclusiveLock ht =>
    refine hother (by rw [ht]; rfl) ?_
    rw [exclusiveLock]
    split <;> exact h.congr ⟨fun _ => rfl, rfl⟩
  | unlock ht =>
    refine hother (by rw [ht]; rfl) ?_
    rw [unlock]
    split
    · exact h
    · split <;> exact h.congr ⟨fun _ => rfl, rfl⟩
  | emptyCollectionName _ =>
    exact hkept (fun op hop => tells_of_error (ho.ids op hop) (by simp [qs])) h
  | cannotOpenCollection hneeded =>
    exact hkept (fun op hop => tells_of_error (ho.ids op hop) (by simp [qs])) (hopen hneeded)
  | @autoCommit op c ht hc =>
    have hopen := hopen (collNeeded_of_document ht)
    obtain ⟨htells, hid, hholds⟩ := tells_autoCommit (s := s.openCollectionOf E o) hF
      (hopen.opened o.place c hc) (ho.ids op ht) o.place
    have hput : HoldsViews E M F _ ((s.openCollectionOf E o).setCollection o.place
        { c with coll := (c.coll.transact (E.env.on c.backend) op).2 }) :=
      hopen.putBack hc ⟨rfl, rfl⟩ hid hholds
    refine ⟨_, ⟨fun op' hop => ?_, fun hw => ?_, hfound⟩, hput⟩
    · obtain ⟨-, rfl⟩ := Prod.mk.inj (Option.some.inj (ht.symm.trans hop))
      exact htells
    · rw [writes_of_document ht] at hw
      cases hw
  | operation ht hne =>
    have hopen := hopen (collNeeded_of_document ht)
    refine hkept (fun op hop => ?_) ?_
    · exact absurd (Prod.mk.inj (Option.some.inj (ht.symm.trans hop))).1 hne
    · rw [QDocdbServer.operation]
      split
      · exact hopen
      · split <;> exact hopen.congr ⟨fun _ => rfl, rfl⟩
  | newTransaction ht hc =>
    exact hother (by rw [ht]; rfl) ((hopen (by rw [ht]; rfl)).congr ⟨fun _ => rfl, rfl⟩)
  | @observe query queryOptions preferedId c ht hc =>
    have hread := onlyRead_observe (E.env.on c.backend) c query queryOptions preferedId
      (s.openCollectionOf E o).nextNumber
    have hput : HoldsViews E M F V ((s.openCollectionOf E o).setCollection o.place
        { c with coll := (c.coll.observe (E.env.on c.backend) query queryOptions preferedId
          (s.openCollectionOf E o).nextNumber).2.2 }) :=
      (hopen (by rw [ht]; rfl)).putBack_same hc ⟨rfl, rfl⟩ hread
    exact hother (by rw [ht]; rfl) (hput.congr ⟨fun _ => rfl, rfl⟩)
  | onCollection hneeded hdoc hnew hobserve hc hr =>
    have hw : o.type.writes = false := Bool.eq_false_iff.mpr fun hw => ho.others hw hdoc
    exact hother hdoc
      ((hopen hneeded).putBack_same hc (keepsStore_onCollection hr) (onlyRead_onCollection hr hw))

/-- **Run** of a server without connections. -/
theorem history_of_yields (hF : PlainIds F) {V₀ : Views} (h : HoldsViews E M F V₀ s)
    {replies : Replies} (hrun : Yields (Act.step E) s replies s')
    (ho : ∀ a ∈ replies, a.2.1.AboutDocuments M F) :
    ∃ V, History E M V₀ replies V ∧ HoldsViews E M F V s' := by
  refine hrun.invariant (P := fun replies s => (∀ a ∈ replies, a.2.1.AboutDocuments M F) →
    ∃ V, History E M V₀ replies V ∧ HoldsViews E M F V s) ?_ (fun _ => ⟨V₀, .start, h⟩) ho
  intro s s' a before outputs ih hs ho
  obtain ⟨V, hhistory, hholds⟩ := ih fun a ha => ho a (List.mem_append_left _ ha)
  cases a with
  | opened o =>
    obtain ⟨rfl, rfl⟩ := Prod.mk.inj (Option.some.inj hs)
    exact ⟨V, by rwa [List.append_nil], hholds.congr sameStores_openDatabaseOf⟩
  | served client o =>
    rw [Act.step] at hs
    split at hs
    · cases hs
    · obtain ⟨p, hp, heq⟩ := Option.map_eq_some_iff.mp hs
      obtain ⟨rfl, rfl⟩ := Prod.mk.inj heq
      obtain ⟨V', htold, hholds'⟩ := told_of_serve hF (hholds.congr sameStores_openDatabaseOf)
        (ho (client, o, p.2) (List.mem_append_right _ (List.mem_singleton_self _))) hp
      exact ⟨_, .answered hhistory htold, hholds'.congr ⟨fun _ => rfl, rfl⟩⟩
  | removed client =>
    obtain ⟨rfl, rfl⟩ := Prod.mk.inj (Option.some.inj hs)
    exact ⟨V, by rwa [List.append_nil], hholds.clientRemoved.congr ⟨fun _ => rfl, rfl⟩⟩

end QDocdbServer

/-! ## Clients -/

namespace Network

variable {E : ServerEnv} {M : Place → Bool} {F : Set QByteArray} {V₀ : Views}
  {ok : Network → NetworkEvent → Prop} {N N' : Network}

theorem exists_history (hF : PlainIds F) (hE : Stored E F V₀) (hN : NetworkReachable E ok N)
    (ho : ∀ a ∈ N.server.replies, a.2.1.AboutDocuments M F) :
    ∃ V, History E M V₀ N.server.replies V ∧ HoldsViews E M F V N.server.core := by
  obtain ⟨_, hinit⟩ := hN.leads_init
  obtain ⟨answers, hyields, hreplies⟩ := follows_of_leads hinit
  rw [hreplies] at ho ⊢
  exact QDocdbServer.history_of_yields hF (hE.holdsViews.congr ⟨fun _ => rfl, rfl⟩) hyields ho

/-- **The documents behind a network**: whatever clients do, as long as what was answered is about
documents only, the replies are the history of maps of documents, and the collections hold what
has become of them. -/
theorem history_of_reachable (hF : PlainIds F) (hE : Stored E F V₀)
    (hN : NetworkReachable E ok N) (ho : ∀ a ∈ N.server.replies, a.2.1.AboutDocuments M F) :
    ∃ V, History E M V₀ N.server.replies V ∧
      ∀ place c, N.server.collection? place = some c →
        visible c.coll.db c.coll.snapshotId = V (E.storeName M place) := by
  obtain ⟨V, hhistory, hholds⟩ := exists_history hF hE hN ho
  exact ⟨V, hhistory, fun place c hc => (hholds.opened place c hc).visible_eq⟩

/-- **Inserted documents are found**: when an insertion has returned its id and nobody else names
this id in its store, every search of the store that is called later finds the document if and
only if it satisfies the query, whatever else is inserted and removed in between. -/
theorem foundInserted_of_leads (hF : PlainIds F) (hE : Stored E F V₀)
    (hN : NetworkReachable E FewCalls N) (h : NetworkLeads E FewCalls N N')
    (ho : ∀ a ∈ N'.server.replies, a.2.1.AboutDocuments M F) {link link' : ClientId}
    {o o' : QDocdbLinkObject} {doc : QJsonObject} {gen : Transaction.IdGen}
    {overwrite ignoreReadOnlyValue : Bool} {id : QByteArray}
    (ht : o.type = .insert (-1) doc gen overwrite ignoreReadOnlyValue)
    (hinserted : N.Answered link o ⟨[], .insertReply id⟩)
    (hother : ∀ a ∈ N'.server.replies, E.storeName M a.2.1.place = E.storeName M o.place →
      a.2.1.Names id → a.2.1 = o)
    {query queryOptions : QJsonObject} {docs : List QJsonValue}
    (ht' : o'.type = .find query queryOptions)
    (hstore : E.storeName M o'.place = E.storeName M o.place)
    (hname : o'.snapshotName = currentName) (hq : WellFormed (.object query))
    (hid : ∀ f ∈ query, f.1 ≠ qs "_id") (hlimit : limitOf queryOptions = none)
    (hnew : o' ∉ N.requests link') (hfound : N'.Answered link' o' ⟨[], .findReply docs⟩) :
    ∃ d d', Transaction.documentId doc gen = some (id, d) ∧ Transaction.StoredAs E.env gen d d' ∧
      (.object d' ∈ docs ↔ Sat (.object query) (.object d')) := by
  have hok := networkOk_of_reachable hN
  have hok' := networkOk_of_reachable (hN.leads h)
  obtain ⟨answers, -, hreplies⟩ := follows_of_leads h
  have hmem := hok.mem_answers hok' hreplies hfound hnew
  obtain ⟨before, after, rfl⟩ := List.append_of_mem hmem
  obtain ⟨V, hhistory, -⟩ := exists_history hF hE (hN.leads h) ho
  rw [hreplies] at ho hother
  rw [hreplies, ← List.append_assoc] at hhistory
  obtain ⟨V₁, V', hbehind, hright⟩ := hhistory.of_append_cons
  -- the document is there when the search is served
  have hsub : ∀ a ∈ N.server.replies ++ before,
      a ∈ N.server.replies ++ (before ++ (link', o', ⟨[], .findReply docs⟩) :: after) := by
    intro a ha
    rw [← List.append_assoc]
    exact List.mem_append_left _ ha
  have hthere := hbehind.present (fun a ha => ho a (hsub a ha)) ht
    (fun a ha => hother a (hsub a ha)) (List.mem_append_left _ (hok.mem_replies hinserted))
  obtain ⟨_, _, _, _, d, d', ht₁, hd, hd', hv⟩ := hthere
  obtain ⟨-, rfl, rfl, -, -⟩ := LinkObjectType.insert.inj (ht.symm.trans ht₁)
  obtain ⟨l, hl, hvalue⟩ := hright.found query queryOptions (by rw [ht']; rfl) hname hq hid rfl
  rw [ht'] at hvalue
  obtain rfl := ReplyValue.findReply.inj hvalue
  refine ⟨d, d', hd, hd', ?_⟩
  -- the options only sort what was found
  obtain ⟨sorted, hperm, hoptions⟩ := exists_perm_applyOptions (repliesOf l) queryOptions
  rw [hstore] at hl
  rw [hoptions, hlimit, cut, (hperm.map Prod.fst).mem_iff, repliesOf, List.map_map, List.mem_map]
  constructor
  · rintro ⟨⟨id', d₁⟩, hmem, heq⟩
    obtain rfl := QJsonValue.object.inj heq
    exact ((hl.mem id' _).mp hmem).2
  · exact fun hsat => ⟨(id, d'), (hl.mem id d').mpr ⟨hv, hsat⟩, rfl⟩

/-! ## An insertion and a search -/

theorem stored_emptyServerEnv (F : Set QByteArray) :
    Stored QDocdbServer.emptyServerEnv F fun _ _ => none where
  levelDB := fun path db hdb => by
    obtain rfl := Option.some.inj hdb
    exact Collection.holds_open_empty
  map := fun _ => rfl

/-- The insertion of the document `a`, as the first call. -/
def insertA : QDocdbLinkObject :=
  ⟨1, 0, .of (qs "D/x") (qs "c"), currentName, QDocdbServer.insertAIn (-1)⟩

/-- A search for all documents, as the second call, under another name of the directory. -/
def findAll : QDocdbLinkObject := ⟨2, 1, .of (qs "D") (qs "x/c"), currentName, .find [] []⟩

/-- The client inserts the document `a`. -/
def insertsA : List NetworkEvent :=
  [.connect 0 0, .accept 0,
    .call 0 { CallState.findC with url := insertA.url, type := insertA.type }, .request 0,
    .deliver 0, .client 0 .returned]

/-- The client finds all documents. -/
def findsAll : List NetworkEvent :=
  [.call 0 { CallState.findC with url := findAll.url }, .request 0, .deliver 0,
    .client 0 .returned]

theorem aboutDocuments_insertA : insertA.AboutDocuments (fun _ => false) oneByteIds where
  inMemory := fun _ => rfl
  ids := fun op hop => by
    obtain ⟨-, rfl⟩ := Prod.mk.inj (Option.some.inj hop)
    intro id d hid
    obtain rfl : bytes "a" = id := (Prod.mk.inj (Option.some.inj hid)).1
    decide
  others := fun _ hnone => by cases hnone
  uncommitted := fun _ ht => by cases ht

theorem aboutDocuments_findAll : findAll.AboutDocuments (fun _ => false) oneByteIds where
  inMemory := fun _ => rfl
  ids := fun op hop => by cases hop
  others := fun hw => by cases hw
  uncommitted := fun _ ht => by cases ht

/-- The calls of a client that returned: the connections, the requests and the replies. -/
def returns (N : Network) (p : ℕ) : List (ClientId × QDocdbLinkObject × Option Reply) :=
  (N.clients p).returned.map fun w => (w.1.link, w.1.linkObject, w.2)

theorem answered_of_mem_returns {p : ℕ} {link : ClientId} {o : QDocdbLinkObject} {r : Reply}
    (h : (link, o, some r) ∈ N.returns p) (hr : r.error ≠ qs "canceled") : N.Answered link o r := by
  obtain ⟨⟨w, r'⟩, hw, heq⟩ := List.mem_map.mp h
  obtain ⟨hlink, heq⟩ := Prod.mk.inj heq
  obtain ⟨ho, hr'⟩ := Prod.mk.inj heq
  obtain rfl : r' = some r := hr'
  exact ⟨p, w, hw, hr, hlink, ho⟩

/-- The document `a` is inserted. -/
theorem exists_insertsA : ∃ N,
    handleAll QDocdbServer.emptyServerEnv (init fun _ => false) insertsA = some N ∧
      N.returns 0 = [(0, insertA, some ⟨[], .insertReply (bytes "a")⟩)] ∧
      N.requests 0 = [insertA] := by
  obtain ⟨N, hN⟩ := Option.isSome_iff_exists.mp
    (show (handleAll QDocdbServer.emptyServerEnv (init fun _ => false) insertsA).isSome = true by
      decide)
  have hdata : (handleAll QDocdbServer.emptyServerEnv (init fun _ => false) insertsA).map
      (fun N => (N.returns 0, N.requests 0)) =
        some ([(0, insertA, some ⟨[], .insertReply (bytes "a")⟩)], [insertA]) := rfl
  rw [hN] at hdata
  obtain ⟨hreturns, hrequests⟩ := Prod.mk.inj (Option.some.inj hdata)
  exact ⟨N, hN, hreturns, hrequests⟩

/-- A search that went through. -/
def FoundSome : Reply → Bool
  | ⟨[], .findReply _⟩ => true
  | _ => false

theorem exists_findReply_of_foundSome {r : Reply} (h : FoundSome r = true) :
    ∃ docs, r = ⟨[], .findReply docs⟩ := by
  unfold FoundSome at h
  split at h
  · exact ⟨_, rfl⟩
  · cases h

/-- The document `a` is inserted and searched for. -/
theorem exists_findsAll : ∃ N docs,
    handleAll QDocdbServer.emptyServerEnv (init fun _ => false) (insertsA ++ findsAll) = some N ∧
      N.server.replies.map (fun a => a.2.1) = [insertA, findAll] ∧
      N.Answered 0 findAll ⟨[], .findReply docs⟩ := by
  have hdata : (handleAll QDocdbServer.emptyServerEnv (init fun _ => false)
      (insertsA ++ findsAll)).map (fun N => (N.server.replies.map fun a => a.2.1,
        (N.returns 0).map fun a => (a.1, a.2.1))) =
          some ([insertA, findAll], [(0, insertA), (0, findAll)]) := rfl
  have htest : (handleAll QDocdbServer.emptyServerEnv (init fun _ => false)
      (insertsA ++ findsAll)).any (fun N => (N.returns 0)[1]?.any fun a =>
        a.2.2.any FoundSome) = true := by decide +kernel
  obtain ⟨N, hN, htest⟩ := (Option.any_eq_true _ _).mp htest
  obtain ⟨⟨link, o, r⟩, ha, htest⟩ := (Option.any_eq_true _ _).mp htest
  obtain ⟨r, rfl, hr⟩ := (Option.any_eq_true _ _).mp htest
  obtain ⟨docs, rfl⟩ := exists_findReply_of_foundSome hr
  rw [hN] at hdata
  obtain ⟨hreplies, hreturned⟩ := Prod.mk.inj (Option.some.inj hdata)
  have hcall := congrArg (fun l => l[1]?) hreturned
  rw [List.getElem?_map, ha] at hcall
  obtain ⟨rfl, rfl⟩ := Prod.mk.inj (Option.some.inj hcall)
  exact ⟨N, docs, hN, hreplies,
    answered_of_mem_returns (List.mem_of_getElem? ha) (show [] ≠ qs "canceled" by decide)⟩

theorem request_of_replies {o₁ o₂ : QDocdbLinkObject}
    (h : N.server.replies.map (fun a => a.2.1) = [o₁, o₂])
    {a : ClientId × QDocdbLinkObject × Reply} (ha : a ∈ N.server.replies) :
    a.2.1 = o₁ ∨ a.2.1 = o₂ := by
  have hmem : a.2.1 ∈ [o₁, o₂] := h ▸ List.mem_map_of_mem ha
  simpa using hmem

theorem reachable_insertsA {es : List NetworkEvent} (hlength : es.length ≤ 2 ^ 32)
    (hN : handleAll QDocdbServer.emptyServerEnv (init fun _ => false) es = some N) :
    NetworkReachable QDocdbServer.emptyServerEnv FewCalls N :=
  reachable_of_init hlength (fun N hlt e _ => by cases e <;> first | exact hlt _ | trivial) hN

/-- The insertion is in the history of the search. -/
theorem history_insertsA : ∃ N V,
    handleAll QDocdbServer.emptyServerEnv (init fun _ => false) (insertsA ++ findsAll) = some N ∧
      N.server.replies.map (fun a => a.2.1) = [insertA, findAll] ∧
      History QDocdbServer.emptyServerEnv (fun _ => false) (fun _ _ => none)
        N.server.replies V := by
  obtain ⟨N, -, hN, hreplies, -⟩ := exists_findsAll
  obtain ⟨V, hhistory, -⟩ := history_of_reachable safeIds_oneByteIds.plain
    (stored_emptyServerEnv _) (reachable_insertsA (by decide) hN) fun a ha =>
      (request_of_replies hreplies ha).elim (· ▸ aboutDocuments_insertA)
        (· ▸ aboutDocuments_findAll)
  exact ⟨N, V, hN, hreplies, hhistory⟩

/-- The document `a` is inserted, and found under another name of the directory. -/
theorem foundInserted_insertsA : ∃ N N',
    handleAll QDocdbServer.emptyServerEnv (init fun _ => false) insertsA = some N ∧
      handleAll QDocdbServer.emptyServerEnv N findsAll = some N' ∧
      insertA.place ≠ findAll.place ∧
      ∃ docs d, N'.Answered 0 findAll ⟨[], .findReply docs⟩ ∧ .object d ∈ docs := by
  obtain ⟨N, hN, hreturns, hrequests⟩ := exists_insertsA
  obtain ⟨N', docs, hN', hreplies, hfound⟩ := exists_findsAll
  have hrun : (handleAll QDocdbServer.emptyServerEnv (init fun _ => false) insertsA).bind
      (fun N => handleAll QDocdbServer.emptyServerEnv N findsAll) =
        handleAll QDocdbServer.emptyServerEnv (init fun _ => false) (insertsA ++ findsAll) := rfl
  rw [hN, Option.bind_some, hN'] at hrun
  have hinserted : N.Answered 0 insertA ⟨[], .insertReply (bytes "a")⟩ :=
    answered_of_mem_returns (hreturns ▸ List.mem_singleton_self _) (by decide)
  have hfew : ∀ p, (N.clients p).made + findsAll.length ≤ 2 ^ 32 := fun p =>
    (Nat.add_le_add_right (made_handleAll hN p) _).trans (show 0 + 6 + 4 ≤ 2 ^ 32 by decide)
  have hleads : NetworkLeads QDocdbServer.emptyServerEnv FewCalls N N' := leads_of_handleAll
    (fun N hlt e _ => by cases e <;> first | exact hlt _ | trivial) hfew hrun
  obtain ⟨d, d', -, -, hiff⟩ := foundInserted_of_leads safeIds_oneByteIds.plain
    (stored_emptyServerEnv _) (reachable_insertsA (by decide) hN) hleads
    (fun a ha => (request_of_replies hreplies ha).elim (· ▸ aboutDocuments_insertA)
      (· ▸ aboutDocuments_findAll))
    (rfl : insertA.type = _) hinserted
    (fun a ha _ hnames => (request_of_replies hreplies ha).resolve_right fun heq => by
      obtain ⟨op, hop, -⟩ := heq ▸ hnames
      cases hop)
    (rfl : findAll.type = _) (by decide) rfl (.query fun f hf => by cases hf)
    (fun f hf => by cases hf) rfl
    (fun hmem => by
      rw [hrequests] at hmem
      cases congrArg QDocdbLinkObject.serial (List.mem_singleton.mp hmem))
    hfound
  exact ⟨N, N', hN, hrun, by decide, docs, d', hfound,
    hiff.mpr (sat_object.mpr fun f hf => by cases hf)⟩

end Network

end Qdocdb
