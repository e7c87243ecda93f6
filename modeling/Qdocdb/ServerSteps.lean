import Qdocdb.Server
import Qdocdb.Steps

/-!
# What the server does with a request

`Served` is the one place where `serve` is taken apart: a case for each handler, with
what it was called on. An invariant of the server is proved once for each way in which a
state changes (`ServerInvariant`), and then holds in every reachable state and whenever
`serve` is called while an event is handled (`ServerInvariant.calls`).
-/

namespace Qdocdb

/-- A run in which less is allowed. -/
theorem ServerReachable.mono {E : ServerEnv} {ok ok' : QDocdbServer → QDocdbServer.Event → Prop}
    {s : QDocdbServer} (h : ServerReachable E ok s) (hok : ∀ s e, ok s e → ok' s e) :
    ServerReachable E ok' s := by
  induction h with
  | started => exact .started
  | handled _ hallowed hs ih => exact ih.handled (hok _ _ hallowed) hs

/-- Whether the collection of the url is opened. -/
def LinkObjectType.collNeeded : LinkObjectType → Bool
  | exclusiveLock => false
  | unlock => false
  | type => type.urlNeeded

theorem LinkObjectType.urlNeeded_of_collNeeded {type : LinkObjectType}
    (h : type.collNeeded = true) : type.urlNeeded = true := by
  cases type <;> first | rfl | cases h

/-! ## Collections of one directory -/

namespace OpenCollection

variable {c c' : OpenCollection}

/-- Two collections use the same LevelDB store. -/
def Shares (c' c : OpenCollection) : Prop :=
  c.backend = .levelDB ∧ c'.backend = .levelDB ∧ c'.path = c.path

instance (c' c : OpenCollection) : Decidable (c'.Shares c) := inferInstanceAs (Decidable (_ ∧ _))

/-- A collection when another one is put in its place: a store that both use is then the one
of that collection. -/
def sharingWith (c' c : OpenCollection) : OpenCollection :=
  if c'.Shares c then { c' with coll := { c'.coll with db := c.coll.db } } else c'

@[simp] theorem backend_sharingWith : (c'.sharingWith c).backend = c'.backend := by
  rw [sharingWith]
  split <;> rfl

@[simp] theorem path_sharingWith : (c'.sharingWith c).path = c'.path := by
  rw [sharingWith]
  split <;> rfl

@[simp] theorem snapshotId_sharingWith :
    (c'.sharingWith c).coll.snapshotId = c'.coll.snapshotId := by
  rw [sharingWith]
  split <;> rfl

@[simp] theorem observers_sharingWith :
    (c'.sharingWith c).coll.observers = c'.coll.observers := by
  rw [sharingWith]
  split <;> rfl

@[simp] theorem emitted_sharingWith : (c'.sharingWith c).coll.emitted = c'.coll.emitted := by
  rw [sharingWith]
  split <;> rfl

theorem db_sharingWith :
    (c'.sharingWith c).coll.db = if c'.Shares c then c.coll.db else c'.coll.db := by
  rw [sharingWith]
  split <;> rfl

/-- A collection that shares no store stays as it is. -/
theorem sharingWith_of_not_shares (h : ¬ c'.Shares c) : c'.sharingWith c = c' := if_neg h

end OpenCollection

namespace QDocdbServer

variable {E : ServerEnv} {s s' : QDocdbServer} {client : ClientId} {o : QDocdbLinkObject}

/-! ## Fields -/

section Fields

variable {place : Place} {c : OpenCollection}

@[simp] theorem databaseLocks_setCollection :
    (s.setCollection place c).databaseLocks = s.databaseLocks := rfl

@[simp] theorem links_setCollection : (s.setCollection place c).links = s.links := rfl

@[simp] theorem clients_setCollection : (s.setCollection place c).clients = s.clients := rfl

@[simp] theorem transactions_setCollection :
    (s.setCollection place c).transactions = s.transactions := rfl

@[simp] theorem sent_setCollection : (s.setCollection place c).sent = s.sent := rfl

@[simp] theorem observeClient_setCollection :
    (s.setCollection place c).observeClient = s.observeClient := rfl

@[simp] theorem observeCollection_setCollection :
    (s.setCollection place c).observeCollection = s.observeCollection := rfl

@[simp] theorem nextNumber_setCollection :
    (s.setCollection place c).nextNumber = s.nextNumber := rfl

@[simp] theorem links_setLink_self {link : QDocdbLinkBase} :
    (s.setLink client link).links client = link := Function.update_self ..

theorem links_setLink_of_ne {c : ClientId} {link : QDocdbLinkBase} (h : c ≠ client) :
    (s.setLink client link).links c = s.links c := Function.update_of_ne h ..

@[simp] theorem links_newConnection :
    (s.newConnection client).links = Function.update s.links client ⟨[], 0⟩ := rfl

@[simp] theorem links_clientRemoved :
    (s.clientRemoved client).links = Function.update s.links client ⟨[], 0⟩ := rfl

/-- A request in a queue after one client's queue changed. -/
theorem mem_unlockWait_setLink {c : ClientId} {link : QDocdbLinkBase}
    (h : o ∈ ((s.setLink client link).links c).unlockWait) :
    c = client ∧ o ∈ link.unlockWait ∨ c ≠ client ∧ o ∈ (s.links c).unlockWait := by
  by_cases hc : c = client
  · subst hc
    rw [links_setLink_self] at h
    exact .inl ⟨rfl, h⟩
  · rw [links_setLink_of_ne hc] at h
    exact .inr ⟨hc, h⟩

theorem databases_setCollection : (s.setCollection place c).databases =
    Function.update s.databases place.1
      (some (Function.update ((s.databases place.1).getD fun _ => none) place.2
        (some { c with coll := { c.coll with emitted := [] } }))) := rfl

@[simp] theorem dbMap_setCollection_of_map (h : c.backend = .map) :
    (s.setCollection place c).dbMap = s.dbMap := by
  rw [setCollection, h]

@[simp] theorem dbMap_setCollection_of_levelDB (h : c.backend = .levelDB) :
    (s.setCollection place c).dbMap = Function.update s.dbMap c.path (some c.coll.db) := by
  rw [setCollection, h]

/-- Another collection is found with what the one that was put in its place has written. -/
theorem attach_setCollection (c' : OpenCollection) :
    (s.setCollection place c).attach c' = (s.attach c').sharingWith c := by
  obtain ⟨B, path, coll⟩ := c
  obtain ⟨B', path', coll'⟩ := c'
  cases B' with
  | map =>
    cases B <;> simp [attach, OpenCollection.sharingWith, OpenCollection.Shares]
  | levelDB =>
    cases B with
    | map => simp [attach, OpenCollection.sharingWith, OpenCollection.Shares]
    | levelDB =>
      simp only [attach, OpenCollection.sharingWith, OpenCollection.Shares, true_and,
        dbMap_setCollection_of_levelDB]
      by_cases hpath : path' = path
      · subst hpath
        simp
      · rw [Function.update_of_ne hpath, if_neg hpath]

theorem collection?_setCollection (place' : Place) :
    (s.setCollection place c).collection? place' =
      if place' = place then some { c with coll := { c.coll with emitted := [] } }
      else (s.collection? place').map (·.sharingWith c) := by
  obtain ⟨d, n⟩ := place
  obtain ⟨d', n'⟩ := place'
  simp only [collection?, Prod.mk.injEq]
  by_cases hplace : d' = d ∧ n' = n
  · obtain ⟨rfl, rfl⟩ := hplace
    rw [if_pos ⟨rfl, rfl⟩]
    simp only [setCollection, Function.update_self, Option.bind_some, Option.map_some]
    obtain ⟨B, path, coll⟩ := c
    cases B with
    | map => rfl
    | levelDB => simp [attach]
  · rw [if_neg hplace, Option.map_map]
    have hkept : ((s.setCollection (d, n) c).databases d').bind (fun collList => collList n') =
        (s.databases d').bind fun collList => collList n' := by
      by_cases hd : d' = d
      · subst hd
        rw [databases_setCollection, Function.update_self, Option.bind_some,
          Function.update_of_ne fun hn => hplace ⟨rfl, hn⟩]
        cases s.databases d' <;> rfl
      · rw [databases_setCollection, Function.update_of_ne hd]
    rw [hkept]
    exact congrFun (congrArg Option.map (funext attach_setCollection)) _

theorem collection?_setCollection_self : (s.setCollection place c).collection? place =
    some { c with coll := { c.coll with emitted := [] } } := by
  rw [collection?_setCollection, if_pos rfl]

theorem collection?_setCollection_of_ne {place' : Place} (hne : place' ≠ place)
    {c₀ : OpenCollection} (hc₀ : s.collection? place' = some c₀) :
    (s.setCollection place c).collection? place' = some (c₀.sharingWith c) := by
  rw [collection?_setCollection, if_neg hne, hc₀, Option.map_some]

/-- What is in a place after a collection was put in one. -/
theorem collection?_of_setCollection {place' : Place} {c' : OpenCollection}
    (h : (s.setCollection place c).collection? place' = some c') :
    place' = place ∧ c' = { c with coll := { c.coll with emitted := [] } } ∨
      place' ≠ place ∧ ∃ c₀, s.collection? place' = some c₀ ∧ c' = c₀.sharingWith c := by
  rw [collection?_setCollection] at h
  split at h
  · rename_i heq
    exact .inl ⟨heq, (Option.some.inj h).symm⟩
  · rename_i hne
    obtain ⟨c₀, hc₀, rfl⟩ := Option.map_eq_some_iff.mp h
    exact .inr ⟨hne, c₀, hc₀, rfl⟩

/-- What a collection finds when it is opened in a place: a new map, or the store of its
directory, as other collections left it or as it was before. -/
def Opens (E : ServerEnv) (s : QDocdbServer) (place : Place) (B : Backend) (path : QString)
    (db : Store) : Prop :=
  match B with
  | .map => db = .empty
  | .levelDB => E.directory place.1 place.2 = some path ∧
    (s.dbMap path).or (E.openStore path) = some db

theorem opens_of_openKVDB {inMemory : Bool} {path : QString} {db : Store}
    (h : s.openKVDB E place inMemory = some (path, db)) :
    s.Opens E place (if inMemory then .map else .levelDB) path db := by
  cases inMemory with
  | true =>
    rw [openKVDB, if_pos rfl] at h
    split at h
    · cases h
      rfl
    · cases h
  | false =>
    obtain ⟨path', hpath, h⟩ := Option.bind_eq_some_iff.mp h
    obtain ⟨db', hdb, heq⟩ := Option.map_eq_some_iff.mp h
    cases heq
    exact ⟨hpath, hdb⟩

/-- Opening a collection leaves the server alone, or puts a new collection in its place. -/
theorem openCollectionOf_cases (E : ServerEnv) (s : QDocdbServer) (o : QDocdbLinkObject) :
    s.openCollectionOf E o = s ∨
      s.collection? o.place = none ∧ ∃ B path db, s.Opens E o.place B path db ∧
        s.openCollectionOf E o =
          s.setCollection o.place ⟨B, path, Collection.open (E.env.on B) db⟩ := by
  rw [openCollectionOf]
  split
  · rename_i path db hc hdb
    exact .inr ⟨hc, _, path, db, opens_of_openKVDB hdb, rfl⟩
  · exact .inl rfl

/-- The url says where a collection is kept when it is opened. -/
theorem backend_of_opened (hnone : s.collection? o.place = none)
    (h : s.openCollectionOf E o = s.setCollection o.place c) :
    c.backend = if o.url.inMemory then .map else .levelDB := by
  have hfound : (s.openCollectionOf E o).collection? o.place =
      some { c with coll := { c.coll with emitted := [] } } := by
    rw [h, collection?_setCollection_self]
  rw [openCollectionOf] at hfound
  split at hfound
  · rw [collection?_setCollection_self] at hfound
    exact congrArg OpenCollection.backend (Option.some.inj hfound).symm
  · rw [hnone] at hfound
    cases hfound

theorem openCollectionOf_eq (E : ServerEnv) (s : QDocdbServer) (o : QDocdbLinkObject) :
    ∃ databases dbMap pending, s.openCollectionOf E o =
      { s with databases := databases, dbMap := dbMap, observeQueryChanged := pending } := by
  rcases openCollectionOf_cases E s o with h | ⟨-, B, path, db, -, h⟩
  · exact ⟨_, _, _, h⟩
  · exact ⟨_, _, _, h⟩

@[simp] theorem databaseLocks_openCollectionOf :
    (s.openCollectionOf E o).databaseLocks = s.databaseLocks := by
  obtain ⟨d, m, q, h⟩ := openCollectionOf_eq E s o
  rw [h]

@[simp] theorem links_openCollectionOf : (s.openCollectionOf E o).links = s.links := by
  obtain ⟨d, m, q, h⟩ := openCollectionOf_eq E s o
  rw [h]

@[simp] theorem clients_openCollectionOf : (s.openCollectionOf E o).clients = s.clients := by
  obtain ⟨d, m, q, h⟩ := openCollectionOf_eq E s o
  rw [h]

@[simp] theorem transactions_openCollectionOf :
    (s.openCollectionOf E o).transactions = s.transactions := by
  obtain ⟨d, m, q, h⟩ := openCollectionOf_eq E s o
  rw [h]

@[simp] theorem sent_openCollectionOf : (s.openCollectionOf E o).sent = s.sent := by
  obtain ⟨d, m, q, h⟩ := openCollectionOf_eq E s o
  rw [h]

@[simp] theorem observeClient_openCollectionOf :
    (s.openCollectionOf E o).observeClient = s.observeClient := by
  obtain ⟨d, m, q, h⟩ := openCollectionOf_eq E s o
  rw [h]

@[simp] theorem observeCollection_openCollectionOf :
    (s.openCollectionOf E o).observeCollection = s.observeCollection := by
  obtain ⟨d, m, q, h⟩ := openCollectionOf_eq E s o
  rw [h]

@[simp] theorem nextNumber_openCollectionOf :
    (s.openCollectionOf E o).nextNumber = s.nextNumber := by
  obtain ⟨d, m, q, h⟩ := openCollectionOf_eq E s o
  rw [h]

/-- Opening a database changes the table of databases only. -/
theorem openDatabaseOf_eq (E : ServerEnv) (s : QDocdbServer) (o : QDocdbLinkObject) :
    ∃ databases, s.openDatabaseOf E o = { s with databases := databases } ∧
      ∀ place, (s.openDatabaseOf E o).collection? place = s.collection? place := by
  have hsame : ∃ databases, s = { s with databases := databases } ∧
      ∀ place, s.collection? place = s.collection? place := ⟨s.databases, rfl, fun _ => rfl⟩
  rw [openDatabaseOf]
  split
  · rw [getDatabase]
    split
    · rename_i h
      refine ⟨_, rfl, fun place => ?_⟩
      simp only [collection?]
      by_cases hd : place.1 = o.url.dbName
      · rw [hd, Function.update_self, Option.isNone_iff_eq_none.mp h.1]
        rfl
      · rw [Function.update_of_ne hd]
        rfl
    · exact hsame
  · exact hsame

end Fields

/-! ## The cases of serve -/

/-- What serving a request amounts to. -/
inductive Served (E : ServerEnv) (s : QDocdbServer) (client : ClientId) (o : QDocdbLinkObject) :
    QDocdbServer × Reply → Prop
  | writeTransaction {txId : ℤ} (ht : o.type = .writeTransaction txId) :
    Served E s client o (s.writeTransaction E txId)
  | discardTransaction {txId : ℤ} (ht : o.type = .discardTransaction txId) :
    Served E s client o (s.discardTransaction txId)
  | unobserve {observeId : ℤ} (ht : o.type = .unobserve observeId) :
    Served E s client o (s.unobserve client observeId)
  | cannotOpenDatabase (hurl : o.type.urlNeeded = true) :
    Served E s client o (s, .cannotOpenDatabase o.url.dbName)
  | exclusiveLock (ht : o.type = .exclusiveLock) :
    Served E s client o (s.exclusiveLock client o.url.dbName)
  | unlock (ht : o.type = .unlock) : Served E s client o (s.unlock client o.url.dbName)
  | emptyCollectionName (hurl : o.type.urlNeeded = true) :
    Served E s client o (s, .emptyCollectionName)
  | cannotOpenCollection (hcoll : o.type.collNeeded = true) :
    Served E s client o
      (s.openCollectionOf E o, .cannotOpenCollection o.url.collName o.url.dbName)
  | autoCommit {op : TxOp} {c : OpenCollection} (ht : o.type.document? = some (-1, op))
    (hc : (s.openCollectionOf E o).collection? o.place = some c) :
    Served E s client o ((s.openCollectionOf E o).autoCommit E o.place c op)
  | operation {txId : ℤ} {op : TxOp} (ht : o.type.document? = some (txId, op))
    (hne : txId ≠ -1) : Served E s client o ((s.openCollectionOf E o).operation E txId op)
  | newTransaction {c : OpenCollection} (ht : o.type = .newTransaction)
    (hc : (s.openCollectionOf E o).collection? o.place = some c) :
    Served E s client o ((s.openCollectionOf E o).newTransaction o.place c)
  | observe {query queryOptions : QJsonObject} {preferedId : ℤ} {c : OpenCollection}
    (ht : o.type = .observe query queryOptions preferedId)
    (hc : (s.openCollectionOf E o).collection? o.place = some c) :
    Served E s client o
      ((s.openCollectionOf E o).observe E client o.place c query queryOptions preferedId)
  | onCollection {snapshotName : QString} {c c' : OpenCollection} {r : Reply}
    (hcoll : o.type.collNeeded = true) (hdoc : o.type.document? = none)
    (hnew : o.type ≠ .newTransaction) (hobserve : ∀ q qo i, o.type ≠ .observe q qo i)
    (hc : (s.openCollectionOf E o).collection? o.place = some c)
    (hr : onCollection E c snapshotName o.type = some (c', r)) :
    Served E s client o ((s.openCollectionOf E o).setCollection o.place c', r)

theorem served_of_serveCollection {c : OpenCollection} {p : QDocdbServer × Reply}
    (hcoll : o.type.collNeeded = true)
    (hc : (s.openCollectionOf E o).collection? o.place = some c)
    (h : (s.openCollectionOf E o).serveCollection E client o o.place c = some p) :
    Served E s client o p := by
  rw [serveCollection] at h
  split at h
  · rename_i txId op hdoc
    obtain rfl := Option.some.inj h
    by_cases htx : txId = -1
    · subst htx
      exact .autoCommit hdoc hc
    · rw [if_neg htx]
      exact .operation hdoc htx
  · rename_i hdoc
    split at h
    · rename_i ht
      obtain rfl := Option.some.inj h
      exact .newTransaction ht hc
    · rename_i ht
      obtain rfl := Option.some.inj h
      exact .observe ht hc
    · rename_i hnew hobserve
      obtain ⟨⟨c', r⟩, hr, rfl⟩ := Option.map_eq_some_iff.mp h
      exact .onCollection hcoll hdoc hnew hobserve hc hr

/-- **Inversion of `serve`.** -/
theorem served_of_serve {p : QDocdbServer × Reply} (h : s.serve E client o = some p) :
    Served E s client o p := by
  rw [serve] at h
  split at h
  · rename_i ht
    obtain rfl := Option.some.inj h
    exact .writeTransaction ht
  · rename_i ht
    obtain rfl := Option.some.inj h
    exact .discardTransaction ht
  · rename_i ht
    obtain rfl := Option.some.inj h
    exact .unobserve ht
  · rename_i hwrite hdiscard hunobserve
    have hurl : o.type.urlNeeded = true := by
      cases ht : o.type <;> first | rfl | exact absurd ht (by simp_all)
    split at h
    · obtain rfl := Option.some.inj h
      exact .cannotOpenDatabase hurl
    · split at h
      · rename_i ht
        obtain rfl := Option.some.inj h
        exact .exclusiveLock ht
      · rename_i ht
        obtain rfl := Option.some.inj h
        exact .unlock ht
      · rename_i hlock hunlock
        have hcoll : o.type.collNeeded = true := by
          cases ht : o.type <;> first
            | rfl
            | exact absurd ht (by simp_all)
        split at h
        · obtain rfl := Option.some.inj h
          exact .emptyCollectionName hurl
        · simp only at h
          split at h
          · obtain rfl := Option.some.inj h
            exact .cannotOpenCollection hcoll
          · rename_i hc
            exact served_of_serveCollection hcoll hc h

/-! ## What serving changes -/

/-- `s'` has the clients, the locks and the queues of `s`, and nothing more was sent. -/
structure SameLinks (s s' : QDocdbServer) : Prop where
  clients : s'.clients = s.clients
  databaseLocks : s'.databaseLocks = s.databaseLocks
  links : s'.links = s.links
  sent : s'.sent = s.sent

theorem SameLinks.refl (s : QDocdbServer) : SameLinks s s := ⟨rfl, rfl, rfl, rfl⟩

theorem sameLinks_setCollection {place : Place} {c : OpenCollection} :
    SameLinks s (s.setCollection place c) := ⟨rfl, rfl, rfl, rfl⟩

theorem sameLinks_openCollectionOf : SameLinks s (s.openCollectionOf E o) := by
  obtain ⟨d, m, q, h⟩ := openCollectionOf_eq E s o
  rw [h]
  exact ⟨rfl, rfl, rfl, rfl⟩

theorem SameLinks.trans {s'' : QDocdbServer} (h : SameLinks s s') (h' : SameLinks s' s'') :
    SameLinks s s'' where
  clients := h'.clients.trans h.clients
  databaseLocks := h'.databaseLocks.trans h.databaseLocks
  links := h'.links.trans h.links
  sent := h'.sent.trans h.sent

theorem sameLinks_writeTransaction (txId : ℤ) : SameLinks s (s.writeTransaction E txId).1 := by
  rw [writeTransaction]
  split
  · exact .refl s
  · dsimp only
    split <;> exact ⟨rfl, rfl, rfl, rfl⟩

theorem sameLinks_discardTransaction (txId : ℤ) : SameLinks s (s.discardTransaction txId).1 := by
  rw [discardTransaction]
  split <;> exact ⟨rfl, rfl, rfl, rfl⟩

theorem sameLinks_unobserve (observeId : ℤ) : SameLinks s (s.unobserve client observeId).1 := by
  rw [unobserve]
  split
  · exact .refl s
  · split
    · exact ⟨rfl, rfl, rfl, rfl⟩
    · split
      · simp only [unobserveAt]
        split <;> exact ⟨rfl, rfl, rfl, rfl⟩
      · exact .refl s

theorem sameLinks_operation (txId : ℤ) (op : TxOp) : SameLinks s (s.operation E txId op).1 := by
  rw [operation]
  split
  · exact .refl s
  · split <;> exact ⟨rfl, rfl, rfl, rfl⟩

/-- What a request does to the locks: it takes a lock, or it releases its own and signals
this to every client, or it leaves locks and queues alone. -/
theorem Served.locks {p : QDocdbServer × Reply} (h : Served E s client o p) :
    SameLinks s p.1 ∨
      o.type = .exclusiveLock ∧
        (s.databaseLocks o.url.dbName = none ∨ s.databaseLocks o.url.dbName = some client) ∧
        p.1 = { s with
          databaseLocks := Function.update s.databaseLocks o.url.dbName (some client) } ∨
      o.type = .unlock ∧ s.databaseLocks o.url.dbName = some client ∧
        p.1 = { s with
          databaseLocks := Function.update s.databaseLocks o.url.dbName none }.emitUnlocked := by
  cases h with
  | writeTransaction ht => exact .inl (sameLinks_writeTransaction _)
  | discardTransaction ht => exact .inl (sameLinks_discardTransaction _)
  | unobserve ht => exact .inl (sameLinks_unobserve _)
  | cannotOpenDatabase hurl => exact .inl (.refl s)
  | exclusiveLock ht =>
    rw [QDocdbServer.exclusiveLock]
    split
    · rename_i hfree
      exact .inr (.inl ⟨ht, hfree, rfl⟩)
    · exact .inl (.refl s)
  | unlock ht =>
    rw [QDocdbServer.unlock]
    split
    · exact .inl (.refl s)
    · rename_i owner hlock
      split
      · rename_i howner
        exact .inr (.inr ⟨ht, howner ▸ hlock, rfl⟩)
      · exact .inl (.refl s)
  | emptyCollectionName hurl => exact .inl (.refl s)
  | cannotOpenCollection hcoll => exact .inl sameLinks_openCollectionOf
  | autoCommit ht hc => exact .inl (sameLinks_openCollectionOf.trans sameLinks_setCollection)
  | operation ht hne => exact .inl (sameLinks_openCollectionOf.trans (sameLinks_operation _ _))
  | newTransaction ht hc =>
    exact .inl (sameLinks_openCollectionOf.trans ⟨rfl, rfl, rfl, rfl⟩)
  | observe ht hc => exact .inl (sameLinks_openCollectionOf.trans ⟨rfl, rfl, rfl, rfl⟩)
  | onCollection hcoll hdoc hnew hobserve hc hr =>
    exact .inl (sameLinks_openCollectionOf.trans sameLinks_setCollection)

/-- Serving a request does not change who is connected. -/
theorem Served.clients {p : QDocdbServer × Reply} (h : Served E s client o p) :
    p.1.clients = s.clients := by
  rcases h.locks with h | ⟨-, -, h⟩ | ⟨-, -, h⟩
  · exact h.clients
  · rw [h]
  · rw [h]
    rfl

/-- The reply is sent after a request was served. -/
theorem Served.sent {p : QDocdbServer × Reply} (h : Served E s client o p) :
    p.1.sent = s.sent := by
  rcases h.locks with h | ⟨-, -, h⟩ | ⟨-, -, h⟩
  · exact h.sent
  · rw [h]
  · rw [h]
    rfl

/-- Serving a request leaves the queues alone. -/
theorem Served.unlockWait {p : QDocdbServer × Reply} (h : Served E s client o p) (c : ClientId) :
    (p.1.links c).unlockWait = (s.links c).unlockWait := by
  rcases h.locks with h | ⟨-, -, h⟩ | ⟨-, -, h⟩
  · rw [h.links]
  · rw [h]
  · rw [h, emitUnlocked]
    dsimp only
    split <;> rfl

/-- A lock that somebody else holds stays. -/
theorem Served.databaseLocks_of_ne {p : QDocdbServer × Reply} (h : Served E s client o p)
    {dbName : QString} {owner : ClientId} (hlock : s.databaseLocks dbName = some owner)
    (hne : owner ≠ client) : p.1.databaseLocks dbName = some owner := by
  rcases h.locks with h | ⟨-, hown, h⟩ | ⟨-, hown, h⟩
  · rw [h.databaseLocks, hlock]
  · have hdb : dbName ≠ o.url.dbName := by
      rintro rfl
      rw [hlock] at hown
      simp [hne] at hown
    rw [h]
    simp [Function.update_of_ne hdb, hlock]
  · have hdb : dbName ≠ o.url.dbName := by
      rintro rfl
      rw [hlock] at hown
      exact hne (Option.some.inj hown)
    rw [h]
    simp [emitUnlocked, Function.update_of_ne hdb, hlock]

/-- A request that has to wait names a database that somebody else has locked. -/
theorem mustWait_iff : s.mustWait client o = true ↔
    o.type.urlNeeded = true ∧ ∃ owner, owner ≠ client ∧
      s.databaseLocks o.url.dbName = some owner := by
  rw [mustWait, Bool.and_eq_true, Option.any_eq_true]
  simp only [ne_eq, decide_not, Bool.not_eq_eq_eq_not, Bool.not_true, decide_eq_false_iff_not]
  exact and_congr_right fun _ => ⟨fun ⟨owner, h, hne⟩ => ⟨owner, hne, h⟩,
    fun ⟨owner, hne, h⟩ => ⟨owner, h, hne⟩⟩

/-! ## Invariants -/

/-- The calls of `serve` in a loop over waiting requests. -/
inductive ReplayCall (E : ServerEnv) (client : ClientId) :
    ℕ → QDocdbServer → QDocdbServer → QDocdbLinkObject → Prop
  | here {n : ℕ} {s : QDocdbServer} {o : QDocdbLinkObject} {rest : List QDocdbLinkObject}
    (hq : (s.links client).unlockWait = o :: rest)
    (hw : ((s.dequeue client).openDatabaseOf E o).mustWait client o = false) :
    ReplayCall E client (n + 1) s ((s.dequeue client).openDatabaseOf E o) o
  | later {n : ℕ} {s s' s₁ : QDocdbServer} {o o₁ : QDocdbLinkObject}
    {rest : List QDocdbLinkObject} (hq : (s.links client).unlockWait = o :: rest)
    (hr : (s.dequeue client).receive E client o = some s')
    (h : ReplayCall E client n s' s₁ o₁) : ReplayCall E client (n + 1) s s₁ o₁

/-- The calls of `serve` while an event is handled: the state, the client and the request. -/
inductive Call (E : ServerEnv) (s : QDocdbServer) :
    Event → QDocdbServer → ClientId → QDocdbLinkObject → Prop
  | received {client : ClientId} {o : QDocdbLinkObject} (hc : client ∈ s.clients)
    (hw : (s.openDatabaseOf E o).mustWait client o = false) :
    Call E s (.received client o) (s.openDatabaseOf E o) client o
  | unlocked {client : ClientId} {s₁ : QDocdbServer} {o : QDocdbLinkObject}
    (hc : client ∈ s.clients)
    (h : ReplayCall E client (s.links client).unlockWait.length (s.takeUnlocked client) s₁ o) :
    Call E s (.unlocked client) s₁ client o

/-- `I` is kept by every event that `ok` allows. While the first `n` waiting requests of a
client are received again, `J client n` holds instead; `fit n` is what can be said of a
request when it is received, for the first time or again. -/
structure ServerInvariant (E : ServerEnv) (ok : QDocdbServer → Event → Prop)
    (I : QDocdbServer → Prop) (J : ClientId → ℕ → QDocdbServer → Prop)
    (fit : ℕ → QDocdbServer → ClientId → QDocdbLinkObject → Prop) : Prop where
  started : I .init
  connected : ∀ {s client}, I s → client ∉ s.clients → I (s.newConnection client)
  disconnected : ∀ {s client}, I s → ok s (.disconnected client) → client ∈ s.clients →
    I (s.clientRemoved client)
  notified : ∀ {s pending id reply}, I s → s.observeQueryChanged = (id, reply) :: pending →
    I ({ s with observeQueryChanged := pending }.observeChanged id reply)
  arrived : ∀ {s client o}, I s → ok s (.received client o) → client ∈ s.clients →
    J client 0 s ∧ fit 0 s client o
  taken : ∀ {s client}, I s → ok s (.unlocked client) → client ∈ s.clients →
    J client (s.links client).unlockWait.length (s.takeUnlocked client)
  dequeued : ∀ {s client n o rest}, J client (n + 1) s → client ∈ s.clients →
    (s.links client).unlockWait = o :: rest →
    J client n (s.dequeue client) ∧ fit n (s.dequeue client) client o
  done : ∀ {s client n}, J client n s → n = 0 ∨ (s.links client).unlockWait = [] → I s
  opened : ∀ {s client n o}, J client n s → fit n s client o →
    J client n (s.openDatabaseOf E o) ∧ fit n (s.openDatabaseOf E o) client o
  waits : ∀ {s client n o}, J client n s → fit n s client o → client ∈ s.clients →
    s.mustWait client o = true → J client n (s.appendUnlockWait client o)
  served : ∀ {s client n o p}, J client n s → fit n s client o → client ∈ s.clients →
    s.mustWait client o = false → Served E s client o p →
    J client n (p.1.send client (.reply o p.2))

@[simp] theorem clients_openDatabaseOf : (s.openDatabaseOf E o).clients = s.clients := by
  obtain ⟨d, h, -⟩ := openDatabaseOf_eq E s o
  rw [h]

namespace ServerInvariant

variable {ok : QDocdbServer → Event → Prop} {I : QDocdbServer → Prop}
  {J : ClientId → ℕ → QDocdbServer → Prop}
  {fit : ℕ → QDocdbServer → ClientId → QDocdbLinkObject → Prop} (inv : ServerInvariant E ok I J fit)

include inv

theorem receive {n : ℕ} (hJ : J client n s) (hfit : fit n s client o) (hc : client ∈ s.clients)
    (h : s.receive E client o = some s') : J client n s' ∧ s'.clients = s.clients := by
  obtain ⟨hJ', hfit'⟩ := inv.opened hJ hfit
  have hc' : client ∈ (s.openDatabaseOf E o).clients := by rwa [clients_openDatabaseOf]
  rw [QDocdbServer.receive] at h
  split at h
  · rename_i hw
    obtain rfl := Option.some.inj h
    exact ⟨inv.waits hJ' hfit' hc' hw, clients_openDatabaseOf⟩
  · rename_i hw
    obtain ⟨p, hp, rfl⟩ := Option.map_eq_some_iff.mp h
    have hserved := served_of_serve hp
    exact ⟨inv.served hJ' hfit' hc' (Bool.eq_false_iff.mpr hw) hserved,
      hserved.clients.trans clients_openDatabaseOf⟩

theorem onUnlocked (n : ℕ) (hJ : J client n s) (hc : client ∈ s.clients)
    (h : onUnlocked E client n s = some s') : I s' := by
  induction n generalizing s with
  | zero =>
    obtain rfl := Option.some.inj h
    exact inv.done hJ (.inl rfl)
  | succ n ih =>
    rw [QDocdbServer.onUnlocked] at h
    split at h
    · rename_i hq
      obtain rfl := Option.some.inj h
      exact inv.done hJ (.inr hq)
    · rename_i o rest hq
      obtain ⟨s₁, hr, h⟩ := Option.bind_eq_some_iff.mp h
      obtain ⟨hJ₁, hfit⟩ := inv.dequeued hJ hc hq
      obtain ⟨hJ₂, hclients⟩ := inv.receive hJ₁ hfit hc hr
      exact ih hJ₂ (hclients ▸ hc) h

/-- **Step**: an event that is allowed keeps the invariant. -/
theorem handle {e : Event} (hI : I s) (hok : ok s e) (h : s.handle E e = some s') : I s' := by
  cases e with
  | connected client =>
    rw [QDocdbServer.handle] at h
    split at h
    · cases h
    · rename_i hc
      obtain rfl := Option.some.inj h
      exact inv.connected hI hc
  | received client o =>
    rw [QDocdbServer.handle] at h
    split at h
    · rename_i hc
      obtain ⟨hJ, hfit⟩ := inv.arrived hI hok hc
      exact inv.done (inv.receive hJ hfit hc h).1 (.inl rfl)
    · cases h
  | unlocked client =>
    rw [QDocdbServer.handle] at h
    split at h
    · rename_i hc
      exact inv.onUnlocked _ (inv.taken hI hok hc.1) hc.1 h
    · cases h
  | observeQueryChanged =>
    rw [QDocdbServer.handle] at h
    split at h
    · cases h
    · rename_i hq
      obtain rfl := Option.some.inj h
      exact inv.notified hI hq
  | disconnected client =>
    rw [QDocdbServer.handle] at h
    split at h
    · rename_i hc
      obtain rfl := Option.some.inj h
      exact inv.disconnected hI hok hc
    · cases h

/-- **Run**: the invariant holds in every reachable state. -/
theorem reachable (h : ServerReachable E ok s) : I s := by
  induction h with
  | started => exact inv.started
  | handled _ hok hs ih => exact inv.handle ih hok hs

theorem replayCall {n : ℕ} {s₁ : QDocdbServer} (hJ : J client n s) (hc : client ∈ s.clients)
    (h : ReplayCall E client n s s₁ o) :
    ∃ n, J client n s₁ ∧ fit n s₁ client o ∧ client ∈ s₁.clients ∧ s₁.mustWait client o = false := by
  induction h with
  | here hq hw =>
    obtain ⟨hJ₁, hfit⟩ := inv.dequeued hJ hc hq
    obtain ⟨hJ₂, hfit₂⟩ := inv.opened hJ₁ hfit
    exact ⟨_, hJ₂, hfit₂, by rwa [clients_openDatabaseOf], hw⟩
  | later hq hr _ ih =>
    obtain ⟨hJ₁, hfit⟩ := inv.dequeued hJ hc hq
    obtain ⟨hJ₂, hclients⟩ := inv.receive hJ₁ hfit hc hr
    exact ih hJ₂ (hclients ▸ hc)

/-- **Calls**: whenever `serve` is called, the invariant of the loop holds and the request
is fit. -/
theorem calls {e : Event} {s₁ : QDocdbServer} (hs : ServerReachable E ok s) (hok : ok s e)
    (h : Call E s e s₁ client o) :
    ∃ n, J client n s₁ ∧ fit n s₁ client o ∧ client ∈ s₁.clients ∧ s₁.mustWait client o = false := by
  have hI := inv.reachable hs
  cases h with
  | received hc hw =>
    obtain ⟨hJ, hfit⟩ := inv.arrived hI hok hc
    obtain ⟨hJ₁, hfit₁⟩ := inv.opened hJ hfit
    exact ⟨_, hJ₁, hfit₁, by rwa [clients_openDatabaseOf], hw⟩
  | unlocked hc h => exact inv.replayCall (inv.taken hI hok hc) hc h

end ServerInvariant

/-! ## Given events -/

/-- Handle some events in order. -/
def handleAll (E : ServerEnv) : QDocdbServer → List Event → Option QDocdbServer
  | s, [] => some s
  | s, e :: es => (s.handle E e).bind fun s' => handleAll E s' es

/-- A list of events that are always allowed leads to a reachable state. -/
theorem reachable_of_handleAll {ok : QDocdbServer → Event → Prop} {es : List Event}
    (hs : ServerReachable E ok s) (hok : ∀ s, ∀ e ∈ es, ok s e)
    (h : handleAll E s es = some s') : ServerReachable E ok s' := by
  induction es generalizing s with
  | nil =>
    obtain rfl := Option.some.inj h
    exact hs
  | cons e es ih =>
    obtain ⟨s₁, he, h⟩ := Option.bind_eq_some_iff.mp h
    exact ih (hs.handled (hok s e List.mem_cons_self) he)
      (fun s e he => hok s e (List.mem_cons_of_mem _ he)) h

/-- Events that lead to a state in which `p` holds. -/
theorem exists_of_handleAll {ok : QDocdbServer → Event → Prop} {es : List Event}
    {p : QDocdbServer → Bool} (hok : ∀ s, ∀ e ∈ es, ok s e)
    (h : (handleAll E .init es).any p = true) : ∃ s, ServerReachable E ok s ∧ p s = true := by
  obtain ⟨s, hs, hp⟩ := (Option.any_eq_true _ _).mp h
  exact ⟨s, reachable_of_handleAll .started hok hs, hp⟩

/-- Handle some events in order, each of which `test` lets pass. -/
def handleWhile (E : ServerEnv) (test : QDocdbServer → Event → Bool) :
    QDocdbServer → List Event → Option QDocdbServer
  | s, [] => some s
  | s, e :: es =>
    if test s e then (s.handle E e).bind fun s' => handleWhile E test s' es else none

/-- What passes is allowed, in a state that was reached with what is allowed. -/
theorem reachable_of_handleWhile {ok : QDocdbServer → Event → Prop}
    {test : QDocdbServer → Event → Bool} {es : List Event} (hs : ServerReachable E ok s)
    (hok : ∀ {s e}, ServerReachable E ok s → test s e = true → ok s e)
    (h : handleWhile E test s es = some s') : ServerReachable E ok s' := by
  induction es generalizing s with
  | nil =>
    obtain rfl := Option.some.inj h
    exact hs
  | cons e es ih =>
    rw [handleWhile] at h
    split at h
    · rename_i htest
      obtain ⟨s₁, he, h⟩ := Option.bind_eq_some_iff.mp h
      exact ih (hs.handled (hok hs htest) he) h
    · cases h

/-- A server on empty LevelDB stores. -/
def emptyServerEnv : ServerEnv where
  env := .plain .levelDB
  openDatabase := fun _ => true
  mapUrl := fun _ _ => true
  directory := fun dbName collName => some (dbName ++ qs "/" ++ collName)
  openStore := fun _ => some .empty
  unsetSnapshotId := 0

/-- A request to the collection `c` of the database `D`. -/
def requestD (serial : ℕ) (type : LinkObjectType) : QDocdbLinkObject :=
  ⟨serial, serial, .of (qs "D") (qs "c"), [], type⟩

/-- The insertion of the document `a` in a transaction. -/
def insertAIn (transactionId : ℤ) : LinkObjectType :=
  .insert transactionId [(qs "_id", .string (qs "a"))] ⟨[], []⟩ false false

end QDocdbServer

end Qdocdb
