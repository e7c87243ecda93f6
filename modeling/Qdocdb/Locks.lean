import Qdocdb.Directories

/-!
# Exclusive locks

While a client holds the lock of a database, requests of the others that name the
database by a url have to wait. The requests to write or discard a transaction have no
url, so they pass: as long as nobody writes a transaction on a database that another
client has locked, nothing in it changes (`lockIsolated_of_reachable`).

A lock is released by its owner, which wakes up the waiting clients, or when the owner's
connection is lost, which wakes up nobody: as long as no client is waiting for a lock
that goes away in this way, none is stranded (`noneStranded_of_reachable`).
-/

namespace Qdocdb

namespace QDocdbServer

variable {E : ServerEnv} {s s' : QDocdbServer} {client : ClientId} {o : QDocdbLinkObject}

/-! ## Isolation -/

/-- While somebody else holds the lock of a database, a request that is served changes no
content of its collections, and no store in their directories. -/
def LockIsolated (E : ServerEnv) (s : QDocdbServer) (e : Event) : Prop :=
  ∀ s₁ client o, Call E s e s₁ client o → ∀ dbName owner,
    s₁.databaseLocks dbName = some owner → owner ≠ client →
    ∀ p, s₁.serve E client o = some p → ∀ collName,
      p.1.content (dbName, collName) = s₁.content (dbName, collName) ∧
        ∀ path, E.directory dbName collName = some path → p.1.dbMap path = s₁.dbMap path

/-- The directory of the collection is not, under another name, the one of a collection of a
database that somebody else has locked. -/
def Apart (E : ServerEnv) (s : QDocdbServer) (client : ClientId) (place : Place) : Prop :=
  ∀ dbName owner, s.databaseLocks dbName = some owner → owner ≠ client → dbName ≠ place.1 →
    ∀ collName, ¬ SameDirectory E place (dbName, collName)

/-- No transaction is written to a database that somebody else has locked, and no request writes
to a directory of such a database under another name, or opens it under that name. -/
def AvoidsLocks (E : ServerEnv) (s : QDocdbServer) : Event → Prop
  | .received client o =>
    (∀ txId t, o.type = .writeTransaction txId → s.transactions.lookup txId = some t →
      (∀ owner, s.databaseLocks t.place.1 = some owner → owner = client) ∧
        s.Apart E client t.place) ∧
      (s.WritesOrOpens o → s.Apart E client o.place)
  | .unlocked client => ∀ o ∈ (s.links client).unlockWait, s.WritesOrOpens o →
    s.Apart E client o.place
  | _ => True

/-- All waiting requests have a url. -/
def WaitingHaveUrl (s : QDocdbServer) : Prop :=
  ∀ client, ∀ o ∈ (s.links client).unlockWait, o.type.urlNeeded = true

theorem waitingHaveUrl_of_links (h : WaitingHaveUrl s)
    (hlinks : ∀ client, ∀ o ∈ (s'.links client).unlockWait, o ∈ (s.links client).unlockWait) :
    WaitingHaveUrl s' :=
  fun client o ho => h client o (hlinks client o ho)

/-- Between events: the open stores are in order, and the requests that wait have a url. -/
structure LocksInvariant (E : ServerEnv) (s : QDocdbServer) : Prop where
  attached : Attached E s
  haveUrl : WaitingHaveUrl s

/-- While the first `n` waiting requests of a client are received again: these stay apart from
what others have locked. -/
structure ReplaysApart (E : ServerEnv) (client : ClientId) (n : ℕ) (s : QDocdbServer) : Prop
    extends LocksInvariant E s where
  apart : ∀ o ∈ (s.links client).unlockWait.take n, s.WritesOrOpens o →
    s.Apart E client o.place

/-- Without another lock of somebody else the collection stays apart. -/
theorem Apart.mono {place : Place} (h : s.Apart E client place)
    (hlocks : ∀ dbName owner, s'.databaseLocks dbName = some owner → owner ≠ client →
      s.databaseLocks dbName = some owner) : s'.Apart E client place :=
  fun dbName owner hlock hne => h dbName owner (hlocks dbName owner hlock hne) hne

/-- Serving a request of a client gives no lock to somebody else. -/
theorem Served.databaseLocks_of_other {p : QDocdbServer × Reply} (h : Served E s client o p)
    {dbName : QString} {owner : ClientId} (hlock : p.1.databaseLocks dbName = some owner)
    (hne : owner ≠ client) : s.databaseLocks dbName = some owner := by
  rcases h.locks with h | ⟨-, -, h⟩ | ⟨-, -, h⟩
  · rwa [← h.databaseLocks]
  · rw [h] at hlock
    dsimp only at hlock
    by_cases hdb : dbName = o.url.dbName
    · subst hdb
      rw [Function.update_self] at hlock
      exact absurd (Option.some.inj hlock).symm hne
    · rwa [Function.update_of_ne hdb] at hlock
  · rw [h] at hlock
    by_cases hdb : dbName = o.url.dbName
    · subst hdb
      simp [emitUnlocked] at hlock
    · simpa [emitUnlocked, Function.update_of_ne hdb] using hlock

theorem serverInvariant_locks :
    ServerInvariant E (AvoidsLocks E) (LocksInvariant E) (ReplaysApart E)
      (fun _ s client o => AvoidsLocks E s (.received client o)) where
  started := ⟨fun _ _ hc => (by cases hc), fun _ _ h => (by cases h)⟩
  connected := fun hI _ => by
    refine ⟨hI.attached.congr ⟨fun _ => rfl, rfl⟩, waitingHaveUrl_of_links hI.haveUrl ?_⟩
    intro client o ho
    rcases mem_unlockWait_setLink ho with ⟨-, h⟩ | ⟨-, h⟩
    · cases h
    · exact h
  disconnected := fun hI _ _ => by
    refine ⟨hI.attached.clientRemoved, waitingHaveUrl_of_links hI.haveUrl ?_⟩
    intro client o ho
    rcases mem_unlockWait_setLink ho with ⟨-, h⟩ | ⟨-, h⟩
    · cases h
    · exact h
  notified := fun hI _ => by
    rw [observeChanged]
    split <;> exact ⟨hI.attached.congr ⟨fun _ => rfl, rfl⟩, hI.haveUrl⟩
  arrived := fun hI hok _ => ⟨⟨hI, fun o ho => by simp at ho⟩, hok⟩
  taken := fun {s client} hI hok _ => by
    have hwait : (((s.takeUnlocked client).links client).unlockWait) =
        (s.links client).unlockWait := by rw [takeUnlocked, links_setLink_self]
    refine ⟨⟨hI.attached.congr ⟨fun _ => rfl, rfl⟩, waitingHaveUrl_of_links hI.haveUrl ?_⟩, ?_⟩
    · intro c o ho
      rcases mem_unlockWait_setLink ho with ⟨rfl, h⟩ | ⟨-, h⟩
      · exact h
      · exact h
    · intro o ho hcoll
      rw [hwait, List.take_length] at ho
      exact hok o ho hcoll
  dequeued := fun {s client n o rest} hJ _ hq => by
    refine ⟨⟨⟨hJ.attached.congr ⟨fun _ => rfl, rfl⟩, waitingHaveUrl_of_links hJ.haveUrl ?_⟩, ?_⟩,
      fun txId t ht => ?_, hJ.apart o (by simp [hq])⟩
    · intro c o ho
      rcases mem_unlockWait_setLink ho with ⟨rfl, h⟩ | ⟨-, h⟩
      · exact List.mem_of_mem_tail h
      · exact h
    · intro o' ho' hcoll
      rw [dequeue, links_setLink_self, hq, List.tail_cons] at ho'
      exact hJ.apart o' (by rw [hq]; exact List.mem_cons_of_mem _ ho') hcoll
    · have hurl := hJ.haveUrl client o (by rw [hq]; exact List.mem_cons_self)
      rw [ht] at hurl
      cases hurl
  done := fun hJ _ => hJ.toLocksInvariant
  opened := fun {s client n o} hJ hfit => by
    have hattached : Attached E (s.openDatabaseOf E o) :=
      hJ.attached.congr sameStores_openDatabaseOf
    obtain ⟨d, h, hcollection⟩ := openDatabaseOf_eq E s o
    rw [h] at hattached hcollection ⊢
    exact ⟨⟨⟨hattached, hJ.haveUrl⟩, fun o' ho' hwrites =>
        hJ.apart o' ho' (hwrites.mono fun hnone => hcollection o'.place ▸ hnone)⟩,
      hfit.1, fun hwrites => hfit.2 (hwrites.mono fun hnone => hcollection o.place ▸ hnone)⟩
  waits := fun {s client n o} hJ hfit _ hw => by
    obtain ⟨hurl, -⟩ := mustWait_iff.mp hw
    refine ⟨⟨hJ.attached.congr ⟨fun _ => rfl, rfl⟩, fun c o' ho' => ?_⟩, fun o' ho' hcoll => ?_⟩
    · rcases mem_unlockWait_setLink ho' with ⟨rfl, h⟩ | ⟨-, h⟩
      · rcases List.mem_append.mp h with h | h
        · exact hJ.haveUrl c o' h
        · obtain rfl := List.mem_singleton.mp h
          exact hurl
      · exact hJ.haveUrl c o' h
    · rw [appendUnlockWait, links_setLink_self, List.take_append, List.mem_append] at ho'
      rcases ho' with h | h
      · exact hJ.apart o' h hcoll
      · obtain rfl := List.mem_singleton.mp (List.mem_of_mem_take h)
        exact hfit.2 hcoll
  served := fun {s client n o p} hJ _ _ _ hserved => by
    refine ⟨⟨(hJ.attached.stores hserved.stores).congr ⟨fun _ => rfl, rfl⟩,
      waitingHaveUrl_of_links hJ.haveUrl fun c o' ho' => ?_⟩, fun o' ho' hwrites => ?_⟩
    · rwa [← hserved.unlockWait c]
    · have hwait := hserved.unlockWait client
      change o' ∈ (p.1.links client).unlockWait.take n at ho'
      rw [hwait] at ho'
      -- what is not open now was not open before
      exact (hJ.apart o' ho' (hwrites.mono fun hnone =>
        hserved.stores.collection?_eq_none hnone)).mono fun dbName owner hlock hne =>
          hserved.databaseLocks_of_other hlock hne

/-- **Isolation** of locked databases in every run in which nobody writes a transaction to
a database that somebody else has locked, or leads to a directory of one under another name. -/
theorem lockIsolated_of_reachable {e : Event} (h : ServerReachable E (AvoidsLocks E) s)
    (hok : AvoidsLocks E s e) : LockIsolated E s e := by
  intro s₁ client o hcall dbName owner hlock howner p hp collName
  obtain ⟨n, hJ, ⟨htx, hwrites⟩, -, hw⟩ := serverInvariant_locks.calls h hok hcall
  have hstores := (served_of_serve hp).stores
  -- a request with a url of the locked database would have to wait
  have hother : o.type.collNeeded = true → dbName ≠ o.place.1 := by
    rintro hneeded rfl
    have hwait := mustWait_iff.mpr ⟨LinkObjectType.urlNeeded_of_collNeeded hneeded, owner, howner,
      hlock⟩
    rw [hw] at hwait
    cases hwait
  have hcommit : ∀ txId t, o.type = .writeTransaction txId →
      s₁.transactions.lookup txId = some t → dbName ≠ t.place.1 := by
    rintro txId t ht hlookup rfl
    exact howner ((htx txId t ht hlookup).1 owner hlock)
  refine ⟨hstores.content_of_apart hJ.attached (fun ho => ?_) fun txId t ht hlookup => ?_,
    fun path hpath => hstores.dbMap_of_apart hJ.attached (fun ho hsame => ?_)
      fun txId t ht hlookup hsame => ?_⟩
  · exact ⟨fun heq => hother ho.1 (congrArg Prod.fst heq),
      hwrites ho dbName owner hlock howner (hother ho.1) collName⟩
  · exact ⟨fun heq => hcommit txId t ht hlookup (congrArg Prod.fst heq),
      (htx txId t ht hlookup).2 dbName owner hlock howner (hcommit txId t ht hlookup) collName⟩
  · exact hwrites ho dbName owner hlock howner (hother ho.1) collName ⟨path, hsame, hpath⟩
  · exact (htx txId t ht hlookup).2 dbName owner hlock howner (hcommit txId t ht hlookup) collName
      ⟨path, hsame, hpath⟩

/-- Client 1 opens a transaction on `D` and inserts a document in it; client 2 locks `D`. -/
def lockedD : List Event :=
  [.connected 1, .connected 2, .received 1 (requestD 0 .newTransaction),
    .received 1 (requestD 1 (insertAIn 0)), .received 2 (requestD 0 .exclusiveLock)]

theorem exists_lockedD (ok : QDocdbServer → Event → Prop) (hok : ∀ s, ∀ e ∈ lockedD, ok s e) :
    ∃ s, ServerReachable emptyServerEnv ok s ∧ handleAll emptyServerEnv .init lockedD = some s := by
  obtain ⟨s, hs⟩ := Option.isSome_iff_exists.mp
    (show (handleAll emptyServerEnv .init lockedD).isSome = true by decide)
  exact ⟨s, reachable_of_handleAll .started hok hs, hs⟩

/-- No other database has the directory of a collection when both names are single letters. -/
theorem apart_emptyServerEnv {x y : QChar} (hx : x ≠ 47) (hy : y ≠ 47) :
    s.Apart emptyServerEnv client ([x], [y]) := by
  rintro dbName owner - - hne collName ⟨path, hpath, hpath'⟩
  have heq : dbName ++ qs "/" ++ collName = [x] ++ qs "/" ++ [y] :=
    Option.some.inj (hpath'.trans hpath.symm)
  rcases dbName with _ | ⟨a, _ | ⟨b, _ | ⟨c, l⟩⟩⟩ <;> simp_all [qs]

/-- The insertion of a document into another database. -/
def insertE : QDocdbLinkObject := ⟨2, 2, .of (qs "E") (qs "c"), [], insertAIn (-1)⟩

theorem avoidsLocks_of_name {serial : ℕ} {x : QChar} {type : LinkObjectType} (hx : x ≠ 47)
    (h : ∀ txId, type ≠ .writeTransaction txId) :
    AvoidsLocks emptyServerEnv s
      (.received client ⟨serial, serial, .of [x] (qs "c"), [], type⟩) :=
  ⟨fun txId _ ht => absurd ht (h txId), fun _ => apart_emptyServerEnv hx (by decide)⟩

/-- While `D` is locked an insertion into `E` is served, and it changes nothing in `D`. -/
theorem lockIsolated_lockedD :
    ∃ s, handleAll emptyServerEnv .init lockedD = some s ∧
      (s.openDatabaseOf emptyServerEnv insertE).mustWait 1 insertE = false ∧
      LockIsolated emptyServerEnv s (.received 1 insertE) := by
  obtain ⟨s, hs, heq⟩ := exists_lockedD (AvoidsLocks emptyServerEnv) fun s => by
    simp only [lockedD, List.forall_mem_cons]
    refine ⟨trivial, trivial, ?_, ?_, ?_, by simp⟩
    all_goals exact avoidsLocks_of_name (by decide) fun txId ht => by cases ht
  have hwait : (handleAll emptyServerEnv .init lockedD).map (fun s =>
      (s.openDatabaseOf emptyServerEnv insertE).mustWait 1 insertE) = some false := by decide
  rw [heq] at hwait
  exact ⟨s, heq, Option.some.inj hwait, lockIsolated_of_reachable hs
    (avoidsLocks_of_name (by decide) fun txId ht => by cases ht)⟩

/-- Client 1 writes its transaction although client 2 has locked `D`. -/
theorem not_lockIsolated :
    ¬ ∀ (E : ServerEnv) (s : QDocdbServer) (e : Event),
      ServerReachable E (fun _ _ => True) s → LockIsolated E s e := by
  intro h
  obtain ⟨s, hs, heq⟩ := exists_lockedD (fun _ _ => True) fun _ _ _ => trivial
  have hrun : ∀ {α : Type} (f : QDocdbServer → α),
      some (f s) = (handleAll emptyServerEnv .init lockedD).map f := fun f => by rw [heq]; rfl
  have hlock : s.databaseLocks (qs "D") = some 2 :=
    Option.some.inj ((hrun fun s => s.databaseLocks (qs "D")).trans (by decide))
  have hclients : 1 ∈ s.clients := by
    have := (hrun fun s => decide (1 ∈ s.clients)).trans (show _ = some true by decide)
    simpa using this
  have hsame := (h emptyServerEnv s (.received 1 (requestD 2 (.writeTransaction 0))) hs s 1
    (requestD 2 (.writeTransaction 0)) (.received hclients rfl) (qs "D") 2 hlock (by decide)
    (s.writeTransaction emptyServerEnv 0) rfl (qs "c")).1
  have hchanged := (hrun fun s => decide
    ((s.writeTransaction emptyServerEnv 0).1.content (qs "D", qs "c") =
      s.content (qs "D", qs "c"))).trans (show _ = some false by decide)
  rw [hsame] at hchanged
  simp at hchanged

/-! ## Waiting requests -/

/-- When no `unlocked` signal is pending, every waiting request names a database that
somebody else has locked. -/
def NoneStranded (s : QDocdbServer) : Prop :=
  (∀ client ∈ s.clients, (s.links client).unlocked = 0) →
    ∀ client ∈ s.clients, ∀ o ∈ (s.links client).unlockWait,
      ∃ owner, owner ≠ client ∧ s.databaseLocks o.url.dbName = some owner

/-- A client that is lost holds no lock that another one waits for, unless a signal to
that one is pending anyway. -/
def LosesNoAwaitedLock (s : QDocdbServer) : Event → Prop
  | .disconnected client => ∀ other ∈ s.clients, other ≠ client →
    ∀ o ∈ (s.links other).unlockWait, s.databaseLocks o.url.dbName = some client →
      0 < (s.links other).unlocked
  | _ => True

/-- A waiting request has something to wait for: the lock of another client, or a signal. -/
def Awaits (s : QDocdbServer) (client : ClientId) (o : QDocdbLinkObject) : Prop :=
  (∃ owner, owner ≠ client ∧ s.databaseLocks o.url.dbName = some owner) ∨
    0 < (s.links client).unlocked

/-- All waiting requests have something to wait for, except perhaps the first `n` of the
client whose queue is being served. -/
def AllAwait (client : ClientId) (n : ℕ) (s : QDocdbServer) : Prop :=
  ∀ c ∈ s.clients, ∀ o ∈ (s.links c).unlockWait.drop (if c = client then n else 0), Awaits s c o

/-- Serving a request takes nothing away that another request waits for. -/
theorem Served.awaits {p : QDocdbServer × Reply} (h : Served E s client o p) {c : ClientId}
    (hc : c ∈ s.clients) {o' : QDocdbLinkObject} (ha : Awaits s c o') : Awaits p.1 c o' := by
  rcases h.locks with h | ⟨-, hown, h⟩ | ⟨-, hown, h⟩
  · rwa [Awaits, h.databaseLocks, h.links]
  · rcases ha with ⟨owner, hne, hlock⟩ | hpending
    · rw [h]
      by_cases hdb : o'.url.dbName = o.url.dbName
      · rw [hdb] at hlock
        have howner : owner = client := by simpa [hlock] using hown
        exact .inl ⟨client, howner ▸ hne, by simp [hdb]⟩
      · exact .inl ⟨owner, hne, by simp [Function.update_of_ne hdb, hlock]⟩
    · rw [h]
      exact .inr hpending
  · -- a released lock is signalled to everybody
    rw [h]
    refine .inr ?_
    simp [emitUnlocked, hc]

/-- A change of one client's queue or signals keeps what the requests of the others wait for. -/
theorem AllAwait.setLink {n m : ℕ} (hI : AllAwait client n s) {link : QDocdbLinkBase}
    (hlink : client ∈ s.clients → ∀ o ∈ link.unlockWait.drop m,
      (∃ owner, owner ≠ client ∧ s.databaseLocks o.url.dbName = some owner) ∨ 0 < link.unlocked) :
    AllAwait client m (s.setLink client link) := by
  intro c hc o ho
  by_cases hcc : c = client
  · subst hcc
    rw [if_pos rfl, links_setLink_self] at ho
    rw [Awaits, links_setLink_self]
    exact hlink hc o ho
  · rw [if_neg hcc, links_setLink_of_ne hcc] at ho
    rw [Awaits, links_setLink_of_ne hcc]
    exact hI c hc o (by rwa [if_neg hcc])

theorem serverInvariant_allAwait :
    ServerInvariant E LosesNoAwaitedLock (fun s => ∀ client, AllAwait client 0 s) AllAwait
      (fun _ _ _ _ => True) where
  started := fun _ _ hc => by cases hc
  connected := fun {s client} hI hc c c' hc' o ho => by
    rw [ite_self, List.drop_zero] at ho
    rcases mem_unlockWait_setLink ho with ⟨-, h⟩ | ⟨hne, h⟩
    · cases h
    · have hmem : c' ∈ s.clients :=
        (List.mem_append.mp hc').resolve_right fun h => hne (List.mem_singleton.mp h)
      have hlinks : (s.newConnection client).links c' = s.links c' := links_setLink_of_ne hne
      rw [Awaits, hlinks]
      exact hI c c' hmem o (by rwa [ite_self, List.drop_zero])
  disconnected := fun {s client} hI hok hc c c' hc' o ho => by
    rw [ite_self, List.drop_zero] at ho
    have hmem := List.mem_filter.mp hc'
    have hne : c' ≠ client := by simpa using hmem.2
    rcases mem_unlockWait_setLink ho with ⟨h, -⟩ | ⟨-, h⟩
    · exact absurd h hne
    · have hlinks : (s.clientRemoved client).links c' = s.links c' := links_setLink_of_ne hne
      rw [Awaits, hlinks]
      rcases hI c c' hmem.1 o (by rwa [ite_self, List.drop_zero]) with ⟨owner, howner, hlock⟩ | h'
      · by_cases hown : owner = client
        · exact .inr (hok c' hmem.1 hne o h (hown ▸ hlock))
        · exact .inl ⟨owner, howner, by simp [clientRemoved, hlock, hown]⟩
      · exact .inr h'
  notified := fun {s pending id reply} hI _ => by
    rw [observeChanged]
    split <;> exact hI
  arrived := fun hI _ _ => ⟨hI _, trivial⟩
  taken := fun {s client} hI _ _ => (hI client).setLink fun _ o ho => by
    simp at ho
  dequeued := fun {s client n o rest} hI _ hq => by
    refine ⟨hI.setLink fun hc o' ho' => ?_, trivial⟩
    exact hI client hc o' (by simpa [hq] using ho')
  done := fun {s client n} hI hn c c' hc' o ho => by
    rw [ite_self, List.drop_zero] at ho
    by_cases hcc : c' = client
    · rcases hn with rfl | hq
      · exact hI c' hc' o (by rwa [ite_self, List.drop_zero])
      · rw [hcc, hq] at ho
        cases ho
    · exact hI c' hc' o (by rwa [if_neg hcc, List.drop_zero])
  opened := fun {s client n o} hI _ => by
    obtain ⟨d, h, -⟩ := openDatabaseOf_eq E s o
    rw [h]
    exact ⟨hI, trivial⟩
  waits := fun {s client n o} hI _ hc hw => hI.setLink fun _ o' ho' => by
    rw [List.drop_append, List.mem_append] at ho'
    rcases ho' with ho' | ho'
    · exact hI client hc o' (by rwa [if_pos rfl])
    · obtain rfl := List.mem_singleton.mp (List.mem_of_mem_drop ho')
      exact .inl (mustWait_iff.mp hw).2
  served := fun {s client n o p} hI _ _ _ hserved c hc o' ho' => by
    have hc' : c ∈ s.clients := hserved.clients ▸ hc
    have ho'' : o' ∈ (s.links c).unlockWait.drop (if c = client then n else 0) := by
      rwa [← hserved.unlockWait c]
    exact hserved.awaits hc' (hI c hc' o' ho'')

/-- **No request is stranded** in any run in which no client is lost while it holds a lock
that another one waits for. -/
theorem noneStranded_of_reachable (h : ServerReachable E LosesNoAwaitedLock s) :
    NoneStranded s := by
  intro hpending client hc o ho
  have hI := serverInvariant_allAwait.reachable h client client hc o (by simpa using ho)
  exact hI.resolve_right fun h => by
    rw [hpending client hc] at h
    exact absurd h (lt_irrefl 0)

/-- Client 2 locks `D`, and a request of client 1 has to wait. -/
def waitingD : List Event :=
  [.connected 1, .connected 2, .received 2 (requestD 0 .exclusiveLock),
    .received 1 (requestD 0 (insertAIn (-1)))]

/-- The request of client 1 is served when client 2 unlocks `D`. -/
theorem noneStranded_waitingD :
    ∃ s, handleAll emptyServerEnv .init
        (waitingD ++ [.received 2 (requestD 1 .unlock), .unlocked 1, .unlocked 2]) = some s ∧
      NoneStranded s := by
  obtain ⟨s, hs⟩ := Option.isSome_iff_exists.mp (show (handleAll emptyServerEnv .init
    (waitingD ++ [.received 2 (requestD 1 .unlock), .unlocked 1, .unlocked 2])).isSome = true
    by decide)
  exact ⟨s, hs, noneStranded_of_reachable (reachable_of_handleAll .started
    (fun s => by simp [waitingD, LosesNoAwaitedLock]) hs)⟩

/-- When client 2 is lost instead, the request of client 1 waits for nothing. -/
theorem not_noneStranded :
    ¬ ∀ (E : ServerEnv) (s : QDocdbServer), ServerReachable E (fun _ _ => True) s →
      NoneStranded s := by
  intro h
  obtain ⟨s, hs, hp⟩ := exists_of_handleAll
    (E := emptyServerEnv) (p := fun s => decide (s.clients = [1] ∧ (s.links 1).unlocked = 0 ∧
      (s.links 1).unlockWait.map (fun o => o.url.dbName) = [qs "D"] ∧
      s.databaseLocks (qs "D") = none))
    (show ∀ s, ∀ e ∈ waitingD ++ [.disconnected 2], True from fun _ _ _ => trivial) (by decide)
  obtain ⟨hclients, hpending, hqueue, hlock⟩ := of_decide_eq_true hp
  have hnone := h _ s hs (by simpa [hclients] using hpending) 1 (by simp [hclients])
  obtain ⟨o, ho, hdb⟩ : ∃ o ∈ (s.links 1).unlockWait, o.url.dbName = qs "D" :=
    List.mem_map.mp (by rw [hqueue]; exact List.mem_cons_self)
  obtain ⟨owner, -, howner⟩ := hnone o ho
  rw [hdb, hlock] at howner
  cases howner

end QDocdbServer

end Qdocdb
