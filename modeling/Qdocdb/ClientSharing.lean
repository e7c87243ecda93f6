import Mathlib.Data.Finset.Erase
import Mathlib.Data.Finset.Insert
import Qdocdb.Lib.SortedMap
import Qdocdb.Subscriptions

/-!
# Sharing clients

The connectors of a process share the clients of their servers through two tables:
`dbClients` leads from a server to its client, and `dbClientUses` counts the connectors of a
client. Here a client is its address, which memory may hand out again once the client was
deleted, and a connector is what `setUrl` and the destructor make of it. In every run of
constructions, `setUrl` calls and destructions the counts are right, and no connector is left
with a client that was deleted (`sharingCounted_of_reachable`). Behind every process that connectors
reach with their subscriptions there is such a run (`exists_behind_of_reachable`).
-/

namespace Qdocdb

/-- The parts of a `QDocdbConnector` that `setUrl` and the destructor use. -/
structure SharingConnector where
  url : QString
  urlValid : Bool
  lastError : QString
  /-- the address of the client, unless it is `NULL` -/
  dbClient : Option ℕ
  deriving DecidableEq

/-- `QDocdbConnector()`, which leaves `urlValid` unset. -/
def SharingConnector.new (urlValid : Bool) : SharingConnector := ⟨[], urlValid, [], none⟩

/-- What a `setUrl` call meets: the address for a new client, and whether it connects. -/
structure ClientAnswer where
  address : ℕ
  isConnected : Bool

/-- The connectors of a process, the two tables, and the clients that exist. -/
structure ClientPool where
  connectors : SortedMap ObjectId SharingConnector
  dbClients : SortedMap QString ℕ
  dbClientUses : SortedMap ℕ ℤ
  clients : Finset ℕ

namespace ClientPool

/-- A process without connectors. -/
def start : ClientPool := ⟨.empty, .empty, .empty, ∅⟩

/-- `dbClientUses[client]`, which is 0 unless it was set. -/
def uses (p : ClientPool) (client : ℕ) : ℤ := (p.dbClientUses.find? client).getD 0

/-- `dbClientUses[client] += n` -/
def addUses (p : ClientPool) (client : ℕ) (n : ℤ) : ClientPool :=
  { p with dbClientUses := p.dbClientUses.insert client (p.uses client + n) }

def setConnector (p : ClientPool) (sub : ObjectId) (c : SharingConnector) : ClientPool :=
  { p with connectors := p.connectors.insert sub c }

/-- The connector gives back the client that it has. -/
def release (p : ClientPool) : Option ℕ → ClientPool
  | some client => p.addUses client (-1)
  | none => p

/-- The client of a server: the one that `dbClients` has, or a new one if it connects. -/
def acquire (p : ClientPool) (a : ClientAnswer) (serverName : QString) :
    ClientPool × Option ℕ :=
  match p.dbClients.find? serverName with
  | some client => (p.addUses client 1, some client)
  | none =>
    if a.isConnected then
      ({ p with
        clients := insert a.address p.clients
        dbClients := p.dbClients.insert serverName a.address }.addUses a.address 1, some a.address)
    else (p, none)

/-- `setUrl` -/
def setUrl (parser : UrlParser) (p : ClientPool) (a : ClientAnswer) (sub : ObjectId)
    (c : SharingConnector) (url : QString) : ClientPool :=
  if c.url = url then p
  else
    let c := { c with url := url }
    let u := parser.parse url
    if u.scheme ≠ qs "qdocdb" then
      p.setConnector sub { c with lastError := qs "Error: scheme must be 'qdocdb'" }
    else if u.host = [] ∨ u.url.dbName = [] ∨ u.url.collName = [] then
      p.setConnector sub
        { c with lastError := qs "Error: Invalid url: " ++ url, urlValid := false }
    else
      let c := { c with urlValid := true }
      match (p.release c.dbClient).acquire a u.host with
      | (p, some client) => p.setConnector sub { c with dbClient := some client }
      | (p, none) =>
        p.setConnector sub
          { c with
            lastError := qs "Can't connect to database server " ++ u.host
            dbClient := none }

/-- The client is taken out of `dbClients` wherever it is, its count is removed, and it is
deleted. -/
def dropClient (p : ClientPool) (client : ℕ) : ClientPool :=
  { p with
    dbClients := ⟨p.dbClients.entries.filter fun e => e.2 ≠ client, p.dbClients.sorted.filter _⟩
    dbClientUses := p.dbClientUses.erase client
    clients := p.clients.erase client }

/-- `~QDocdbConnector` -/
def destroy (p : ClientPool) (sub : ObjectId) (c : SharingConnector) : ClientPool :=
  let p :=
    match c.dbClient with
    | some client =>
      let p := p.addUses client (-1)
      if p.uses client ≤ 0 then p.dropClient client else p
    | none => p
  { p with connectors := p.connectors.erase sub }

/-- The states of a process in which connectors are constructed, are given urls and are
destroyed, one at a time; the constructor with a url calls `setUrl` at its end. Memory hands
out addresses that no client has. -/
inductive SharingReachable (parser : UrlParser) : ClientPool → Prop
  | started : SharingReachable parser start
  | created {p : ClientPool} (h : SharingReachable parser p) {sub : ObjectId} (urlValid : Bool)
      (hsub : p.connectors.find? sub = none) :
      SharingReachable parser (p.setConnector sub (.new urlValid))
  | setUrl {p : ClientPool} (h : SharingReachable parser p) {sub : ObjectId}
      {c : SharingConnector} (hsub : p.connectors.find? sub = some c) (url : QString)
      (a : ClientAnswer) (ha : a.address ∉ p.clients) :
      SharingReachable parser (p.setUrl parser a sub c url)
  | destroyed {p : ClientPool} (h : SharingReachable parser p) {sub : ObjectId}
      {c : SharingConnector} (hsub : p.connectors.find? sub = some c) :
      SharingReachable parser (p.destroy sub c)

/-! ## The counts -/

/-- The number of connectors that have the client. -/
def users (p : ClientPool) (client : ℕ) : ℕ :=
  p.connectors.entries.countP fun e => e.2.dbClient = some client

/-- **Sharing is counted**: each count is the number of connectors, and each connector has no
client, or one that is registered and has not been deleted. -/
structure SharingCounted (p : ClientPool) : Prop where
  uses_eq : ∀ client, p.uses client = p.users client
  registered : ∀ sub c client, p.connectors.find? sub = some c → c.dbClient = some client →
    (∃ serverName, p.dbClients.find? serverName = some client) ∧ client ∈ p.clients

/-- What is true besides: what is registered was not deleted. -/
structure SharingInv (p : ClientPool) : Prop extends SharingCounted p where
  mem_clients : ∀ serverName client, p.dbClients.find? serverName = some client →
    client ∈ p.clients

/-- The number of connectors other than `sub` that have the client. -/
def otherUsers (p : ClientPool) (sub : ObjectId) (client : ℕ) : ℕ :=
  (p.connectors.erase sub).entries.countP fun e => e.2.dbClient = some client

variable {p : ClientPool} {sub : ObjectId} {c : SharingConnector}

theorem users_eq (hsub : p.connectors.find? sub = some c) (client : ℕ) :
    p.users client = p.otherUsers sub client + if c.dbClient = some client then 1 else 0 := by
  rw [users, SortedMap.countP_erase _ sub, hsub, otherUsers]
  simp only [Option.elim_some, decide_eq_true_eq]

theorem users_setConnector (c' : SharingConnector) (client : ℕ) :
    (p.setConnector sub c').users client =
      p.otherUsers sub client + if c'.dbClient = some client then 1 else 0 := by
  rw [users, setConnector, SortedMap.countP_insert, otherUsers]
  simp only [decide_eq_true_eq]

theorem uses_addUses (p : ClientPool) (client : ℕ) (n : ℤ) (client' : ℕ) :
    (p.addUses client n).uses client' = p.uses client' + if client' = client then n else 0 := by
  rw [uses, addUses, SortedMap.find?_insert]
  split
  · rename_i h
    rw [h]
    rfl
  · rw [add_zero]
    rfl

/-- Without the connector, the count is that of the others. -/
theorem SharingCounted.uses_release (h : SharingCounted p) (hsub : p.connectors.find? sub = some c)
    (client : ℕ) : (p.release c.dbClient).uses client = p.otherUsers sub client := by
  have huses := h.uses_eq client
  rw [users_eq hsub] at huses
  cases hclient : c.dbClient with
  | none =>
    rw [hclient, if_neg (by simp)] at huses
    exact huses
  | some used =>
    rw [hclient] at huses
    rw [release, uses_addUses]
    by_cases heq : client = used
    · rw [if_pos (congrArg some heq.symm)] at huses
      rw [if_pos heq]
      omega
    · rw [if_neg fun hsome => heq (Option.some_inj.mp hsome).symm] at huses
      rw [if_neg heq]
      omega

/-! ## `setUrl` -/

/-- Another text or flag changes nothing in the sharing. -/
theorem SharingInv.setConnector (h : SharingInv p) (hsub : p.connectors.find? sub = some c)
    {c' : SharingConnector} (hclient : c'.dbClient = c.dbClient) :
    SharingInv (p.setConnector sub c') where
  uses_eq client := by
    rw [users_setConnector, hclient, ← users_eq hsub]
    exact h.uses_eq client
  registered sub' c'' client hsub' hsome := by
    change (p.connectors.insert sub c').find? sub' = some c'' at hsub'
    rw [SortedMap.find?_insert] at hsub'
    split at hsub'
    · obtain rfl := Option.some_inj.mp hsub'
      exact h.registered sub c client hsub (hclient ▸ hsome)
    · exact h.registered sub' c'' client hsub' hsome
  mem_clients := h.mem_clients

/-- What `acquire` leaves: the client is counted, registered and alive, and so are those from
before. -/
structure Acquired (p p' : ClientPool) (dbClient : Option ℕ) : Prop where
  connectors : p'.connectors = p.connectors
  uses : ∀ client, p'.uses client = p.uses client + if dbClient = some client then 1 else 0
  dbClients : ∀ serverName client, p.dbClients.find? serverName = some client →
    p'.dbClients.find? serverName = some client
  clients : p.clients ⊆ p'.clients
  registered : ∀ client, dbClient = some client →
    ∃ serverName, p'.dbClients.find? serverName = some client
  mem_clients : (∀ serverName client, p.dbClients.find? serverName = some client →
    client ∈ p.clients) → ∀ serverName client, p'.dbClients.find? serverName = some client →
    client ∈ p'.clients

/-- **acquire**: by what `dbClients` has for the server, and whether a new client connects. -/
theorem acquired (p : ClientPool) (a : ClientAnswer) (serverName : QString) :
    Acquired p (p.acquire a serverName).1 (p.acquire a serverName).2 := by
  have huses : ∀ (q : ClientPool) (client client' : ℕ), (q.addUses client 1).uses client' =
      q.uses client' + if some client = some client' then 1 else 0 := by
    intro q client client'
    rw [uses_addUses]
    simp only [Option.some_inj, eq_comm]
  cases hserver : p.dbClients.find? serverName with
  | some client =>
    simp only [acquire, hserver]
    refine ⟨rfl, huses p client, fun _ _ h => h, subset_rfl, fun client' hsome => ?_, fun h => h⟩
    obtain rfl := Option.some_inj.mp hsome
    exact ⟨serverName, hserver⟩
  | none =>
    simp only [acquire, hserver]
    split
    · have hne : ∀ {s client}, p.dbClients.find? s = some client → s ≠ serverName := by
        rintro s client hs rfl
        rw [hserver] at hs
        cases hs
      refine ⟨rfl, huses _ a.address, fun s client hs => ?_, Finset.subset_insert _ _,
        fun client hsome => ⟨serverName, ?_⟩, fun h s client hs => ?_⟩
      · exact (SortedMap.find?_insert_of_ne _ _ (hne hs)).trans hs
      · exact (SortedMap.find?_insert_self _ _ _).trans hsome
      · change (p.dbClients.insert serverName a.address).find? s = some client at hs
        rw [SortedMap.find?_insert] at hs
        split at hs
        · rw [← Option.some_inj.mp hs]
          exact Finset.mem_insert_self _ _
        · exact Finset.mem_insert_of_mem (h s client hs)
    · refine ⟨rfl, fun client => ?_, fun _ _ h => h, subset_rfl, fun client hsome => ?_, fun h => h⟩
      · rw [if_neg (by simp), add_zero]
      · cases hsome

/-- The connector gives back its client and gets the one of another url. -/
theorem SharingInv.acquire (h : SharingInv p) (hsub : p.connectors.find? sub = some c)
    (a : ClientAnswer) (serverName : QString) {c' : SharingConnector}
    (hclient : c'.dbClient = ((p.release c.dbClient).acquire a serverName).2) :
    SharingInv (((p.release c.dbClient).acquire a serverName).1.setConnector sub c') := by
  have hacq := acquired (p.release c.dbClient) a serverName
  rw [← hclient] at hacq
  generalize ((p.release c.dbClient).acquire a serverName).1 = p' at hacq ⊢
  have hrelease : (p.release c.dbClient).connectors = p.connectors ∧
      (p.release c.dbClient).dbClients = p.dbClients ∧
      (p.release c.dbClient).clients = p.clients := by
    cases c.dbClient <;> exact ⟨rfl, rfl, rfl⟩
  obtain ⟨hconnectors, hdbClients, hclients⟩ := hrelease
  have hmem := hacq.mem_clients fun s client hs =>
    hclients ▸ h.mem_clients s client (hdbClients ▸ hs)
  refine ⟨⟨fun client => ?_, fun sub' c'' client hsub' hsome => ?_⟩, hmem⟩
  · have hothers : p'.otherUsers sub client = p.otherUsers sub client := by
      rw [otherUsers, otherUsers, hacq.connectors, hconnectors]
    rw [users_setConnector, hothers]
    refine (hacq.uses client).trans ?_
    rw [h.uses_release hsub]
    split <;> rfl
  · change (p'.connectors.insert sub c').find? sub' = some c'' at hsub'
    rw [SortedMap.find?_insert] at hsub'
    split at hsub'
    · obtain rfl := Option.some_inj.mp hsub'
      obtain ⟨s, hs⟩ := hacq.registered client hsome
      exact ⟨⟨s, hs⟩, hmem s client hs⟩
    · rw [hacq.connectors, hconnectors] at hsub'
      obtain ⟨⟨s, hs⟩, halive⟩ := h.registered sub' c'' client hsub' hsome
      exact ⟨⟨s, hacq.dbClients s client (hdbClients ▸ hs)⟩, hacq.clients (hclients ▸ halive)⟩

/-- **setUrl** keeps the counts, on each of its ways out. -/
theorem SharingInv.setUrl (h : SharingInv p) (hsub : p.connectors.find? sub = some c)
    (parser : UrlParser) (a : ClientAnswer) (url : QString) :
    SharingInv (p.setUrl parser a sub c url) := by
  rw [ClientPool.setUrl]
  split
  · exact h
  dsimp only
  split
  · exact h.setConnector hsub rfl
  split
  · exact h.setConnector hsub rfl
  · have hacq := fun c' => @SharingInv.acquire p sub c h hsub a (parser.parse url).host c'
    split
    · rename_i p' client heq
      rw [heq] at hacq
      exact hacq _ rfl
    · rename_i p' heq
      rw [heq] at hacq
      exact hacq _ rfl

/-! ## The destructor -/

/-- What `dbClients` has behind a deleted client: the entries of the others. -/
theorem find?_dbClients_dropClient {client client' : ℕ} {serverName : QString} :
    (p.dropClient client).dbClients.find? serverName = some client' ↔
      p.dbClients.find? serverName = some client' ∧ client' ≠ client := by
  rw [SortedMap.find?_eq_some_iff, SortedMap.find?_eq_some_iff, dropClient, List.mem_filter,
    decide_eq_true_eq]

theorem uses_dropClient (client client' : ℕ) :
    (p.dropClient client).uses client' = if client' = client then 0 else p.uses client' := by
  rw [uses, dropClient, SortedMap.find?_erase]
  split
  · rfl
  · rfl

/-- A connector with the client is one of its other users. -/
theorem otherUsers_pos {sub' : ObjectId} {c' : SharingConnector} {client : ℕ}
    (hsub' : (p.connectors.erase sub).find? sub' = some c') (hclient : c'.dbClient = some client) :
    0 < p.otherUsers sub client :=
  List.countP_pos_iff.mpr ⟨(sub', c'), SortedMap.find?_eq_some_iff.mp hsub', decide_eq_true hclient⟩

/-- The connector goes; what it leaves behind fits the others. -/
theorem SharingInv.erase (h : SharingInv p) {q : ClientPool}
    (hconnectors : q.connectors = p.connectors)
    (huses : ∀ client, q.uses client = p.otherUsers sub client)
    (hregistered : ∀ client, 0 < p.otherUsers sub client →
      (∃ serverName, p.dbClients.find? serverName = some client) ∧ client ∈ p.clients →
      (∃ serverName, q.dbClients.find? serverName = some client) ∧ client ∈ q.clients)
    (hmem : ∀ serverName client, q.dbClients.find? serverName = some client → client ∈ q.clients) :
    SharingInv { q with connectors := q.connectors.erase sub } where
  uses_eq client := by
    rw [users, hconnectors]
    exact huses client
  registered sub' c' client hsub' hsome := by
    change (q.connectors.erase sub).find? sub' = some c' at hsub'
    rw [hconnectors] at hsub'
    refine hregistered client (otherUsers_pos hsub' hsome) ?_
    rw [SortedMap.find?_erase] at hsub'
    split at hsub'
    · cases hsub'
    · exact h.registered sub' c' client hsub' hsome
  mem_clients := hmem

/-- **destroy** deletes a client when no other connector has it. -/
theorem SharingInv.destroy (h : SharingInv p) (hsub : p.connectors.find? sub = some c) :
    SharingInv (p.destroy sub c) := by
  have huses := h.uses_release hsub
  rw [ClientPool.destroy]
  cases hclient : c.dbClient with
  | none =>
    rw [hclient] at huses
    exact h.erase rfl huses (fun _ _ hold => hold) h.mem_clients
  | some client =>
    rw [hclient] at huses
    dsimp only
    split
    · rename_i hlast
      have hzero : p.otherUsers sub client = 0 := by
        have heq := huses client
        change (p.addUses client (-1)).uses client = _ at heq
        omega
      refine h.erase rfl (fun client' => ?_) (fun client' hpos hold => ?_)
        (fun s client' hs => ?_)
      · rw [uses_dropClient]
        split
        · rename_i heq
          rw [heq, hzero]
          rfl
        · exact huses client'
      · have hne : client' ≠ client := by
          rintro rfl
          omega
        obtain ⟨⟨s, hs⟩, halive⟩ := hold
        exact ⟨⟨s, find?_dbClients_dropClient.mpr ⟨hs, hne⟩⟩, Finset.mem_erase.mpr ⟨hne, halive⟩⟩
      · obtain ⟨hs, hne⟩ := find?_dbClients_dropClient.mp hs
        exact Finset.mem_erase.mpr ⟨hne, h.mem_clients s client' hs⟩
    · exact h.erase rfl huses (fun _ _ hold => hold) h.mem_clients

/-! ## Runs -/

/-- A new connector has no client. -/
theorem SharingInv.created (h : SharingInv p) (hsub : p.connectors.find? sub = none)
    (urlValid : Bool) : SharingInv (p.setConnector sub (.new urlValid)) where
  uses_eq client := by
    have hothers : p.otherUsers sub client = p.users client := by
      rw [users, SortedMap.countP_erase _ sub, hsub]
      rfl
    rw [users_setConnector, hothers, if_neg (by simp [SharingConnector.new])]
    exact h.uses_eq client
  registered sub' c' client hsub' hsome := by
    change (p.connectors.insert sub (.new urlValid)).find? sub' = some c' at hsub'
    rw [SortedMap.find?_insert] at hsub'
    split at hsub'
    · rw [← Option.some_inj.mp hsub'] at hsome
      cases hsome
    · exact h.registered sub' c' client hsub' hsome
  mem_clients := h.mem_clients

theorem sharingInv_start : SharingInv start where
  uses_eq _ := rfl
  registered _ _ _ hsub _ := by cases hsub
  mem_clients _ _ hs := by cases hs

theorem sharingInv_of_reachable {parser : UrlParser} (h : SharingReachable parser p) :
    SharingInv p := by
  induction h with
  | started => exact sharingInv_start
  | created _ urlValid hsub ih => exact ih.created hsub urlValid
  | setUrl _ hsub url a _ ih => exact ih.setUrl hsub parser a url
  | destroyed _ hsub ih => exact ih.destroy hsub

/-- **Sharing** is counted in every state that a process reaches. -/
theorem sharingCounted_of_reachable {parser : UrlParser} (h : SharingReachable parser p) :
    SharingCounted p :=
  (sharingInv_of_reachable h).toSharingCounted

/-- A connector with the client at the address 7. -/
def onlyC : ClientPool :=
  (start.setConnector 1 (.new false)).setUrl parserC ⟨7, true⟩ 1 (.new false) urlC

/-- Another one shares it, and the first one is destroyed. -/
def secondC : ClientPool :=
  ((onlyC.setConnector 2 (.new false)).setUrl parserC ⟨8, true⟩ 2 (.new false) urlC).destroy 1
    ⟨urlC, true, [], some 7⟩

theorem reachable_secondC : SharingReachable parserC secondC := by
  have hstarted : SharingReachable parserC (start.setConnector 1 (.new false)) :=
    .created .started false rfl
  have honly : SharingReachable parserC onlyC :=
    hstarted.setUrl (SortedMap.find?_insert_self _ _ _) urlC ⟨7, true⟩ (Finset.notMem_empty 7)
  have hcreated : SharingReachable parserC (onlyC.setConnector 2 (.new false)) :=
    honly.created false (by decide +kernel)
  have hboth := hcreated.setUrl (SortedMap.find?_insert_self _ _ _) urlC ⟨8, true⟩ (by decide +kernel)
  exact hboth.destroyed (by decide +kernel)

theorem sharingCounted_secondC : SharingCounted secondC :=
  sharingCounted_of_reachable reachable_secondC

end ClientPool

/-! ## The clients of a process

A `Process` names its clients by their servers and knows what they are subscribed to; a pool
gives them addresses and counts.
-/

/-- What a connector shares with the others: its client, which is named by an `α`. -/
structure SharedPart (α : Type) where
  url : QString
  urlValid : Bool
  dbClient : Option α

def SharingConnector.part (c : SharingConnector) : SharedPart ℕ := ⟨c.url, c.urlValid, c.dbClient⟩

def QDocdbConnector.part (c : QDocdbConnector) : SharedPart QString :=
  ⟨c.url, c.urlValid, c.dbClient⟩

/-- The same with the address of the client. -/
def SharedPart.addressed (x : SharedPart QString) (q : ClientPool) : SharedPart ℕ :=
  ⟨x.url, x.urlValid, x.dbClient.bind q.dbClients.find?⟩

/-- The addresses of other clients do not matter. -/
theorem SharedPart.addressed_congr {x : SharedPart QString} {q q' : ClientPool}
    (h : ∀ serverName, x.dbClient = some serverName →
      q'.dbClients.find? serverName = q.dbClients.find? serverName) :
    x.addressed q' = x.addressed q := by
  rw [addressed, addressed]
  cases hserver : x.dbClient with
  | none => rfl
  | some serverName => rw [Option.bind_some, Option.bind_some, h serverName hserver]

/-- The processes have the same clients, with the same connectors. -/
structure SameSharing (p p' : Process) : Prop where
  connectors : ∀ sub, (p'.connectors sub).map (·.part) = (p.connectors sub).map (·.part)
  dbClients : ∀ serverName, (p'.dbClients serverName).isSome = (p.dbClients serverName).isSome
  dbClientUses : p'.dbClientUses = p.dbClientUses

theorem SameSharing.trans {p p' p'' : Process} (h : SameSharing p p') (h' : SameSharing p' p'') :
    SameSharing p p'' where
  connectors := fun sub => (h'.connectors sub).trans (h.connectors sub)
  dbClients := fun serverName => (h'.dbClients serverName).trans (h.dbClients serverName)
  dbClientUses := h'.dbClientUses.trans h.dbClientUses

namespace Process

variable {p : Process} {a : Answers} {sub : ObjectId} {c c' : QDocdbConnector}
  {serverName : QString}

/-- A client that exists is changed. -/
theorem sameSharing_setClient {client : QDocdbClient} (h : p.dbClients serverName = some client)
    (client' : QDocdbClient) : SameSharing p (p.setClient serverName client') where
  connectors := fun _ => rfl
  dbClients := fun serverName' => by
    simp only [setClient, Function.update_apply]
    split
    · rename_i heq
      rw [heq, h]
      rfl
    · rfl
  dbClientUses := rfl

/-- A connector is changed, but not in what it shares. -/
theorem sameSharing_setConnector (h : p.connectors sub = some c) (hpart : c'.part = c.part) :
    SameSharing p (p.setConnector sub c') where
  connectors := fun sub' => by
    simp only [setConnector, Function.update_apply]
    split
    · rename_i heq
      rw [heq, h, Option.map_some, Option.map_some, hpart]
    · rfl
  dbClients := fun _ => rfl
  dbClientUses := rfl

theorem sameSharing_unobserve : SameSharing p (p.unobserve a c) := by
  rw [unobserve]
  split
  · rename_i serverName client hserver hclient
    rw [client?, hserver] at hclient
    split
    · exact sameSharing_setClient hclient _
    · exact ⟨fun _ => rfl, fun _ => rfl, rfl⟩
  · exact ⟨fun _ => rfl, fun _ => rfl, rfl⟩

theorem sameSharing_observe :
    SameSharing p (p.observe a sub c).1 ∧ (p.observe a sub c).2.part = c.part := by
  rw [observe]
  split
  · rename_i serverName client hserver hclient
    rw [client?, hserver] at hclient
    split
    · exact ⟨sameSharing_setClient hclient _, rfl⟩
    · exact ⟨⟨fun _ => rfl, fun _ => rfl, rfl⟩, rfl⟩
  · exact ⟨⟨fun _ => rfl, fun _ => rfl, rfl⟩, rfl⟩

/-- Observing changes nothing in the sharing of a connector that is put in its place. -/
theorem sameSharing_observeAs :
    SameSharing (p.setConnector sub c) (p.observeAs a sub c) := by
  obtain ⟨hsame, hpart⟩ := @sameSharing_observe p a sub c
  refine ⟨fun sub' => ?_, hsame.dbClients, hsame.dbClientUses⟩
  simp only [observeAs, setConnector, Function.update_apply]
  split
  · rw [Option.map_some, Option.map_some, hpart]
  · exact hsame.connectors sub'

theorem sameSharing_subscribe (hc : p.connectors sub = some c) (hpart : c'.part = c.part) :
    SameSharing p (p.observeAs a sub c') :=
  (sameSharing_setConnector hc hpart).trans sameSharing_observeAs

/-- A connector that takes its subscription back is changed, but not in what it shares. -/
theorem sameSharing_unobserve_setConnector {c₁ : QDocdbConnector} (hc : p.connectors sub = some c)
    (hpart : c'.part = c.part) : SameSharing p ((p.unobserve a c₁).setConnector sub c') := by
  refine sameSharing_unobserve.trans (sameSharing_setConnector (c := c) ?_ hpart)
  rw [connectors_unobserve]
  exact hc

theorem sameSharing_resubscribe {c₁ : QDocdbConnector} (hc : p.connectors sub = some c)
    (hpart : c'.part = c.part) : SameSharing p ((p.unobserve a c₁).observeAs a sub c') :=
  (sameSharing_unobserve_setConnector hc hpart).trans sameSharing_observeAs

end Process

namespace ClientPool

/-- The pool is behind the process: each client has an address, and the connectors and the counts
are the same. -/
structure Behind (q : ClientPool) (p : Process) : Prop where
  connectors : ∀ sub, (q.connectors.find? sub).map (·.part) =
    ((p.connectors sub).map (·.part)).map (·.addressed q)
  dbClients : ∀ serverName,
    (q.dbClients.find? serverName).isSome = (p.dbClients serverName).isSome
  uses : ∀ serverName client, q.dbClients.find? serverName = some client →
    q.uses client = p.dbClientUses serverName
  unused : ∀ serverName, q.dbClients.find? serverName = none → p.dbClientUses serverName = 0
  apart : ∀ serverName serverName' client, q.dbClients.find? serverName = some client →
    q.dbClients.find? serverName' = some client → serverName = serverName'
  alive : ∀ serverName client, q.dbClients.find? serverName = some client → client ∈ q.clients
  fresh : ∀ client, client ∉ q.clients → q.uses client = 0
  registered : ∀ sub x serverName, (p.connectors sub).map (·.part) = some x →
    x.dbClient = some serverName → (q.dbClients.find? serverName).isSome

variable {q : ClientPool} {p p' : Process} {sub : ObjectId} {c : QDocdbConnector}
  {c' : SharingConnector}

theorem behind_start : Behind start .init where
  connectors _ := rfl
  dbClients _ := rfl
  uses _ _ h := by cases h
  unused _ _ := rfl
  apart _ _ _ h := by cases h
  alive _ _ h := by cases h
  fresh _ _ := rfl
  registered _ _ _ h := by cases h

theorem Behind.congr (h : Behind q p) (hsame : SameSharing p p') : Behind q p' where
  connectors sub := by rw [hsame.connectors, h.connectors]
  dbClients serverName := by rw [hsame.dbClients, h.dbClients]
  uses serverName client hclient := by rw [hsame.dbClientUses, h.uses serverName client hclient]
  unused serverName hnone := by rw [hsame.dbClientUses, h.unused serverName hnone]
  apart := h.apart
  alive := h.alive
  fresh := h.fresh
  registered sub x serverName hx := by
    rw [hsame.connectors] at hx
    exact h.registered sub x serverName hx

/-- The connector of the pool. -/
theorem Behind.exists_connector (h : Behind q p) (hc : p.connectors sub = some c) :
    ∃ c', q.connectors.find? sub = some c' ∧ c'.part = c.part.addressed q := by
  have hpart := h.connectors sub
  rw [hc] at hpart
  exact Option.map_eq_some_iff.mp hpart

theorem Behind.find?_connectors (h : Behind q p) (hc : p.connectors sub = none) :
    q.connectors.find? sub = none := by
  have hpart := h.connectors sub
  rw [hc] at hpart
  exact Option.map_eq_none_iff.mp hpart

/-- A connector is put in its place. -/
theorem Behind.setConnector (h : Behind q p) (hpart : c'.part = c.part.addressed q)
    (hregistered : ∀ serverName, c.dbClient = some serverName →
      (q.dbClients.find? serverName).isSome) :
    Behind (q.setConnector sub c') (p.setConnector sub c) where
  connectors sub' := by
    simp only [ClientPool.setConnector, Process.setConnector, SortedMap.find?_insert,
      Function.update_apply]
    split
    · rw [Option.map_some, hpart]
      rfl
    · exact h.connectors sub'
  dbClients := h.dbClients
  uses := h.uses
  unused := h.unused
  apart := h.apart
  alive := h.alive
  fresh := h.fresh
  registered sub' x serverName hx hserver := by
    simp only [Process.setConnector, Function.update_apply] at hx
    split at hx
    · obtain rfl := Option.some.inj hx
      exact hregistered serverName hserver
    · exact h.registered sub' x serverName hx hserver

/-- A count changes. -/
theorem Behind.addUses (h : Behind q p) {serverName : QString} {client : ℕ}
    (hclient : q.dbClients.find? serverName = some client) (n : ℤ) :
    Behind (q.addUses client n) { p with
      dbClientUses :=
        Function.update p.dbClientUses serverName (p.dbClientUses serverName + n) } where
  connectors := h.connectors
  dbClients := h.dbClients
  uses serverName' client' hclient' := by
    dsimp only
    rw [uses_addUses, Function.update_apply]
    by_cases heq : serverName' = serverName
    · subst heq
      obtain rfl := Option.some.inj (hclient.symm.trans hclient')
      rw [if_pos rfl, if_pos rfl, h.uses serverName' client hclient]
    · have hne : client' ≠ client := by
        rintro rfl
        exact heq (h.apart _ _ _ hclient' hclient)
      rw [if_neg hne, if_neg heq, add_zero, h.uses serverName' client' hclient']
  unused serverName' hnone := by
    have hne : serverName' ≠ serverName := by
      rintro rfl
      exact absurd (hnone.symm.trans hclient) (by simp)
    dsimp only
    rw [Function.update_of_ne hne]
    exact h.unused serverName' hnone
  apart := h.apart
  alive := h.alive
  fresh client' hfresh := by
    have hne : client' ≠ client := by
      rintro rfl
      exact hfresh (h.alive serverName client' hclient)
    rw [uses_addUses, if_neg hne, add_zero]
    exact h.fresh client' hfresh
  registered := h.registered

/-- A client that was just connected gets an address. -/
theorem Behind.register (h : Behind q p) {serverName : QString} {address : ℕ}
    (hnone : q.dbClients.find? serverName = none) (hfresh : address ∉ q.clients)
    (client : QDocdbClient) :
    Behind { q with
        clients := insert address q.clients
        dbClients := q.dbClients.insert serverName address }
      (p.setClient serverName client) := by
  -- the clients that have an address keep it
  have hkept : ∀ serverName' client', q.dbClients.find? serverName' = some client' →
      (q.dbClients.insert serverName address).find? serverName' = some client' ∧
        client' ≠ address := by
    refine fun serverName' client' hclient => ⟨?_, fun heq => ?_⟩
    · rw [SortedMap.find?_insert_of_ne _ _ (by rintro rfl; rw [hnone] at hclient; cases hclient)]
      exact hclient
    · exact hfresh (heq ▸ h.alive serverName' client' hclient)
  have hcases : ∀ serverName' client',
      (q.dbClients.insert serverName address).find? serverName' = some client' →
        serverName' = serverName ∧ client' = address ∨
          q.dbClients.find? serverName' = some client' := by
    intro serverName' client' hclient
    rw [SortedMap.find?_insert] at hclient
    split at hclient
    · rename_i heq
      exact .inl ⟨heq, (Option.some.inj hclient).symm⟩
    · exact .inr hclient
  refine ⟨fun sub => ?_, fun serverName' => ?_, fun serverName' client' hclient => ?_,
    fun serverName' hnone' => ?_, fun serverName₁ serverName₂ client' h₁ h₂ => ?_,
    fun serverName' client' hclient => ?_, fun client' hfresh' => ?_,
    fun sub x serverName' hx hserver => ?_⟩
  · refine (h.connectors sub).trans (Option.map_congr fun x hx => Eq.symm ?_)
    refine SharedPart.addressed_congr fun serverName' hserver => ?_
    obtain ⟨client', hclient⟩ :=
      Option.isSome_iff_exists.mp (h.registered sub x serverName' hx hserver)
    rw [hclient]
    exact (hkept serverName' client' hclient).1
  · simp only [Process.setClient, SortedMap.find?_insert, Function.update_apply]
    split
    · rfl
    · exact h.dbClients serverName'
  · rcases hcases serverName' client' hclient with ⟨rfl, rfl⟩ | hclient
    · exact (h.fresh client' hfresh).trans (h.unused serverName' hnone).symm
    · exact h.uses serverName' client' hclient
  · refine h.unused serverName' (Option.eq_none_iff_forall_ne_some.mpr fun client' hclient => ?_)
    exact absurd (hnone'.symm.trans (hkept serverName' client' hclient).1) (by simp)
  · rcases hcases serverName₁ client' h₁ with ⟨rfl, rfl⟩ | hold₁ <;>
      rcases hcases serverName₂ client' h₂ with ⟨rfl, heq⟩ | hold₂
    · rfl
    · exact absurd rfl (hkept serverName₂ client' hold₂).2
    · exact absurd heq (hkept serverName₁ client' hold₁).2
    · exact h.apart serverName₁ serverName₂ client' hold₁ hold₂
  · rcases hcases serverName' client' hclient with ⟨-, rfl⟩ | hclient
    · exact Finset.mem_insert_self _ _
    · exact Finset.mem_insert_of_mem (h.alive serverName' client' hclient)
  · exact h.fresh client' fun hmem => hfresh' (Finset.mem_insert_of_mem hmem)
  · obtain ⟨client', hclient⟩ :=
      Option.isSome_iff_exists.mp (h.registered sub x serverName' hx hserver)
    exact Option.isSome_iff_exists.mpr ⟨client', (hkept serverName' client' hclient).1⟩

/-- A connector gives back its client. -/
theorem Behind.release (h : Behind q p) {dbClient : Option QString}
    (hregistered : ∀ serverName, dbClient = some serverName →
      (q.dbClients.find? serverName).isSome) :
    Behind (q.release (dbClient.bind q.dbClients.find?)) (p.release dbClient) := by
  cases dbClient with
  | none => exact h
  | some serverName =>
    obtain ⟨client, hclient⟩ := Option.isSome_iff_exists.mp (hregistered serverName rfl)
    rw [Option.bind_some, hclient]
    exact h.addUses hclient (-1)

theorem dbClients_release (q : ClientPool) (dbClient : Option ℕ) :
    (q.release dbClient).dbClients = q.dbClients ∧ (q.release dbClient).clients = q.clients := by
  cases dbClient <;> exact ⟨rfl, rfl⟩

/-- **acquire** gets the same client. -/
theorem Behind.acquire (h : Behind q p) {a : Answers} {a' : ClientAnswer}
    (ha : a'.isConnected = a.connectToServer) (hfresh : a'.address ∉ q.clients)
    (serverName : QString) :
    Behind (q.acquire a' serverName).1 (p.acquire a serverName).1 ∧
      (q.acquire a' serverName).2 =
        (p.acquire a serverName).2.bind (q.acquire a' serverName).1.dbClients.find? ∧
      ∀ serverName', (p.acquire a serverName).2 = some serverName' →
        ((q.acquire a' serverName).1.dbClients.find? serverName').isSome := by
  have hsome := h.dbClients serverName
  cases hclient : q.dbClients.find? serverName with
  | some client =>
    rw [hclient] at hsome
    obtain ⟨x, hx⟩ := Option.isSome_iff_exists.mp hsome.symm
    simp only [ClientPool.acquire, Process.acquire, hclient, hx]
    refine ⟨h.addUses hclient 1, hclient.symm, fun serverName' heq => ?_⟩
    obtain rfl := Option.some.inj heq
    exact Option.isSome_iff_exists.mpr ⟨client, hclient⟩
  | none =>
    rw [hclient] at hsome
    have hx : p.dbClients serverName = none := Option.not_isSome_iff_eq_none.mp (by simp [← hsome])
    simp only [ClientPool.acquire, Process.acquire, hclient, hx, ha]
    split
    · have hself := SortedMap.find?_insert_self q.dbClients serverName a'.address
      refine ⟨(h.register hclient hfresh .connectToServer).addUses hself 1, hself.symm,
        fun serverName' heq => ?_⟩
      obtain rfl := Option.some.inj heq
      exact Option.isSome_iff_exists.mpr ⟨_, hself⟩
    · exact ⟨h, rfl, fun _ heq => by cases heq⟩

/-- **setUrl** does the same to the sharing. -/
theorem Behind.setUrl (h : Behind q p) (parser : UrlParser) {a : Answers} {a' : ClientAnswer}
    (ha : a'.isConnected = a.connectToServer) (hfresh : a'.address ∉ q.clients)
    (hc : p.connectors sub = some c) (hpart : c'.part = c.part.addressed q) (url : QString) :
    Behind (q.setUrl parser a' sub c' url) (p.setUrl parser a sub c url) := by
  obtain ⟨hurl, hvalid, hdb⟩ := SharedPart.mk.inj hpart
  have hurl : c'.url = c.url := hurl
  have hdb : c'.dbClient = c.dbClient.bind q.dbClients.find? := hdb
  have hregistered : ∀ serverName, c.dbClient = some serverName →
      (q.dbClients.find? serverName).isSome := fun serverName =>
    h.registered sub c.part serverName (by rw [hc]; rfl)
  have hunobserved : Behind q (p.unobserve a { c with url := url }) :=
    h.congr Process.sameSharing_unobserve
  rw [ClientPool.setUrl, Process.setUrl, hurl]
  dsimp only
  split
  · exact h
  split
  · exact h.setConnector (congrArg₂ (SharedPart.mk url) hvalid hdb) hregistered
  split
  · exact hunobserved.setConnector (congrArg (SharedPart.mk url false) hdb) hregistered
  · have hreleased := hunobserved.release hregistered
    obtain ⟨-, hclients⟩ := dbClients_release q (c.dbClient.bind q.dbClients.find?)
    obtain ⟨hacquired, hclient, hdbClient⟩ :=
      hreleased.acquire ha (hclients ▸ hfresh) (parser.parse url).host
    rw [hdb]
    generalize (q.release (c.dbClient.bind q.dbClients.find?)).acquire a'
      (parser.parse url).host = acquired at hacquired hclient hdbClient ⊢
    generalize ((p.unobserve a { c with url := url }).release c.dbClient).acquire a
      (parser.parse url).host = acquired' at hacquired hclient hdbClient ⊢
    obtain ⟨q', client⟩ := acquired
    obtain ⟨p', dbClient⟩ := acquired'
    have hput : ∀ lastError, Behind (q'.setConnector sub ⟨url, true, lastError, client⟩)
        (p'.observeAs a sub { c with url := url, urlValid := true, dbClient := dbClient }) :=
      fun lastError => by
        have hpart' : (⟨url, true, lastError, client⟩ : SharingConnector).part =
            (QDocdbConnector.part { c with
              url := url, urlValid := true, dbClient := dbClient }).addressed q' :=
          congrArg (SharedPart.mk url true) hclient
        exact (hacquired.setConnector hpart' hdbClient).congr Process.sameSharing_observeAs
    cases client with
    | none => exact hput _
    | some client => exact hput _

/-- A connector goes. -/
theorem Behind.erase (h : Behind q p) (sub : ObjectId) :
    Behind { q with connectors := q.connectors.erase sub }
      { p with connectors := Function.update p.connectors sub none } where
  connectors sub' := by
    simp only [SortedMap.find?_erase, Function.update_apply]
    split
    · rfl
    · exact h.connectors sub'
  dbClients := h.dbClients
  uses := h.uses
  unused := h.unused
  apart := h.apart
  alive := h.alive
  fresh := h.fresh
  registered sub' x serverName hx := by
    simp only [Function.update_apply] at hx
    split at hx
    · cases hx
    · exact h.registered sub' x serverName hx

/-- A client that no connector has is deleted. -/
theorem Behind.dropClient (h : Behind q p) {serverName : QString} {client : ℕ}
    (hclient : q.dbClients.find? serverName = some client)
    (hnone : ∀ sub x, (p.connectors sub).map (·.part) = some x → x.dbClient ≠ some serverName) :
    Behind (q.dropClient client) { p with
      dbClients := Function.update p.dbClients serverName none
      dbClientUses := Function.update p.dbClientUses serverName 0 } := by
  -- the other servers keep their clients
  have hother : ∀ serverName', serverName' ≠ serverName →
      (q.dropClient client).dbClients.find? serverName' = q.dbClients.find? serverName' := by
    intro serverName' hne
    refine Option.ext fun client' => ?_
    rw [find?_dbClients_dropClient]
    refine and_iff_left_of_imp fun hclient' heq => hne ?_
    exact h.apart serverName' serverName client (heq ▸ hclient') hclient
  have hgone : (q.dropClient client).dbClients.find? serverName = none :=
    Option.eq_none_iff_forall_ne_some.mpr fun client' hclient' => by
      obtain ⟨hclient', hne⟩ := find?_dbClients_dropClient.mp hclient'
      exact hne (Option.some.inj (hclient'.symm.trans hclient))
  refine ⟨fun sub => ?_, fun serverName' => ?_, fun serverName' client' hclient' => ?_,
    fun serverName' hnone' => ?_, fun serverName₁ serverName₂ client' h₁ h₂ => ?_,
    fun serverName' client' hclient' => ?_, fun client' hfresh => ?_,
    fun sub x serverName' hx hserver => ?_⟩
  · refine (h.connectors sub).trans (Option.map_congr fun x hx => Eq.symm ?_)
    exact SharedPart.addressed_congr fun serverName' hserver =>
      hother serverName' fun heq => hnone sub x hx (heq ▸ hserver)
  · dsimp only
    by_cases heq : serverName' = serverName
    · rw [heq, hgone, Function.update_self]
      rfl
    · rw [hother serverName' heq, Function.update_of_ne heq]
      exact h.dbClients serverName'
  · have hne : serverName' ≠ serverName := by
      rintro rfl
      rw [hgone] at hclient'
      cases hclient'
    obtain ⟨hclient', hne'⟩ := find?_dbClients_dropClient.mp hclient'
    dsimp only
    rw [uses_dropClient, if_neg hne', Function.update_of_ne hne]
    exact h.uses serverName' client' hclient'
  · dsimp only
    by_cases heq : serverName' = serverName
    · rw [heq, Function.update_self]
    · rw [Function.update_of_ne heq]
      exact h.unused serverName' (hother serverName' heq ▸ hnone')
  · exact h.apart serverName₁ serverName₂ client' (find?_dbClients_dropClient.mp h₁).1
      (find?_dbClients_dropClient.mp h₂).1
  · obtain ⟨hclient', hne⟩ := find?_dbClients_dropClient.mp hclient'
    exact Finset.mem_erase.mpr ⟨hne, h.alive serverName' client' hclient'⟩
  · rw [uses_dropClient]
    split
    · rfl
    · rename_i hne
      exact h.fresh client' fun hmem => hfresh (Finset.mem_erase.mpr ⟨hne, hmem⟩)
  · rw [hother serverName' fun heq => hnone sub x hx (heq ▸ hserver)]
    exact h.registered sub x serverName' hx hserver

/-- **destroy** does the same to the sharing. -/
theorem Behind.destroy (h : Behind q p) (hq : SharingInv q) (a : Answers)
    (hc : p.connectors sub = some c) (hc' : q.connectors.find? sub = some c')
    (hpart : c'.part = c.part.addressed q) : Behind (q.destroy sub c') (p.destroy a sub c) := by
  have hdb : c'.dbClient = c.dbClient.bind q.dbClients.find? := (SharedPart.mk.inj hpart).2.2
  have hregistered : ∀ serverName, c.dbClient = some serverName →
      (q.dbClients.find? serverName).isSome := fun serverName =>
    h.registered sub c.part serverName (by rw [hc]; rfl)
  -- the signal to the clients changes nothing in the sharing
  have hsignal : ∀ p' : Process, SameSharing
      { p' with connectors := Function.update p'.connectors sub none }
      { p' with
        connectors := Function.update p'.connectors sub none
        dbClients := fun serverName => (p'.dbClients serverName).map fun client =>
          client.subscriberDestroyed a.unobserve sub } := fun p' =>
    ⟨fun _ => rfl, fun _ => Option.isSome_map, rfl⟩
  rw [ClientPool.destroy, Process.destroy]
  refine Behind.congr ?_ (hsignal _)
  cases hserver : c.dbClient with
  | none =>
    rw [hserver] at hdb
    rw [hdb]
    exact h.erase sub
  | some serverName =>
    obtain ⟨client, hclient⟩ := Option.isSome_iff_exists.mp (hregistered serverName hserver)
    rw [hserver, Option.bind_some, hclient] at hdb
    have hreleased : Behind (q.addUses client (-1)) (p.release (some serverName)) :=
      h.addUses hclient (-1)
    have huses := hreleased.uses serverName client hclient
    rw [hdb, Process.dropClient]
    dsimp only
    rw [huses]
    split
    · rename_i hlast
      refine (hreleased.erase sub).dropClient hclient fun sub' x hx hx' => ?_
      -- a connector that is left would be counted
      have hcount := hq.uses_release hc' client
      rw [hdb] at hcount
      have hleft := (hreleased.erase sub).connectors sub'
      rw [hx] at hleft
      obtain ⟨c₂, hc₂, hpart₂⟩ := Option.map_eq_some_iff.mp hleft
      have hdb₂ : c₂.dbClient = some client := by
        have hdb₂ := (SharedPart.mk.inj hpart₂).2.2
        rw [hx'] at hdb₂
        exact hdb₂.trans hclient
      have hpos : 0 < q.otherUsers sub client := otherUsers_pos hc₂ hdb₂
      have heq : (q.addUses client (-1)).uses client = (q.otherUsers sub client : ℤ) := hcount
      omega
    · exact hreleased.erase sub

/-- A new connector has no client. -/
theorem Behind.created (h : Behind q p) (hpart : c.part = QDocdbConnector.new.part) :
    Behind (q.setConnector sub (.new false)) (p.setConnector sub c) := by
  refine h.setConnector ?_ fun serverName hserver => ?_
  · rw [hpart]
    rfl
  · have hdb : c.dbClient = none := congrArg SharedPart.dbClient hpart
    rw [hdb] at hserver
    cases hserver

theorem exists_behind_setUrl {parser : UrlParser} (hq : SharingReachable parser q)
    (h : Behind q p) (hc : p.connectors sub = some c) (a : Answers) (url : QString) :
    ∃ q', SharingReachable parser q' ∧ Behind q' (p.setUrl parser a sub c url) := by
  obtain ⟨c', hc', hpart⟩ := h.exists_connector hc
  obtain ⟨address, hfresh⟩ := Infinite.exists_notMem_finset q.clients
  exact ⟨_, hq.setUrl hc' url ⟨address, a.connectToServer⟩ hfresh,
    h.setUrl parser rfl hfresh hc hpart url⟩

/-- **Step**: what happens to a process happens to the pool behind it. -/
theorem exists_behind_of_handle {parser : UrlParser} {e : ConnectorEvent}
    (hq : SharingReachable parser q) (h : Behind q p) (hs : p.handle parser e = some p') :
    ∃ q', SharingReachable parser q' ∧ Behind q' p' := by
  have hkept : SameSharing p p' → ∃ q', SharingReachable parser q' ∧ Behind q' p' :=
    fun hsame => ⟨q, hq, h.congr hsame⟩
  cases e with
  | created sub =>
    rw [Process.handle] at hs
    split at hs
    · rename_i hnone
      obtain rfl := Option.some.inj hs
      exact ⟨_, hq.created false (h.find?_connectors hnone), h.created rfl⟩
    · cases hs
  | constructed sub url query queryOptions a =>
    rw [Process.handle] at hs
    split at hs
    · rename_i hnone
      obtain rfl := Option.some.inj hs
      have hcreated : Behind (q.setConnector sub (.new false)) (p.setConnector sub
          { QDocdbConnector.new with
            query := query, queryOptions := queryOptions, initComplete := true }) :=
        h.created rfl
      exact exists_behind_setUrl (hq.created false (h.find?_connectors hnone)) hcreated
        (Function.update_self ..) a url
    · cases hs
  | componentComplete sub a =>
    obtain ⟨c, hc, hs⟩ := Option.bind_eq_some_iff.mp hs
    split at hs
    · cases hs
    · obtain rfl := Option.some.inj hs
      exact hkept (Process.sameSharing_subscribe hc rfl)
  | setUrl sub url a =>
    obtain ⟨c, hc, rfl⟩ := Option.map_eq_some_iff.mp hs
    exact exists_behind_setUrl hq h hc a url
  | setQuery sub query a =>
    obtain ⟨c, hc, rfl⟩ := Option.map_eq_some_iff.mp hs
    refine hkept ?_
    rw [Process.setQuery]
    split
    · exact ⟨fun _ => rfl, fun _ => rfl, rfl⟩
    · exact Process.sameSharing_resubscribe hc rfl
  | setQueryOptions sub queryOptions a =>
    obtain ⟨c, hc, rfl⟩ := Option.map_eq_some_iff.mp hs
    refine hkept ?_
    rw [Process.setQueryOptions]
    split
    · exact ⟨fun _ => rfl, fun _ => rfl, rfl⟩
    · exact Process.sameSharing_resubscribe hc rfl
  | setObservable sub observable a =>
    obtain ⟨c, hc, rfl⟩ := Option.map_eq_some_iff.mp hs
    refine hkept ?_
    rw [Process.setObservable]
    split
    · exact ⟨fun _ => rfl, fun _ => rfl, rfl⟩
    · dsimp only
      split
      · exact Process.sameSharing_subscribe hc rfl
      · exact Process.sameSharing_unobserve_setConnector hc rfl
  | destroyed sub a =>
    obtain ⟨c, hc, rfl⟩ := Option.map_eq_some_iff.mp hs
    obtain ⟨c', hc', hpart⟩ := h.exists_connector hc
    exact ⟨_, hq.destroyed hc', h.destroy (sharingInv_of_reachable hq) a hc hc' hpart⟩
  | clientRemoved serverName =>
    obtain ⟨client, hclient, hs⟩ := Option.bind_eq_some_iff.mp hs
    split at hs
    · obtain rfl := Option.some.inj hs
      exact hkept (Process.sameSharing_setClient hclient _)
    · cases hs
  | reconnected serverName =>
    obtain ⟨client, hclient, hs⟩ := Option.bind_eq_some_iff.mp hs
    split at hs
    · cases hs
    · obtain rfl := Option.some.inj hs
      exact hkept (Process.sameSharing_setClient hclient _)

/-- **Run**: behind every process that is reached there is a pool that is reached, whose counts
are right. -/
theorem exists_behind_of_reachable {parser : UrlParser} {ok : Process → ConnectorEvent → Prop}
    (h : ProcessReachable parser ok p) :
    ∃ q, SharingReachable parser q ∧ Behind q p := by
  induction h with
  | started => exact ⟨start, .started, behind_start⟩
  | handled _ _ hs ih =>
    obtain ⟨q, hq, hbehind⟩ := ih
    exact exists_behind_of_handle hq hbehind hs

end ClientPool

end Qdocdb
