import Qdocdb.Client

/-!
# Connectors and their clients

A `QDocdbConnector` shows the result of a query on a collection. The connectors of a process
share one `QDocdbClient` for each server; `dbClients` finds it and `dbClientUses` counts its
connectors. A client keeps two tables of the subscriptions: `subs` leads from the id of an
observer to the connector that wants its data, and `observerInfo` has what is needed to
subscribe again after the connection was lost.

A method of a connector waits for the replies to the requests that it sends, so a run is a
sequence of such methods, of lost connections and of successful reconnections, each with
the answers of the server. A reconnection is one in which the server accepts the ids that
the client prefers.
-/

namespace Qdocdb

/-- What `QUrl` reads from a text. -/
structure QUrl where
  scheme : QString
  host : QString
  /-- the path and the query -/
  url : Url

/-- `QUrl`, which finds nothing in an empty text. -/
structure UrlParser where
  parse : QString → QUrl
  scheme_nil : (parse []).scheme = []

/-- `QObject*` -/
abbrev ObjectId : Type := ℕ

/-- `ObserverInfo` -/
structure ObserverInfo where
  sub : ObjectId
  url : QString
  query : QJsonObject
  queryOptions : QJsonObject

/-- What the server answers to the requests of one method. -/
structure Answers where
  /-- a new connection is accepted -/
  connectToServer : Bool
  /-- the request to unobserve an id succeeds -/
  unobserve : ℤ → Bool
  /-- the id that an observe request gets, if it succeeds -/
  observe : Option ℤ

/-! ## The client -/

/-- `QDocdbClient`. A `QMap` is a partial function. -/
structure QDocdbClient where
  /-- `client` is not `NULL` -/
  connected : Bool
  subs : ℤ → Option ObjectId
  observerInfo : ℤ → Option ObserverInfo

namespace QDocdbClient

/-- A client that was just connected. -/
def connectToServer : QDocdbClient := ⟨true, fun _ => none, fun _ => none⟩

/-- `observe`: the id, or `-1` when the request fails. -/
def observe (client : QDocdbClient) (reply : Option ℤ) (info : ObserverInfo) :
    ℤ × QDocdbClient :=
  match reply with
  | some observeId =>
    (observeId,
      { client with
        observerInfo :=
          if (client.observerInfo observeId).isSome then client.observerInfo
          else Function.update client.observerInfo observeId (some info)
        subs := Function.update client.subs observeId (some info.sub) })
  | none => (-1, client)

/-- `unobserve` -/
def unobserve (client : QDocdbClient) (answered : Bool) (observeId : ℤ) : QDocdbClient :=
  if answered then
    { client with
      subs := Function.update client.subs observeId none
      observerInfo := Function.update client.observerInfo observeId none }
  else client

/-- `subscriberDestroyed`: the ids of the subscriber are looked up in `subs`. -/
def subscriberDestroyed (client : QDocdbClient) (answered : ℤ → Bool) (sub : ObjectId) :
    QDocdbClient :=
  { client with
    subs := fun id => if client.subs id = some sub then none else client.subs id
    observerInfo := fun id =>
      if client.subs id = some sub ∧ answered id = true then none else client.observerInfo id }

/-- `clientRemoved` -/
def clientRemoved (client : QDocdbClient) : QDocdbClient :=
  { client with connected := false, subs := fun _ => none }

/-- `onConnectTimer`, when the connection succeeds and the server accepts the ids: each
observer is registered again with the data of its entry. -/
def onConnectTimer (client : QDocdbClient) : QDocdbClient :=
  { client with
    connected := true
    subs := fun id =>
      match client.observerInfo id with
      | some info => some info.sub
      | none => client.subs id }

end QDocdbClient

/-! ## The connector -/

/-- `QDocdbConnector`. A client is named by its server. -/
structure QDocdbConnector where
  url : QString
  urlValid : Bool
  initComplete : Bool
  query : QJsonObject
  queryOptions : QJsonObject
  observable : Bool
  observeId : ℤ
  dbClient : Option QString

/-- `QDocdbConnector()`. The constructor leaves `urlValid` unset, but nothing reads it before
`setUrl` has set it. -/
def QDocdbConnector.new : QDocdbConnector where
  url := []
  urlValid := false
  initComplete := false
  query := []
  queryOptions := []
  observable := true
  observeId := -1
  dbClient := none

/-- The connectors of a process and their clients. -/
structure Process where
  connectors : ObjectId → Option QDocdbConnector
  dbClients : QString → Option QDocdbClient
  dbClientUses : QString → ℤ

namespace Process

/-- A process without connectors. -/
def init : Process := ⟨fun _ => none, fun _ => none, fun _ => 0⟩

def setConnector (p : Process) (sub : ObjectId) (c : QDocdbConnector) : Process :=
  { p with connectors := Function.update p.connectors sub (some c) }

def setClient (p : Process) (serverName : QString) (client : QDocdbClient) : Process :=
  { p with dbClients := Function.update p.dbClients serverName (some client) }

/-- The client that a connector points to. -/
def client? (p : Process) (c : QDocdbConnector) : Option QDocdbClient :=
  c.dbClient.bind p.dbClients

/-- `valid` -/
def valid (p : Process) (c : QDocdbConnector) : Bool :=
  c.initComplete && (p.client? c).any (·.connected) && c.urlValid

/-- `QDocdbConnector::observe` -/
def observe (p : Process) (a : Answers) (sub : ObjectId) (c : QDocdbConnector) :
    Process × QDocdbConnector :=
  match c.dbClient, p.client? c with
  | some serverName, some client =>
    if p.valid c && c.observable then
      let (observeId, client) :=
        client.observe a.observe ⟨sub, c.url, c.query, c.queryOptions⟩
      (p.setClient serverName client, { c with observeId := observeId })
    else (p, c)
  | _, _ => (p, c)

/-- `QDocdbConnector::unobserve` -/
def unobserve (p : Process) (a : Answers) (c : QDocdbConnector) : Process :=
  match c.dbClient, p.client? c with
  | some serverName, some client =>
    if p.valid c then
      p.setClient serverName (client.unobserve (a.unobserve c.observeId) c.observeId)
    else p
  | _, _ => p

/-- Observe with a connector and put it in its place. -/
def observeAs (p : Process) (a : Answers) (sub : ObjectId) (c : QDocdbConnector) : Process :=
  (p.observe a sub c).1.setConnector sub (p.observe a sub c).2

/-- A client loses one of its connectors. -/
def release (p : Process) : Option QString → Process
  | some serverName =>
    { p with
      dbClientUses :=
        Function.update p.dbClientUses serverName (p.dbClientUses serverName - 1) }
  | none => p

/-- The client of a server gets one more connector. It is connected first when there is none. -/
def acquire (p : Process) (a : Answers) (serverName : QString) : Process × Option QString :=
  let used := { p with
    dbClientUses := Function.update p.dbClientUses serverName (p.dbClientUses serverName + 1) }
  match p.dbClients serverName with
  | some _ => (used, some serverName)
  | none =>
    if a.connectToServer then (used.setClient serverName .connectToServer, some serverName)
    else (p, none)

/-- `setUrl` -/
def setUrl (parser : UrlParser) (p : Process) (a : Answers) (sub : ObjectId)
    (c : QDocdbConnector) (url : QString) : Process :=
  if c.url = url then p
  else
    let c := { c with url := url }
    let u := parser.parse url
    if u.scheme ≠ qs "qdocdb" then p.setConnector sub c
    else
      let p := p.unobserve a c
      if u.host = [] ∨ u.url.dbName = [] ∨ u.url.collName = [] then
        p.setConnector sub { c with urlValid := false }
      else
        let (p, dbClient) := (p.release c.dbClient).acquire a u.host
        p.observeAs a sub { c with urlValid := true, dbClient := dbClient }

/-- `setQuery` -/
def setQuery (p : Process) (a : Answers) (sub : ObjectId) (c : QDocdbConnector)
    (query : QJsonObject) : Process :=
  if (QJsonValue.object c.query).eq (.object query) then p
  else (p.unobserve a c).observeAs a sub { c with query := query }

/-- `setQueryOptions` -/
def setQueryOptions (p : Process) (a : Answers) (sub : ObjectId) (c : QDocdbConnector)
    (queryOptions : QJsonObject) : Process :=
  if (QJsonValue.object c.queryOptions).eq (.object queryOptions) then p
  else (p.unobserve a c).observeAs a sub { c with queryOptions := queryOptions }

/-- `setObservable` -/
def setObservable (p : Process) (a : Answers) (sub : ObjectId) (c : QDocdbConnector)
    (observable : Bool) : Process :=
  if c.observable = observable then p
  else
    let c := { c with observable := observable }
    if observable then p.observeAs a sub c else (p.unobserve a c).setConnector sub c

/-- The part of the destructor that takes a client apart when its last connector is gone. -/
def dropClient (p : Process) : Option QString → Process
  | some serverName =>
    let p := p.release (some serverName)
    if p.dbClientUses serverName ≤ 0 then
      { p with
        dbClients := Function.update p.dbClients serverName none
        dbClientUses := Function.update p.dbClientUses serverName 0 }
    else p
  | none => p

/-- `~QDocdbConnector`, and the signal `destroyed` after it, which goes to the clients that
the connector ever had. The others have no entry for it. -/
def destroy (p : Process) (a : Answers) (sub : ObjectId) (c : QDocdbConnector) : Process :=
  let p := p.dropClient c.dbClient
  { p with
    connectors := Function.update p.connectors sub none
    dbClients := fun serverName =>
      (p.dbClients serverName).map fun client => client.subscriberDestroyed a.unobserve sub }

end Process

/-! ## Runs -/

/-- What happens in a process. -/
inductive ConnectorEvent where
  /-- `QDocdbConnector()` -/
  | created (sub : ObjectId)
  /-- `QDocdbConnector(url, query, queryOptions)` -/
  | constructed (sub : ObjectId) (url : QString) (query queryOptions : QJsonObject) (a : Answers)
  /-- the end of the construction from QML -/
  | componentComplete (sub : ObjectId) (a : Answers)
  | setUrl (sub : ObjectId) (url : QString) (a : Answers)
  | setQuery (sub : ObjectId) (query : QJsonObject) (a : Answers)
  | setQueryOptions (sub : ObjectId) (queryOptions : QJsonObject) (a : Answers)
  | setObservable (sub : ObjectId) (observable : Bool) (a : Answers)
  | destroyed (sub : ObjectId) (a : Answers)
  /-- the connection to a server is lost -/
  | clientRemoved (serverName : QString)
  /-- the connection to a server is there again -/
  | reconnected (serverName : QString)

namespace Process

/-- Handle an event; nothing when it cannot happen. -/
def handle (parser : UrlParser) (p : Process) : ConnectorEvent → Option Process
  | .created sub =>
    match p.connectors sub with
    | none => some (p.setConnector sub .new)
    | some _ => none
  | .constructed sub url query queryOptions a =>
    match p.connectors sub with
    | none =>
      let c := { QDocdbConnector.new with
        query := query, queryOptions := queryOptions, initComplete := true }
      some ((p.setConnector sub c).setUrl parser a sub c url)
    | some _ => none
  | .componentComplete sub a =>
    (p.connectors sub).bind fun c =>
      if c.initComplete then none else some (p.observeAs a sub { c with initComplete := true })
  | .setUrl sub url a => (p.connectors sub).map fun c => p.setUrl parser a sub c url
  | .setQuery sub query a => (p.connectors sub).map fun c => p.setQuery a sub c query
  | .setQueryOptions sub queryOptions a =>
    (p.connectors sub).map fun c => p.setQueryOptions a sub c queryOptions
  | .setObservable sub observable a =>
    (p.connectors sub).map fun c => p.setObservable a sub c observable
  | .destroyed sub a => (p.connectors sub).map fun c => p.destroy a sub c
  | .clientRemoved serverName =>
    (p.dbClients serverName).bind fun client =>
      if client.connected then some (p.setClient serverName client.clientRemoved) else none
  | .reconnected serverName =>
    (p.dbClients serverName).bind fun client =>
      if client.connected then none else some (p.setClient serverName client.onConnectTimer)

end Process

/-- The states that a process reaches when every event is allowed by `ok` in the state where
it happens. -/
inductive ProcessReachable (parser : UrlParser) (ok : Process → ConnectorEvent → Prop) :
    Process → Prop
  | started : ProcessReachable parser ok .init
  | handled {p p' : Process} {e : ConnectorEvent} :
    ProcessReachable parser ok p → ok p e → p.handle parser e = some p' →
    ProcessReachable parser ok p'

end Qdocdb
