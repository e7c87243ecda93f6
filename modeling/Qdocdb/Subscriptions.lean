import Mathlib.Data.Set.Card
import Qdocdb.Connectors

/-!
# Subscriptions

What a connector should be subscribed to is read off its properties (`wanted`). While the
client of its server is connected, each method that changes a property takes the old
subscription back and makes the new one. While the connection is lost the same methods send
nothing: `observerInfo` keeps what was wanted before, and the reconnection subscribes to that
again. So every subscription is live and current as long as no connector wants something
else while its client is not connected (`live_of_reachable`).
-/

namespace Qdocdb

variable {parser : UrlParser} {p p' : Process} {sub : ObjectId} {c c' : QDocdbConnector}
  {a : Answers}

/-! ## The property -/

/-- The server of a valid url. -/
def UrlParser.serverOf (parser : UrlParser) (url : QString) : Option QString :=
  let u := parser.parse url
  if u.scheme = qs "qdocdb" ∧ u.host ≠ [] ∧ u.url.dbName ≠ [] ∧ u.url.collName ≠ [] then
    some u.host
  else none

/-- What a connector wants from the client of a server. -/
structure Subscription where
  serverName : QString
  url : QString
  query : QJsonObject
  queryOptions : QJsonObject

/-- The subscription that a connector should have: one for its current properties, when it
is complete and observable and its url is valid. -/
def QDocdbConnector.wanted (parser : UrlParser) (c : QDocdbConnector) : Option Subscription :=
  if c.initComplete && c.observable then
    (parser.serverOf c.url).map fun s => ⟨s, c.url, c.query, c.queryOptions⟩
  else none

/-- The subscription of an entry in the table of a server's client. -/
def ObserverInfo.subscription (info : ObserverInfo) (serverName : QString) : Subscription :=
  ⟨serverName, info.url, info.query, info.queryOptions⟩

/-- Every subscription of a connected client is live and current: both tables have the same
entries, one for each connector that wants to be subscribed, and what an entry says is what
an existing connector wants now. -/
structure Live (parser : UrlParser) (p : Process) : Prop where
  tables : ∀ s x, p.dbClients s = some x → x.connected = true →
    ∀ id, x.subs id = (x.observerInfo id).map ObserverInfo.sub
  one : ∀ s x, p.dbClients s = some x → x.connected = true →
    ∀ sub c w, p.connectors sub = some c → c.wanted parser = some w → w.serverName = s →
      ∃! id, (x.observerInfo id).map ObserverInfo.sub = some sub
  current : ∀ s x, p.dbClients s = some x → x.connected = true →
    ∀ id info, x.observerInfo id = some info →
      ∃ c, p.connectors info.sub = some c ∧ c.wanted parser = some (info.subscription s)

/-! ## Conditions -/

/-- The requests of a method succeed, and the id of a new observer is not in use. -/
def Answers.Good (p : Process) (dbClient : Option QString) (a : Answers) : Prop :=
  a.connectToServer = true ∧ (∀ id, a.unobserve id = true) ∧
    ∃ id, a.observe = some id ∧
      ∀ s x, dbClient = some s → p.dbClients s = some x → x.observerInfo id = none

/-- The servers answer what a connected client asks. -/
def Answered (parser : UrlParser) (p : Process) : ConnectorEvent → Prop
  | .constructed _ url _ _ a => a.Good p (parser.serverOf url)
  | .setUrl _ url a => a.Good p (parser.serverOf url)
  | .componentComplete sub a => ∀ c, p.connectors sub = some c → a.Good p c.dbClient
  | .setQuery sub _ a => ∀ c, p.connectors sub = some c → a.Good p c.dbClient
  | .setQueryOptions sub _ a => ∀ c, p.connectors sub = some c → a.Good p c.dbClient
  | .setObservable sub _ a => ∀ c, p.connectors sub = some c → a.Good p c.dbClient
  | .destroyed sub a => ∀ c, p.connectors sub = some c → a.Good p c.dbClient
  | _ => True

/-- What a connector wants from a server. -/
def wantedFrom (parser : UrlParser) (s : QString) (c : Option QDocdbConnector) :
    Option Subscription :=
  (c.bind (·.wanted parser)).filter (·.serverName = s)

/-- A change of a connector does not change what it wants from a server whose connection is
lost. -/
def Unnoticed (parser : UrlParser) (p : Process) (c c' : Option QDocdbConnector) : Prop :=
  ∀ s x, p.dbClients s = some x → x.connected = false →
    wantedFrom parser s c = wantedFrom parser s c'

/-- The id that a connector takes back is not the one of another connector. -/
def OwnId (p : Process) (sub : ObjectId) (c : QDocdbConnector) : Prop :=
  ∀ s x info, c.dbClient = some s → p.dbClients s = some x →
    x.observerInfo c.observeId = some info → info.sub = sub

/-- The tables stay in step with the connectors: nothing that is wanted changes while the
connection is lost, a connector takes back no id of another one, and a url with another
scheme is not given to a connector with a valid url. -/
def InStep (parser : UrlParser) (p : Process) : ConnectorEvent → Prop
  | .constructed _ url query queryOptions _ =>
    Unnoticed parser p none (some { QDocdbConnector.new with
      url := url, query := query, queryOptions := queryOptions, initComplete := true })
  | .componentComplete sub _ => ∀ c, p.connectors sub = some c →
    Unnoticed parser p (some c) (some { c with initComplete := true })
  | .setUrl sub url _ => ∀ c, p.connectors sub = some c → c.url ≠ url →
    Unnoticed parser p (some c) (some { c with url := url }) ∧ OwnId p sub c ∧
      ((parser.parse url).scheme = qs "qdocdb" ∨ c.urlValid = false)
  | .setQuery sub query _ => ∀ c, p.connectors sub = some c →
    (QJsonValue.object c.query).eq (.object query) = false →
      Unnoticed parser p (some c) (some { c with query := query }) ∧ OwnId p sub c
  | .setQueryOptions sub queryOptions _ => ∀ c, p.connectors sub = some c →
    (QJsonValue.object c.queryOptions).eq (.object queryOptions) = false →
      Unnoticed parser p (some c) (some { c with queryOptions := queryOptions }) ∧ OwnId p sub c
  | .setObservable sub observable _ => ∀ c, p.connectors sub = some c → c.observable ≠ observable →
    Unnoticed parser p (some c) (some { c with observable := observable }) ∧
      (observable = false → OwnId p sub c)
  | .destroyed sub _ => ∀ c, p.connectors sub = some c →
    Unnoticed parser (p.dropClient c.dbClient) (some c) none
  | _ => True

/-! ## Invariant -/

/-- What holds of a connector in every state. -/
structure ConnectorOk (parser : UrlParser) (p : Process) (c : QDocdbConnector) : Prop where
  urlValid : c.urlValid = (parser.serverOf c.url).isSome
  server : ∀ s, parser.serverOf c.url = some s → c.dbClient = some s
  client : ∀ s, c.dbClient = some s → (p.dbClients s).isSome

/-- The entry `info` under `id` is right for the client of a server. -/
def Subscribed (parser : UrlParser) (p : Process) (s : QString) (id : ℤ) (info : ObserverInfo) :
    Prop :=
  ∃ c, p.connectors info.sub = some c ∧ c.observeId = id ∧
    c.wanted parser = some (info.subscription s)

/-- What holds in every state: `observerInfo` has the right entries, and `subs` has the same
ones while the client is connected. -/
structure SubscriptionsInvariant (parser : UrlParser) (p : Process) : Prop where
  connector : ∀ sub c, p.connectors sub = some c → ConnectorOk parser p c
  tables : ∀ s x, p.dbClients s = some x → ∀ id,
    x.subs id = if x.connected then (x.observerInfo id).map ObserverInfo.sub else none
  entries : ∀ s x, p.dbClients s = some x → ∀ id info,
    x.observerInfo id = some info ↔ Subscribed parser p s id info

/-- A connector wants something exactly from the server of its url. -/
theorem wanted_eq_some_iff {w : Subscription} :
    c.wanted parser = some w ↔ c.initComplete = true ∧ c.observable = true ∧
      parser.serverOf c.url = some w.serverName ∧ w.url = c.url ∧ w.query = c.query ∧
      w.queryOptions = c.queryOptions := by
  obtain ⟨s, url, query, queryOptions⟩ := w
  rw [QDocdbConnector.wanted]
  by_cases h : c.initComplete = true ∧ c.observable = true
  · simp only [h.1, h.2, Bool.and_self, if_true, Option.map_eq_some_iff, Subscription.mk.injEq,
      true_and]
    constructor
    · rintro ⟨s', hs, rfl, rfl, rfl, rfl⟩
      exact ⟨hs, rfl, rfl, rfl⟩
    · rintro ⟨hs, rfl, rfl, rfl⟩
      exact ⟨_, hs, rfl, rfl, rfl, rfl⟩
  · rw [if_neg (by simpa using h)]
    simp only [reduceCtorEq, false_iff]
    exact fun h' => h ⟨h'.1, h'.2.1⟩

theorem ConnectorOk.dbClient_of_wanted (h : ConnectorOk parser p c) {w : Subscription}
    (hw : c.wanted parser = some w) : c.dbClient = some w.serverName :=
  h.server _ (wanted_eq_some_iff.mp hw).2.2.1

/-- **The invariant gives the property.** -/
theorem SubscriptionsInvariant.live (hI : SubscriptionsInvariant parser p) : Live parser p where
  tables s x hx hconnected id := by rw [hI.tables s x hx id, if_pos hconnected]
  one s x hx _ sub c w hc hw hs := by
    subst hs
    refine ⟨c.observeId, ?_, fun id hid => ?_⟩
    · have hentry := (hI.entries _ x hx c.observeId ⟨sub, w.url, w.query, w.queryOptions⟩).mpr
        ⟨c, hc, rfl, hw⟩
      simp [hentry]
    · obtain ⟨info, hinfo, rfl⟩ := Option.map_eq_some_iff.mp hid
      obtain ⟨c', hc', hid', -⟩ := (hI.entries _ x hx id info).mp hinfo
      obtain rfl := Option.some.inj (hc.symm.trans hc')
      exact hid'.symm
  current s x hx _ id info hinfo := by
    obtain ⟨c, hc, -, hw⟩ := (hI.entries s x hx id info).mp hinfo
    exact ⟨c, hc, hw⟩

theorem SubscriptionsInvariant.congr (hI : SubscriptionsInvariant parser p)
    (hconnectors : p'.connectors = p.connectors) (hclients : p'.dbClients = p.dbClients) :
    SubscriptionsInvariant parser p' where
  connector sub c hc := by
    obtain ⟨hvalid, hserver, hclient⟩ := hI.connector sub c (hconnectors ▸ hc)
    exact ⟨hvalid, hserver, by rwa [hclients]⟩
  tables := by rw [hclients]; exact hI.tables
  entries s x hx id info := by
    rw [Subscribed, hconnectors]
    exact hI.entries s x (hclients ▸ hx) id info

/-! ## Changing a connector -/

@[simp] theorem connectors_setConnector :
    (p.setConnector sub c).connectors = Function.update p.connectors sub (some c) := rfl

@[simp] theorem dbClients_setConnector : (p.setConnector sub c).dbClients = p.dbClients := rfl

@[simp] theorem setConnector_setConnector :
    (p.setConnector sub c).setConnector sub c' = p.setConnector sub c' := by
  simp [Process.setConnector]

/-- The right entries after a connector was put in its place. -/
theorem subscribed_setConnector {s : QString} {id : ℤ} {info : ObserverInfo} :
    Subscribed parser (p.setConnector sub c) s id info ↔
      if info.sub = sub then c.observeId = id ∧ c.wanted parser = some (info.subscription s)
      else Subscribed parser p s id info := by
  rw [Subscribed, connectors_setConnector]
  split
  · rename_i h
    simp [h]
  · rename_i h
    simp [Function.update_of_ne h, Subscribed]

/-- A connector whose entry stays what it was. -/
theorem SubscriptionsInvariant.setConnector (hI : SubscriptionsInvariant parser p)
    (hok : ConnectorOk parser p c)
    (hsame : ∀ s id info, info.sub = sub →
      ((c.observeId = id ∧ c.wanted parser = some (info.subscription s)) ↔
        Subscribed parser p s id info)) :
    SubscriptionsInvariant parser (p.setConnector sub c) where
  connector sub' c' hc' := by
    rw [connectors_setConnector, Function.update_apply] at hc'
    split at hc'
    · obtain rfl := Option.some.inj hc'
      exact ⟨hok.urlValid, hok.server, hok.client⟩
    · obtain ⟨hvalid, hserver, hclient⟩ := hI.connector sub' c' hc'
      exact ⟨hvalid, hserver, hclient⟩
  tables := hI.tables
  entries s x hx id info := by
    rw [hI.entries s x hx, subscribed_setConnector]
    split
    · rename_i h
      exact (hsame s id info h).symm
    · rfl

/-- A connector that wants nothing, before and after. -/
theorem SubscriptionsInvariant.setConnector_of_none (hI : SubscriptionsInvariant parser p)
    (hok : ConnectorOk parser p c) (hnone : c.wanted parser = none)
    (hbefore : ∀ c, p.connectors sub = some c → c.wanted parser = none) :
    SubscriptionsInvariant parser (p.setConnector sub c) := by
  refine hI.setConnector hok fun s id info hsub => ?_
  subst hsub
  refine iff_of_false (fun h => by rw [hnone] at h; cases h.2) ?_
  rintro ⟨c', hc', -, hw⟩
  rw [hbefore c' hc'] at hw
  cases hw

/-- A connector that wants the same under the same id. -/
theorem SubscriptionsInvariant.setConnector_of_same (hI : SubscriptionsInvariant parser p)
    (hok : ConnectorOk parser p c') (hc : p.connectors sub = some c)
    (hid : c'.observeId = c.observeId) (hw : c'.wanted parser = c.wanted parser) :
    SubscriptionsInvariant parser (p.setConnector sub c') := by
  refine hI.setConnector hok fun s id info hsub => ?_
  subst hsub
  rw [Subscribed, hid, hw, hc]
  simp

/-- The connector while it is not subscribed. -/
def QDocdbConnector.hide (c : QDocdbConnector) : QDocdbConnector := { c with observable := false }

@[simp] theorem wanted_hide : c.hide.wanted parser = none := by
  simp [QDocdbConnector.hide, QDocdbConnector.wanted]

/-- The connector in its place wants nothing. -/
theorem wanted_of_setConnector_hide (c' : QDocdbConnector)
    (h : (p.setConnector sub c.hide).connectors sub = some c') : c'.wanted parser = none := by
  rw [connectors_setConnector, Function.update_self] at h
  rw [← Option.some.inj h, wanted_hide]

theorem ConnectorOk.hide (h : ConnectorOk parser p c) : ConnectorOk parser p c.hide :=
  ⟨h.urlValid, h.server, h.client⟩

/-- A connector that is complete and has a valid url has a client. -/
theorem ConnectorOk.exists_client (h : ConnectorOk parser p c) {s : QString}
    (hs : c.dbClient = some s) : ∃ x, p.dbClients s = some x ∧ p.client? c = some x := by
  obtain ⟨x, hx⟩ := Option.isSome_iff_exists.mp (h.client s hs)
  exact ⟨x, hx, by rw [Process.client?, hs]; exact hx⟩

/-- What `valid` says of a connector. -/
theorem exists_client_of_valid (hvalid : p.valid c = true) (hok : ConnectorOk parser p c) :
    ∃ s x, c.dbClient = some s ∧ p.dbClients s = some x ∧ p.client? c = some x ∧
      x.connected = true ∧ c.initComplete = true ∧ parser.serverOf c.url = some s := by
  simp only [Process.valid, Bool.and_eq_true, Option.any_eq_true] at hvalid
  obtain ⟨⟨hinit, x, hx, hconnected⟩, hurl⟩ := hvalid
  obtain ⟨s, hs, hx'⟩ := Option.bind_eq_some_iff.mp hx
  rw [hok.urlValid] at hurl
  obtain ⟨s', hs'⟩ := Option.isSome_iff_exists.mp hurl
  obtain rfl := Option.some.inj (hs.symm.trans (hok.server s' hs'))
  exact ⟨s, x, hs, hx', hx, hconnected, hinit, hs'⟩

/-- A connector that wants something without being valid has lost its connection. -/
theorem exists_lost_of_not_valid (hvalid : p.valid c = false) (hok : ConnectorOk parser p c)
    {w : Subscription} (hw : c.wanted parser = some w) :
    ∃ x, p.dbClients w.serverName = some x ∧ x.connected = false := by
  obtain ⟨hinit, -, hs, -⟩ := wanted_eq_some_iff.mp hw
  obtain ⟨x, hx, hclient⟩ := hok.exists_client (hok.server _ hs)
  refine ⟨x, hx, ?_⟩
  have hurl : c.urlValid = true := by rw [hok.urlValid, hs]; rfl
  simpa [Process.valid, hinit, hclient, hurl] using hvalid

/-! ## Taking a subscription back -/

theorem unobserve_of_valid {s : QString} {x : QDocdbClient} (hvalid : p.valid c = true)
    (hs : c.dbClient = some s) (hx : p.client? c = some x) :
    p.unobserve a c = p.setClient s (x.unobserve (a.unobserve c.observeId) c.observeId) := by
  rw [Process.unobserve, hs, hx]
  exact if_pos hvalid

theorem unobserve_of_not_valid (hvalid : p.valid c = false) : p.unobserve a c = p := by
  rw [Process.unobserve]
  split
  · exact if_neg (by simp [hvalid])
  · rfl

@[simp] theorem dbClients_setClient_self {s : QString} {x : QDocdbClient} :
    (p.setClient s x).dbClients s = some x := Function.update_self ..

/-- A table of which one client was replaced. -/
theorem dbClients_setClient {s s' : QString} {x y : QDocdbClient}
    (h : (p.setClient s y).dbClients s' = some x) :
    s' = s ∧ x = y ∨ s' ≠ s ∧ p.dbClients s' = some x := by
  simp only [Process.setClient, Function.update_apply] at h
  split at h
  · rename_i hs
    exact .inl ⟨hs, (Option.some.inj h).symm⟩
  · rename_i hs
    exact .inr ⟨hs, h⟩

/-- A connector keeps its client. -/
theorem ConnectorOk.mono (h : ConnectorOk parser p c)
    (hclients : ∀ s, (p.dbClients s).isSome → (p'.dbClients s).isSome) : ConnectorOk parser p' c :=
  ⟨h.urlValid, h.server, fun s hs => hclients s (h.client s hs)⟩

theorem isSome_dbClients_setClient {s s' : QString} {x : QDocdbClient}
    (h : (p.dbClients s').isSome) : ((p.setClient s x).dbClients s').isSome := by
  simp only [Process.setClient, Function.update_apply]
  split
  · rfl
  · exact h

/-- **unobserve** takes the entry of the connector away. -/
theorem SubscriptionsInvariant.unobserve (hI : SubscriptionsInvariant parser p)
    (hc : p.connectors sub = some c) (hvalid : p.valid c = true) (hown : OwnId p sub c)
    (hanswer : a.unobserve c.observeId = true) :
    SubscriptionsInvariant parser ((p.unobserve a c).setConnector sub c.hide) := by
  have hok := hI.connector sub c hc
  obtain ⟨s, x, hs, hx, hclient, hconnected, -, hurl⟩ := exists_client_of_valid hvalid hok
  rw [unobserve_of_valid hvalid hs hclient, hanswer]
  have hother : ∀ {s' id info}, info.sub = sub → Subscribed parser p s' id info →
      s' = s ∧ id = c.observeId := by
    rintro s' id info rfl ⟨c', hc', hid, hw⟩
    obtain rfl := Option.some.inj (hc.symm.trans hc')
    exact ⟨(Option.some.inj (hs.symm.trans (hok.dbClient_of_wanted hw))).symm, hid.symm⟩
  refine ⟨fun sub' c' hc' => ?_, fun s' x' hx' id => ?_, fun s' x' hx' id info => ?_⟩
  · rw [connectors_setConnector, Function.update_apply] at hc'
    split at hc'
    · obtain rfl := Option.some.inj hc'
      exact hok.hide.mono fun _ => isSome_dbClients_setClient
    · exact (hI.connector sub' c' hc').mono fun _ => isSome_dbClients_setClient
  · rcases dbClients_setClient hx' with ⟨rfl, rfl⟩ | ⟨-, hx'⟩
    · have htable := hI.tables s' x hx id
      simp only [QDocdbClient.unobserve, if_true, hconnected] at htable ⊢
      by_cases hid : id = c.observeId
      · simp [hid]
      · simp [hid, htable]
    · exact hI.tables s' x' hx' id
  · rw [subscribed_setConnector]
    rcases dbClients_setClient hx' with ⟨rfl, rfl⟩ | ⟨hne, hx'⟩
    · simp only [QDocdbClient.unobserve, if_true, wanted_hide]
      by_cases hid : id = c.observeId
      · subst hid
        simp only [Function.update_self, reduceCtorEq, and_false, false_iff]
        split
        · exact not_false
        · -- no other connector has this id
          rename_i hsub
          exact fun h => hsub (hown s' x info hs hx ((hI.entries s' x hx _ info).mpr h))
      · rw [Function.update_of_ne hid, hI.entries s' x hx]
        split
        · rename_i hsub
          exact iff_of_false (fun h => hid (hother hsub h).2) (by simp)
        · rfl
    · rw [hI.entries s' x' hx']
      split
      · rename_i hsub
        exact iff_of_false (fun h => hne (hother hsub h).1) (by simp)
      · rfl

/-! ## Making a subscription -/

theorem observeAs_of_not (h : (p.valid c && c.observable) = false) :
    p.observeAs a sub c = p.setConnector sub c := by
  have hsame : p.observe a sub c = (p, c) := by
    rw [Process.observe]
    split
    · exact if_neg (by simp [h])
    · rfl
  rw [Process.observeAs, hsame]

theorem observeAs_of_valid {s : QString} {x : QDocdbClient} {id : ℤ}
    (h : (p.valid c && c.observable) = true) (hs : c.dbClient = some s)
    (hx : p.client? c = some x) (hanswer : a.observe = some id) :
    p.observeAs a sub c =
      (p.setClient s (x.observe (some id) ⟨sub, c.url, c.query, c.queryOptions⟩).2).setConnector sub
        { c with observeId := id } := by
  rw [Process.observeAs, Process.observe, hs, hx, hanswer]
  dsimp only
  rw [if_pos h]
  rfl

/-- **observe** adds the entry of a connector that has none. -/
theorem SubscriptionsInvariant.observeAs
    (hI : SubscriptionsInvariant parser (p.setConnector sub c.hide)) (hok : ConnectorOk parser p c)
    (hlost : p.valid c = false → c.wanted parser = none) {id : ℤ} (hanswer : a.observe = some id)
    (hfresh : ∀ s x, c.dbClient = some s → p.dbClients s = some x → x.observerInfo id = none) :
    SubscriptionsInvariant parser (p.observeAs a sub c) := by
  cases h : p.valid c && c.observable with
  | false =>
    have hnone : c.wanted parser = none := by
      rcases Bool.and_eq_false_iff.mp h with h | h
      · exact hlost h
      · simp [QDocdbConnector.wanted, h]
    rw [observeAs_of_not h, ← setConnector_setConnector (c := c.hide)]
    exact hI.setConnector_of_none ⟨hok.urlValid, hok.server, hok.client⟩ hnone
      wanted_of_setConnector_hide
  | true =>
    obtain ⟨hvalid, hobservable⟩ := Bool.and_eq_true_iff.mp h
    obtain ⟨s, x, hs, hx, hclient, hconnected, hinit, hurl⟩ := exists_client_of_valid hvalid hok
    rw [observeAs_of_valid h hs hclient hanswer]
    have hfree := hfresh s x hs hx
    have hwanted : ∀ s' info, info.sub = sub →
        (({ c with observeId := id } : QDocdbConnector).wanted parser =
            some (ObserverInfo.subscription info s') ↔
          s' = s ∧ info = ⟨sub, c.url, c.query, c.queryOptions⟩) := by
      rintro s' ⟨sub', url, query, queryOptions⟩ hsub
      subst hsub
      simp only [wanted_eq_some_iff, ObserverInfo.subscription, hinit, hobservable, hurl,
        true_and, Option.some.injEq, ObserverInfo.mk.injEq, and_congr_left_iff]
      exact fun _ => eq_comm
    refine ⟨fun sub' c' hc' => ?_, fun s' x' hx' id' => ?_, fun s' x' hx' id' info => ?_⟩
    · have hmono : ∀ s', ((p.setConnector sub c.hide).dbClients s').isSome → _ :=
        fun s' => isSome_dbClients_setClient (p := p) (s := s)
          (x := (x.observe (some id) ⟨sub, c.url, c.query, c.queryOptions⟩).2)
      rw [connectors_setConnector, Function.update_apply] at hc'
      split at hc'
      · obtain rfl := Option.some.inj hc'
        exact ⟨hok.urlValid, hok.server, (hok.mono hmono).client⟩
      · rename_i hne
        refine (hI.connector sub' c' ?_).mono hmono
        rw [connectors_setConnector, Function.update_of_ne hne]
        exact hc'
    · rcases dbClients_setClient hx' with ⟨rfl, rfl⟩ | ⟨-, hx'⟩
      · have htable := hI.tables s' x hx id'
        simp only [QDocdbClient.observe, hconnected, hfree, if_true] at htable ⊢
        by_cases hid : id' = id
        · simp [hid]
        · simp [hid, htable]
      · exact hI.tables s' x' hx' id'
    · rw [subscribed_setConnector]
      have hbefore := @subscribed_setConnector parser p sub c.hide s' id' info
      rcases dbClients_setClient hx' with ⟨rfl, rfl⟩ | ⟨hne, hx'⟩
      · have hentry := hI.entries s' x hx id' info
        rw [hbefore] at hentry
        simp only [QDocdbClient.observe, hfree, Option.isSome_none, Bool.false_eq_true, if_false]
        by_cases hid : id' = id
        · subst hid
          rw [Function.update_self]
          split
          · rename_i hsub
            rw [hwanted s' info hsub]
            simp [eq_comm]
          · -- the id was not in use
            rename_i hsub
            rw [if_neg hsub, hfree] at hentry
            refine Iff.trans (iff_of_false (fun h => ?_) (by simp)) hentry
            exact hsub (by rw [← Option.some.inj h])
        · rw [Function.update_of_ne hid, hentry]
          split
          · simp [Ne.symm hid]
          · rfl
      · rw [hI.entries s' x' hx', hbefore]
        split
        · rename_i hsub
          rw [hwanted s' info hsub]
          simp [hne]
        · rfl

/-! ## The methods -/

/-- A connector that has to take its subscription back, or has none. -/
theorem SubscriptionsInvariant.unobserve_or (hI : SubscriptionsInvariant parser p)
    (hc : p.connectors sub = some c) (hown : OwnId p sub c)
    (hanswer : ∀ id, a.unobserve id = true)
    (hlost : p.valid c = false → c.wanted parser = none) :
    SubscriptionsInvariant parser ((p.unobserve a c).setConnector sub c.hide) := by
  cases hvalid : p.valid c with
  | true => exact hI.unobserve hc hvalid hown (hanswer _)
  | false =>
    rw [unobserve_of_not_valid hvalid]
    refine hI.setConnector_of_none (hI.connector sub c hc).hide wanted_hide fun c' hc' => ?_
    rw [← Option.some.inj (hc.symm.trans hc')]
    exact hlost hvalid

/-- A client after one of its observers was taken back. -/
structure FewerEntries (x x' : QDocdbClient) : Prop where
  connected : x'.connected = x.connected
  observerInfo : ∀ id, x.observerInfo id = none → x'.observerInfo id = none

@[simp] theorem connectors_unobserve : (p.unobserve a c).connectors = p.connectors := by
  rw [Process.unobserve]
  split
  · split <;> rfl
  · rfl

theorem fewerEntries_unobserve (s : QString) :
    Option.Rel FewerEntries (p.dbClients s) ((p.unobserve a c).dbClients s) := by
  have hsame : ∀ o : Option QDocdbClient, Option.Rel FewerEntries o o := by
    intro o
    cases o with
    | none => exact .none
    | some x => exact .some ⟨rfl, fun _ h => h⟩
  rw [Process.unobserve]
  split
  · rename_i serverName x hs hx
    split
    · rw [Process.client?, hs] at hx
      have hx : p.dbClients serverName = some x := hx
      by_cases hname : s = serverName
      · subst hname
        simp only [Process.setClient, Function.update_self, hx]
        rw [QDocdbClient.unobserve]
        split
        · refine .some ⟨rfl, fun id hid => ?_⟩
          simp [Function.update_apply, hid]
        · exact .some ⟨rfl, fun _ h => h⟩
      · simp only [Process.setClient, Function.update_of_ne hname]
        exact hsame _
    · exact hsame _
  · exact hsame _

/-- Whether a connector is valid does not depend on the tables. -/
theorem valid_unobserve : (p.unobserve a c).valid c' = p.valid c' := by
  have hclient : ((p.unobserve a c).client? c').any (·.connected) =
      (p.client? c').any (·.connected) := by
    simp only [Process.client?]
    cases c'.dbClient with
    | none => rfl
    | some s =>
      simp only [Option.bind_some]
      have hrel := fewerEntries_unobserve (p := p) (a := a) (c := c) s
      generalize p.dbClients s = o at hrel ⊢
      generalize (p.unobserve a c).dbClients s = o' at hrel ⊢
      cases hrel with
      | none => rfl
      | some h => exact h.connected
  rw [Process.valid, Process.valid, hclient]

/-- A client that is there after a subscription was taken back was there before. -/
theorem exists_of_unobserve {s : QString} {x' : QDocdbClient}
    (h : (p.unobserve a c).dbClients s = some x') :
    ∃ x, p.dbClients s = some x ∧ FewerEntries x x' := by
  have hrel := fewerEntries_unobserve (p := p) (a := a) (c := c) s
  rw [h] at hrel
  cases hx : p.dbClients s with
  | none =>
    rw [hx] at hrel
    cases hrel
  | some x =>
    rw [hx] at hrel
    cases hrel with
    | some hrel => exact ⟨x, rfl, hrel⟩

theorem isSome_dbClients_unobserve {s : QString} (h : (p.dbClients s).isSome) :
    ((p.unobserve a c).dbClients s).isSome := by
  have hrel := fewerEntries_unobserve (p := p) (a := a) (c := c) s
  cases hx' : (p.unobserve a c).dbClients s with
  | none =>
    rw [hx'] at hrel
    cases hx : p.dbClients s with
    | none =>
      rw [hx] at h
      cases h
    | some x =>
      rw [hx] at hrel
      cases hrel
  | some x' => rfl

/-- What is wanted from a server whose connection is lost was wanted before. -/
theorem Unnoticed.wanted_eq {o : Option QDocdbConnector} (h : Unnoticed parser p o (some c'))
    {w : Subscription} {x : QDocdbClient} (hx : p.dbClients w.serverName = some x)
    (hlost : x.connected = false) (hw : c'.wanted parser = some w) :
    o.bind (·.wanted parser) = some w := by
  have hfrom := h _ x hx hlost
  simp only [wantedFrom, Option.bind_some, hw] at hfrom
  rw [Option.filter_some, if_pos (by simp), Option.filter_eq_some_iff] at hfrom
  exact hfrom.1

theorem Unnoticed.wanted_of_lost {o : Option QDocdbConnector} (h : Unnoticed parser p o (some c'))
    (hok : ConnectorOk parser p c') (hvalid : p.valid c' = false) {w : Subscription}
    (hw : c'.wanted parser = some w) : o.bind (·.wanted parser) = some w := by
  obtain ⟨x, hx, hlost⟩ := exists_lost_of_not_valid hvalid hok hw
  exact h.wanted_eq hx hlost hw

/-- The same, from before to after the change. -/
theorem Unnoticed.wanted_of_lost_before {o : Option QDocdbConnector}
    (h : Unnoticed parser p (some c) o) (hok : ConnectorOk parser p c)
    (hvalid : p.valid c = false) {w : Subscription} (hw : c.wanted parser = some w) :
    o.bind (·.wanted parser) = some w :=
  wanted_of_lost (fun s x hx hlost => (h s x hx hlost).symm) hok hvalid hw

/-- A change of a connector's properties other than the url. -/
structure SameClient (c c' : QDocdbConnector) : Prop where
  url : c'.url = c.url
  urlValid : c'.urlValid = c.urlValid
  initComplete : c'.initComplete = c.initComplete
  observeId : c'.observeId = c.observeId
  dbClient : c'.dbClient = c.dbClient

theorem SameClient.valid (h : SameClient c c') : p.valid c' = p.valid c := by
  rw [Process.valid, Process.valid, Process.client?, Process.client?, h.initComplete, h.urlValid,
    h.dbClient]

theorem ConnectorOk.of_sameClient (hok : ConnectorOk parser p c) (h : SameClient c c') :
    ConnectorOk parser p c' :=
  ⟨by rw [h.urlValid, h.url, hok.urlValid], by rw [h.url, h.dbClient]; exact hok.server,
    by rw [h.dbClient]; exact hok.client⟩

/-- **Subscribing** a connector that wanted nothing before. -/
theorem SubscriptionsInvariant.observeAs_of_none (hI : SubscriptionsInvariant parser p)
    (hok : ConnectorOk parser p c')
    (hbefore : ∀ c, p.connectors sub = some c → c.wanted parser = none)
    (hun : Unnoticed parser p (p.connectors sub) (some c')) (hgood : a.Good p c'.dbClient) :
    SubscriptionsInvariant parser (p.observeAs a sub c') := by
  obtain ⟨-, -, id, hanswer, hfresh⟩ := hgood
  refine (hI.setConnector_of_none hok.hide wanted_hide hbefore).observeAs hok (fun hvalid => ?_)
    hanswer hfresh
  rw [← Option.not_isSome_iff_eq_none]
  intro hsome
  obtain ⟨w, hw⟩ := Option.isSome_iff_exists.mp hsome
  obtain ⟨c, hc, hcw⟩ := Option.bind_eq_some_iff.mp (hun.wanted_of_lost hok hvalid hw)
  rw [hbefore c hc] at hcw
  cases hcw

/-- **Subscribing again** after a property changed. -/
theorem SubscriptionsInvariant.resubscribe (hI : SubscriptionsInvariant parser p)
    (hc : p.connectors sub = some c) (hsame : SameClient c c')
    (hun : Unnoticed parser p (some c) (some c')) (hown : OwnId p sub c)
    (hgood : a.Good p c.dbClient) :
    SubscriptionsInvariant parser ((p.unobserve a c).observeAs a sub c') := by
  have hok := hI.connector sub c hc
  have hok' := hok.of_sameClient hsame
  obtain ⟨-, hunobserve, id, hanswer, hfresh⟩ := hgood
  cases hvalid : p.valid c with
  | true =>
    have hmono := hok'.mono fun s => isSome_dbClients_unobserve (p := p) (a := a) (c := c) (s := s)
    have hhidden := hI.unobserve hc hvalid hown (hunobserve _)
    have hhidden' : SubscriptionsInvariant parser ((p.unobserve a c).setConnector sub c'.hide) := by
      rw [← setConnector_setConnector (c := c.hide)]
      exact hhidden.setConnector_of_none ⟨hmono.urlValid, hmono.server, hmono.client⟩ wanted_hide
        wanted_of_setConnector_hide
    refine hhidden'.observeAs hmono (fun h => ?_) hanswer fun s x hs hx => ?_
    · rw [valid_unobserve, hsame.valid, hvalid] at h
      cases h
    · obtain ⟨x₀, hx₀, hfewer⟩ := exists_of_unobserve hx
      exact hfewer.observerInfo id (hfresh s x₀ (hsame.dbClient ▸ hs) hx₀)
  | false =>
    -- nothing is sent, and the connector wants what it wanted before
    have hvalid' : p.valid c' = false := by rw [hsame.valid, hvalid]
    rw [unobserve_of_not_valid hvalid, observeAs_of_not (by simp [hvalid'])]
    refine hI.setConnector_of_same hok' hc hsame.observeId ?_
    cases hw : c'.wanted parser with
    | some w => exact (hun.wanted_of_lost hok' hvalid' hw).symm
    | none =>
      cases hw' : c.wanted parser with
      | none => rfl
      | some w =>
        have := hun.wanted_of_lost_before hok hvalid hw'
        rw [Option.bind_some, hw] at this
        cases this

/-- A new client has no entries, and no connector wants anything from its server. -/
theorem SubscriptionsInvariant.connectToServer (hI : SubscriptionsInvariant parser p)
    {s : QString} (hnone : p.dbClients s = none) :
    SubscriptionsInvariant parser (p.setClient s .connectToServer) where
  connector sub c hc := (hI.connector sub c hc).mono fun _ => isSome_dbClients_setClient
  tables s' x hx id := by
    rcases dbClients_setClient hx with ⟨rfl, rfl⟩ | ⟨-, hx⟩
    · rfl
    · exact hI.tables s' x hx id
  entries s' x hx id info := by
    rcases dbClients_setClient hx with ⟨rfl, rfl⟩ | ⟨-, hx⟩
    · refine iff_of_false (fun h => by cases h) ?_
      rintro ⟨c, hc, -, hw⟩
      have hok := hI.connector _ c hc
      have hsome := hok.client _ (hok.dbClient_of_wanted hw)
      simp only [ObserverInfo.subscription, hnone, Option.isSome_none, Bool.false_eq_true] at hsome
    · exact hI.entries s' x hx id info

@[simp] theorem connectors_release {o : Option QString} :
    (p.release o).connectors = p.connectors := by
  cases o <;> rfl

@[simp] theorem dbClients_release {o : Option QString} : (p.release o).dbClients = p.dbClients := by
  cases o <;> rfl

/-- `p'` is `p` with the client of the server `s`, which is made when it is not there. -/
structure Acquired (p p' : Process) (s : QString) : Prop where
  connectors : p'.connectors = p.connectors
  clients : p.dbClients s ≠ none ∧ p'.dbClients = p.dbClients ∨
    p.dbClients s = none ∧ p'.dbClients = (p.setClient s .connectToServer).dbClients

namespace Acquired

/-- Whether the old client was released before makes no difference. -/
theorem of_release {o : Option QString} {s : QString} (h : Acquired (p.release o) p' s) :
    Acquired p p' s := by
  obtain ⟨hconnectors, hclients⟩ := h
  rw [connectors_release] at hconnectors
  simp only [Process.setClient, dbClients_release] at hclients
  exact ⟨hconnectors, hclients⟩

theorem isSome {s : QString} (h : Acquired p p' s) : (p'.dbClients s).isSome := by
  rcases h.clients with ⟨hsome, hclients⟩ | ⟨-, hclients⟩
  · rw [hclients]
    exact Option.isSome_iff_ne_none.mpr hsome
  · rw [hclients, dbClients_setClient_self]
    rfl

/-- A client whose connection is lost was there before. -/
theorem client {s : QString} (h : Acquired (p.unobserve a c) p' s) {x' : QDocdbClient}
    (hx' : p'.dbClients s = some x') :
    x'.connected = true ∧ (∀ id, x'.observerInfo id = none) ∨
      ∃ x, p.dbClients s = some x ∧ FewerEntries x x' := by
  rcases h.clients with ⟨-, hclients⟩ | ⟨-, hclients⟩
  · rw [hclients] at hx'
    exact .inr (exists_of_unobserve hx')
  · rw [hclients, dbClients_setClient_self] at hx'
    rw [← Option.some.inj hx']
    exact .inl ⟨rfl, fun _ => rfl⟩

end Acquired

/-- What `acquire` does when a connection is accepted. -/
theorem exists_acquire (hconnect : a.connectToServer = true) (s : QString) :
    ∃ p', p.acquire a s = (p', some s) ∧ Acquired p p' s ∧
      p'.dbClientUses = Function.update p.dbClientUses s (p.dbClientUses s + 1) := by
  rw [Process.acquire]
  split
  · rename_i x hx
    exact ⟨_, rfl, ⟨rfl, .inl ⟨by simp [hx], rfl⟩⟩, rfl⟩
  · rename_i hx
    rw [if_pos hconnect]
    exact ⟨_, rfl, ⟨rfl, .inr ⟨hx, rfl⟩⟩, rfl⟩

/-- The server of a url that passes the checks of `setUrl`. -/
theorem serverOf_eq {url : QString} (hscheme : (parser.parse url).scheme = qs "qdocdb") :
    parser.serverOf url =
      if (parser.parse url).host = [] ∨ (parser.parse url).url.dbName = [] ∨
        (parser.parse url).url.collName = [] then none
      else some (parser.parse url).host := by
  rw [UrlParser.serverOf]
  simp only [hscheme, true_and]
  by_cases h : (parser.parse url).host = [] ∨ (parser.parse url).url.dbName = [] ∨
      (parser.parse url).url.collName = []
  · rw [if_pos h, if_neg (by tauto)]
  · rw [if_neg h, if_pos (by tauto)]

theorem serverOf_eq_none {url : QString} (hscheme : (parser.parse url).scheme ≠ qs "qdocdb") :
    parser.serverOf url = none := by
  rw [UrlParser.serverOf]
  exact if_neg fun h => hscheme h.1

/-- The client that `setUrl` asks for changes nothing of what the connectors want. -/
theorem SubscriptionsInvariant.of_acquired {s : QString}
    (h : SubscriptionsInvariant parser (p.setConnector sub c)) (hacquired : Acquired p p' s) :
    SubscriptionsInvariant parser (p'.setConnector sub c) := by
  rcases hacquired.clients with ⟨-, hclients⟩ | ⟨hnone, hclients⟩
  · exact h.congr (by simp [hacquired.connectors]) (by simp [hclients])
  · refine (h.connectToServer hnone).congr ?_ ?_
    · simp [Process.setClient, hacquired.connectors]
    · simp [hclients, Process.setClient]

/-- **setUrl** with a url of the right scheme. -/
theorem SubscriptionsInvariant.setUrl_of_scheme (hI : SubscriptionsInvariant parser p)
    (hc : p.connectors sub = some c) {url : QString} (hne : c.url ≠ url)
    (hscheme : (parser.parse url).scheme = qs "qdocdb")
    (hun : Unnoticed parser p (some c) (some { c with url := url })) (hown : OwnId p sub c)
    (hgood : a.Good p (parser.serverOf url)) :
    SubscriptionsInvariant parser (p.setUrl parser a sub c url) := by
  have hok := hI.connector sub c hc
  obtain ⟨hconnect, hunobserve, id, hanswer, hfresh⟩ := hgood
  have hserver := serverOf_eq hscheme
  -- a subscription for the old url is not left behind
  have hhidden : SubscriptionsInvariant parser ((p.unobserve a c).setConnector sub c.hide) := by
    refine hI.unobserve_or hc hown hunobserve fun hvalid => ?_
    cases hw : c.wanted parser with
    | none => rfl
    | some w =>
      have hw' := hun.wanted_of_lost_before hok hvalid hw
      rw [Option.bind_some] at hw'
      exact absurd ((wanted_eq_some_iff.mp hw).2.2.2.1.symm.trans
        (wanted_eq_some_iff.mp hw').2.2.2.1) hne
  have hsame : p.unobserve a { c with url := url } = p.unobserve a c := rfl
  rw [Process.setUrl, if_neg hne]
  dsimp only
  rw [if_neg (not_not.mpr hscheme), hsame]
  split
  · rename_i hempty
    rw [if_pos hempty] at hserver
    rw [← setConnector_setConnector (c := c.hide)]
    refine hhidden.setConnector_of_none ⟨?_, fun s hs => ?_, ?_⟩ ?_ wanted_of_setConnector_hide
    · simp [hserver]
    · rw [hserver] at hs
      cases hs
    · exact (hok.mono fun s => isSome_dbClients_unobserve).client
    · simp [QDocdbConnector.wanted, hserver]
  · rename_i hfull
    rw [if_neg hfull] at hserver
    obtain ⟨p', hacquire, hacquired, -⟩ :=
      exists_acquire (p := (p.unobserve a c).release c.dbClient) hconnect (parser.parse url).host
    rw [hacquire]
    have hhidden' := hhidden.of_acquired hacquired.of_release
    generalize hnew : ({ c with
      url := url, urlValid := true, dbClient := some (parser.parse url).host } : QDocdbConnector) = c'
    have hok' : ConnectorOk parser p' c' := by
      subst hnew
      refine ⟨by simp [hserver], fun s hs => by rw [← hs, hserver], fun s hs => ?_⟩
      obtain rfl := Option.some.inj hs
      exact hacquired.isSome
    have hhidden'' : SubscriptionsInvariant parser (p'.setConnector sub c'.hide) := by
      rw [← setConnector_setConnector (c := c.hide)]
      exact hhidden'.setConnector_of_none ⟨hok'.urlValid, hok'.server, hok'.client⟩ wanted_hide
        wanted_of_setConnector_hide
    refine hhidden''.observeAs hok' (fun hvalid => ?_) hanswer fun s x' hs hx' => ?_
    · cases hw : c'.wanted parser with
      | none => rfl
      | some w =>
        obtain ⟨x', hx', hlost⟩ := exists_lost_of_not_valid hvalid hok' hw
        have hname : w.serverName = (parser.parse url).host := by
          have := hok'.dbClient_of_wanted hw
          subst hnew
          exact (Option.some.inj this).symm
        rw [hname] at hx'
        rcases hacquired.of_release.client hx' with ⟨hconnected, -⟩ | ⟨x, hx, hfewer⟩
        · rw [hlost] at hconnected
          cases hconnected
        · have hw' : ({ c with url := url } : QDocdbConnector).wanted parser = some w := by
            subst hnew
            exact hw
          have hold := hun.wanted_eq (hname ▸ hx) (hfewer.connected ▸ hlost) hw'
          rw [Option.bind_some] at hold
          exact absurd ((wanted_eq_some_iff.mp hold).2.2.2.1.symm.trans
            (wanted_eq_some_iff.mp hw').2.2.2.1) hne
    · subst hnew
      obtain rfl := Option.some.inj hs
      rcases hacquired.of_release.client hx' with ⟨-, hempty⟩ | ⟨x, hx, hfewer⟩
      · exact hempty id
      · exact hfewer.observerInfo id (hfresh _ x hserver hx)

/-! ## Counting the connectors of a client -/

/-- The connectors that point to the client of a server. -/
def Process.users (p : Process) (s : QString) : Set ObjectId :=
  {sub | ∃ c, p.connectors sub = some c ∧ c.dbClient = some s}

/-- `dbClientUses` counts the connectors of each client. -/
def Counted (p : Process) : Prop :=
  ∀ s, (p.users s).Finite ∧ p.dbClientUses s = (p.users s).ncard

/-- Whether a connector counts for the client of a server. -/
def usedBy (o : Option QDocdbConnector) (s : QString) : ℤ :=
  if o.bind (·.dbClient) = some s then 1 else 0

theorem mem_users {s : QString} :
    sub ∈ p.users s ↔ (p.connectors sub).bind (·.dbClient) = some s := by
  rw [Option.bind_eq_some_iff]
  rfl

/-- A connector and the other ones. -/
theorem ncard_users {s : QString} (hfinite : (p.users s).Finite) (sub : ObjectId) :
    ((p.users s).ncard : ℤ) = (p.users s \ {sub}).ncard + usedBy (p.connectors sub) s := by
  rw [usedBy]
  split
  · rename_i h
    rw [← Set.ncard_sdiff_singleton_add_one (mem_users.mpr h) hfinite]
    push_cast
    rfl
  · rename_i h
    rw [Set.sdiff_singleton_eq_self (fun hmem => h (mem_users.mp hmem)), add_zero]

/-- One connector changes, and the counters with it. -/
theorem Counted.update (h : Counted p) {o : Option QDocdbConnector}
    (hconnectors : p'.connectors = Function.update p.connectors sub o)
    (huses : ∀ s, p'.dbClientUses s = p.dbClientUses s - usedBy (p.connectors sub) s + usedBy o s) :
    Counted p' := by
  intro s
  obtain ⟨hfinite, hcount⟩ := h s
  have hothers : p'.users s \ {sub} = p.users s \ {sub} := by
    ext sub'
    simp only [Set.mem_sdiff, Set.mem_singleton_iff, mem_users, hconnectors]
    refine and_congr_left fun hne => ?_
    rw [Function.update_of_ne hne]
  have hfinite' : (p'.users s).Finite := by
    refine Set.Finite.of_sdiff (t := {sub}) ?_ (Set.finite_singleton sub)
    rw [hothers]
    exact hfinite.sdiff
  refine ⟨hfinite', ?_⟩
  have hsub : p'.connectors sub = o := by rw [hconnectors, Function.update_self]
  rw [huses, hcount, ncard_users hfinite sub, ncard_users hfinite' sub, hothers, hsub]
  omega

/-- A connector that keeps its client. -/
theorem Counted.of_same (h : Counted p) (hconnectors : p'.connectors =
    Function.update p.connectors sub (some c'))
    (hclient : (p.connectors sub).bind (·.dbClient) = c'.dbClient)
    (huses : p'.dbClientUses = p.dbClientUses) : Counted p' := by
  refine h.update hconnectors fun s => ?_
  rw [huses, usedBy, usedBy, hclient, Option.bind_some]
  omega

@[simp] theorem dbClientUses_unobserve : (p.unobserve a c).dbClientUses = p.dbClientUses := by
  rw [Process.unobserve]
  split
  · split <;> rfl
  · rfl

theorem exists_observeAs (p : Process) (a : Answers) (sub : ObjectId) (c : QDocdbConnector) :
    ∃ id, (p.observeAs a sub c).connectors =
      Function.update p.connectors sub (some { c with observeId := id }) ∧
    (p.observeAs a sub c).dbClientUses = p.dbClientUses := by
  rw [Process.observeAs, Process.observe]
  split
  · split <;> exact ⟨_, rfl, rfl⟩
  · exact ⟨c.observeId, rfl, rfl⟩

theorem Counted.observeAs (h : Counted p)
    (hclient : (p.connectors sub).bind (·.dbClient) = c.dbClient) :
    Counted (p.observeAs a sub c) := by
  obtain ⟨id, hconnectors, huses⟩ := exists_observeAs p a sub c
  exact h.of_same hconnectors hclient huses

theorem Counted.unobserve (h : Counted p) : Counted (p.unobserve a c) := by
  intro s
  rw [Process.users, connectors_unobserve, dbClientUses_unobserve]
  exact h s

theorem dbClientUses_release {o : Option QString} (s : QString) :
    (p.release o).dbClientUses s = p.dbClientUses s - if o = some s then 1 else 0 := by
  cases o with
  | none => simp [Process.release]
  | some s' =>
    simp only [Process.release, Function.update_apply, Option.some.injEq]
    by_cases h : s = s'
    · simp [h]
    · simp [h, Ne.symm h]

theorem Counted.setUrl (h : Counted p) (hc : p.connectors sub = some c)
    (hconnect : a.connectToServer = true) (url : QString) :
    Counted (p.setUrl parser a sub c url) := by
  have hbind : (p.connectors sub).bind (·.dbClient) = c.dbClient := by rw [hc, Option.bind_some]
  rw [Process.setUrl]
  split
  · exact h
  · dsimp only
    split
    · exact h.of_same rfl hbind rfl
    · split
      · refine h.unobserve.of_same rfl ?_ rfl
        rw [connectors_unobserve, hbind]
      · obtain ⟨p', hacquire, hacquired, huses⟩ := exists_acquire (a := a)
          (p := (p.unobserve a { c with url := url }).release c.dbClient) hconnect
          (parser.parse url).host
        rw [hacquire]
        dsimp only
        obtain ⟨id, hobserve, huses'⟩ := exists_observeAs p' a sub { c with
          url := url, urlValid := true, dbClient := some (parser.parse url).host }
        rw [hacquired.connectors, connectors_release, connectors_unobserve] at hobserve
        refine h.update hobserve fun s => ?_
        rw [huses', huses, Function.update_apply, dbClientUses_release, dbClientUses_release,
          dbClientUses_unobserve, usedBy, usedBy, hbind, Option.bind_some]
        by_cases hs : s = (parser.parse url).host
        · simp [hs]
        · simp [hs, Ne.symm hs]

/-! ## Destroying a connector -/

/-- Whether the client of a connector goes with it. -/
theorem dbClients_dropClient {o : Option QString} (s : QString) :
    (p.dropClient o).dbClients s =
      if o = some s ∧ p.dbClientUses s ≤ 1 then none else p.dbClients s := by
  cases o with
  | none => simp [Process.dropClient]
  | some s' =>
    simp only [Process.dropClient, dbClientUses_release, if_true, Option.some.injEq]
    split
    · rename_i hle
      simp only [Function.update_apply, dbClients_release]
      by_cases hs : s = s'
      · subst hs
        rw [if_pos rfl, if_pos ⟨rfl, by omega⟩]
      · rw [if_neg hs, if_neg fun h => hs h.1.symm]
    · rename_i hlt
      rw [dbClients_release, if_neg]
      rintro ⟨rfl, hle⟩
      omega

@[simp] theorem connectors_dropClient {o : Option QString} :
    (p.dropClient o).connectors = p.connectors := by
  cases o with
  | none => rfl
  | some s =>
    rw [Process.dropClient]
    split <;> exact connectors_release

/-- The counter after the destructor; a counter that is gone is zero. -/
theorem Counted.dbClientUses_dropClient (h : Counted p) (hc : p.connectors sub = some c)
    (s : QString) :
    (p.dropClient c.dbClient).dbClientUses s =
      p.dbClientUses s - usedBy (p.connectors sub) s := by
  rw [usedBy, hc, Option.bind_some]
  cases hs : c.dbClient with
  | none => simp [Process.dropClient]
  | some s' =>
    have hpos : 1 ≤ p.dbClientUses s' := by
      obtain ⟨hfinite, hcount⟩ := h s'
      have hused : usedBy (p.connectors sub) s' = 1 := by simp [usedBy, hc, hs]
      rw [hcount, ncard_users hfinite sub, hused]
      omega
    rw [Process.dropClient]
    simp only [dbClientUses_release, if_true, Option.some.injEq]
    split
    · rename_i hle
      simp only [Function.update_apply, dbClientUses_release, Option.some.injEq]
      by_cases hs' : s = s'
      · subst hs'
        simp only [if_true]
        omega
      · simp [hs', Ne.symm hs']
    · rw [dbClientUses_release]
      simp

theorem Counted.destroy (h : Counted p) (hc : p.connectors sub = some c) :
    Counted (p.destroy a sub c) := by
  have hconnectors : (p.destroy a sub c).connectors = Function.update p.connectors sub none := by
    rw [Process.destroy]
    simp
  refine h.update hconnectors fun s => ?_
  have huses := h.dbClientUses_dropClient hc s
  rw [Process.destroy]
  simpa [usedBy] using huses

/-- A client that goes with a connector has no other one. -/
theorem Counted.eq_of_dropped (h : Counted p) (hc : p.connectors sub = some c) {s : QString}
    (hs : c.dbClient = some s) (hle : p.dbClientUses s ≤ 1) {sub' : ObjectId}
    (hc' : p.connectors sub' = some c') (hs' : c'.dbClient = some s) : sub' = sub := by
  by_contra hne
  obtain ⟨hfinite, hcount⟩ := h s
  have hused : usedBy (p.connectors sub) s = 1 := by simp [usedBy, hc, hs]
  have hother : 0 < (p.users s \ {sub}).ncard :=
    (Set.ncard_pos hfinite.sdiff).mpr ⟨sub', ⟨c', hc', hs'⟩, hne⟩
  rw [hcount, ncard_users hfinite sub, hused] at hle
  omega

/-- **Destroying** a connector removes its entry from the client of its server. -/
theorem SubscriptionsInvariant.destroy (hI : SubscriptionsInvariant parser p) (hcount : Counted p)
    (hc : p.connectors sub = some c)
    (hun : Unnoticed parser (p.dropClient c.dbClient) (some c) none)
    (hanswer : ∀ id, a.unobserve id = true) :
    SubscriptionsInvariant parser (p.destroy a sub c) := by
  have hclients : ∀ s x', (p.destroy a sub c).dbClients s = some x' → ∃ x,
      (p.dropClient c.dbClient).dbClients s = some x ∧ p.dbClients s = some x ∧
        x' = x.subscriberDestroyed a.unobserve sub := by
    intro s x' hx'
    obtain ⟨x, hx, rfl⟩ := Option.map_eq_some_iff.mp hx'
    refine ⟨x, hx, ?_, rfl⟩
    rw [dbClients_dropClient] at hx
    split at hx
    · cases hx
    · exact hx
  have hconnectors : (p.destroy a sub c).connectors = Function.update p.connectors sub none := by
    rw [Process.destroy]
    simp
  refine ⟨fun sub' c' hc' => ?_, fun s x' hx' id => ?_, fun s x' hx' id info => ?_⟩
  · rw [hconnectors, Function.update_apply] at hc'
    split at hc'
    · cases hc'
    · rename_i hne
      obtain ⟨hvalid, hserver, hclient⟩ := hI.connector sub' c' hc'
      refine ⟨hvalid, hserver, fun s hs => ?_⟩
      rw [Process.destroy]
      simp only [Option.isSome_map]
      rw [dbClients_dropClient, if_neg]
      · exact hclient s hs
      · rintro ⟨hs', hle⟩
        exact hne (hcount.eq_of_dropped hc hs' hle hc' hs)
  · obtain ⟨x, -, hx, rfl⟩ := hclients s x' hx'
    have htable := hI.tables s x hx id
    simp only [QDocdbClient.subscriberDestroyed, hanswer, and_true]
    by_cases hsub : x.subs id = some sub
    · simp [hsub]
    · rw [if_neg hsub, if_neg hsub]
      exact htable
  · obtain ⟨x, hdrop, hx, rfl⟩ := hclients s x' hx'
    have hentry := hI.entries s x hx id info
    have htable := hI.tables s x hx id
    have hright : Subscribed parser (p.destroy a sub c) s id info ↔
        info.sub ≠ sub ∧ Subscribed parser p s id info := by
      rw [Subscribed, hconnectors]
      by_cases hsub : info.sub = sub
      · simp [hsub]
      · simp [hsub, Subscribed]
    rw [hright, ← hentry]
    simp only [QDocdbClient.subscriberDestroyed, hanswer, and_true]
    cases hconnected : x.connected with
    | true =>
      rw [hconnected, if_pos rfl] at htable
      by_cases hsub : x.subs id = some sub
      · rw [if_pos hsub]
        obtain ⟨info', hinfo', hsub'⟩ := Option.map_eq_some_iff.mp (htable.symm.trans hsub)
        refine iff_of_false (by simp) ?_
        rintro ⟨hne, hinfo⟩
        rw [hinfo] at hinfo'
        obtain rfl := Option.some.inj hinfo'
        exact hne hsub'
      · rw [if_neg hsub]
        refine ⟨fun h => ⟨?_, h⟩, fun h => h.2⟩
        rintro rfl
        exact hsub (by rw [htable, h, Option.map_some])
    | false =>
      -- without a connection nothing is removed, and the connector has no entry
      rw [hconnected] at htable
      simp only [Bool.false_eq_true, if_false] at htable
      simp only [htable, reduceCtorEq, if_false]
      refine ⟨fun h => ⟨?_, h⟩, fun h => h.2⟩
      rintro rfl
      obtain ⟨c', hc', -, hw⟩ := hentry.mp h
      obtain rfl := Option.some.inj (hc.symm.trans hc')
      have hfrom := hun s x hdrop hconnected
      simp [wantedFrom, hw, ObserverInfo.subscription, Option.filter_some] at hfrom

/-! ## Losing and restoring a connection -/

/-- A client whose connection changes keeps its entries. -/
theorem SubscriptionsInvariant.setClient (hI : SubscriptionsInvariant parser p) {s : QString}
    {x y : QDocdbClient} (hx : p.dbClients s = some x) (hinfo : y.observerInfo = x.observerInfo)
    (hsubs : ∀ id, y.subs id =
      if y.connected then (y.observerInfo id).map ObserverInfo.sub else none) :
    SubscriptionsInvariant parser (p.setClient s y) where
  connector sub c hc := (hI.connector sub c hc).mono fun _ => isSome_dbClients_setClient
  tables s' x' hx' := by
    rcases dbClients_setClient hx' with ⟨rfl, rfl⟩ | ⟨-, hx'⟩
    · exact hsubs
    · exact hI.tables s' x' hx'
  entries s' x' hx' id info := by
    rcases dbClients_setClient hx' with ⟨rfl, rfl⟩ | ⟨-, hx'⟩
    · rw [hinfo]
      exact hI.entries s' x hx id info
    · exact hI.entries s' x' hx' id info

/-- **Reconnecting** restores exactly the entries of `observerInfo`. -/
theorem SubscriptionsInvariant.onConnectTimer (hI : SubscriptionsInvariant parser p) {s : QString}
    {x : QDocdbClient} (hx : p.dbClients s = some x) (hlost : x.connected = false) :
    SubscriptionsInvariant parser (p.setClient s x.onConnectTimer) := by
  refine hI.setClient hx rfl fun id => ?_
  have htable := hI.tables s x hx id
  rw [hlost, if_neg (by decide)] at htable
  simp only [QDocdbClient.onConnectTimer, if_true]
  cases x.observerInfo id with
  | none => exact htable
  | some info => rfl

/-! ## Runs -/

theorem serverOf_nil : parser.serverOf [] = none :=
  serverOf_eq_none (by rw [parser.scheme_nil]; decide)

/-- A connector that was just created. -/
theorem SubscriptionsInvariant.created (hI : SubscriptionsInvariant parser p)
    (hcount : Counted p) (hnew : p.connectors sub = none) (hurl : c.url = [])
    (hvalid : c.urlValid = false) (hclient : c.dbClient = none) :
    SubscriptionsInvariant parser (p.setConnector sub c) ∧ Counted (p.setConnector sub c) := by
  refine ⟨hI.setConnector_of_none ⟨?_, fun s hs => ?_, fun s hs => ?_⟩ ?_ fun c' hc' => ?_,
    hcount.of_same rfl (by rw [hnew, hclient]; rfl) rfl⟩
  · rw [hvalid, hurl, serverOf_nil]
    rfl
  · rw [hurl, serverOf_nil] at hs
    cases hs
  · rw [hclient] at hs
    cases hs
  · simp [QDocdbConnector.wanted, hurl, serverOf_nil]
  · rw [hnew] at hc'
    cases hc'

/-- **setUrl**, whatever the scheme. -/
theorem SubscriptionsInvariant.setUrl (hI : SubscriptionsInvariant parser p)
    (hc : p.connectors sub = some c) {url : QString}
    (hstep : c.url ≠ url → Unnoticed parser p (some c) (some { c with url := url }) ∧
      OwnId p sub c ∧ ((parser.parse url).scheme = qs "qdocdb" ∨ c.urlValid = false))
    (hgood : a.Good p (parser.serverOf url)) :
    SubscriptionsInvariant parser (p.setUrl parser a sub c url) := by
  by_cases hne : c.url = url
  · rw [Process.setUrl, if_pos hne]
    exact hI
  · obtain ⟨hun, hown, hscheme⟩ := hstep hne
    by_cases hright : (parser.parse url).scheme = qs "qdocdb"
    · exact hI.setUrl_of_scheme hc hne hright hun hown hgood
    · -- a url of another scheme changes nothing when the old one was not valid either
      have hok := hI.connector sub c hc
      have hinvalid := hscheme.resolve_left hright
      have hold : parser.serverOf c.url = none := by
        rw [← Option.not_isSome_iff_eq_none, ← hok.urlValid, hinvalid]
        simp
      have hnew := serverOf_eq_none hright
      rw [Process.setUrl, if_neg hne]
      simp only [ne_eq, hright, not_false_eq_true, if_true]
      refine hI.setConnector_of_none ⟨?_, fun s hs => ?_, hok.client⟩ ?_ fun c' hc' => ?_
      · rw [hinvalid, hnew]
        rfl
      · rw [hnew] at hs
        cases hs
      · simp [QDocdbConnector.wanted, hnew]
      · obtain rfl := Option.some.inj (hc.symm.trans hc')
        simp [QDocdbConnector.wanted, hold]

theorem bind_dbClient_of_some (hc : p.connectors sub = some c) :
    (p.connectors sub).bind (·.dbClient) = c.dbClient := by
  rw [hc, Option.bind_some]

/-- A connector that was created with a url. -/
theorem SubscriptionsInvariant.constructed (hI : SubscriptionsInvariant parser p)
    (hcount : Counted p) (hnew : p.connectors sub = none) {url : QString}
    (hc : c.url = []) (hvalid : c.urlValid = false) (hclient : c.dbClient = none)
    (hun : Unnoticed parser p none (some { c with url := url }))
    (hgood : a.Good p (parser.serverOf url)) :
    SubscriptionsInvariant parser ((p.setConnector sub c).setUrl parser a sub c url) ∧
      Counted ((p.setConnector sub c).setUrl parser a sub c url) := by
  obtain ⟨hI', hcount'⟩ := hI.created hcount hnew hc hvalid hclient
  have hplace : (p.setConnector sub c).connectors sub = some c := Function.update_self ..
  refine ⟨hI'.setUrl hplace (fun _ => ⟨fun s x hx hlost => ?_, fun s x info hs => ?_, .inr hvalid⟩)
    hgood, hcount'.setUrl hplace hgood.1 url⟩
  · -- without a url it wants nothing
    have hnone : wantedFrom parser s (some c) = wantedFrom parser s none := by
      simp [wantedFrom, QDocdbConnector.wanted, hc, serverOf_nil]
    rw [hnone]
    exact hun s x hx hlost
  · rw [hclient] at hs
    cases hs

/-- A connector whose construction is finished, or that becomes observable. -/
theorem SubscriptionsInvariant.subscribe (hI : SubscriptionsInvariant parser p)
    (hcount : Counted p) (hc : p.connectors sub = some c) (hnone : c.wanted parser = none)
    (hok : ConnectorOk parser p c') (hclient : c'.dbClient = c.dbClient)
    (hun : Unnoticed parser p (some c) (some c')) (hgood : a.Good p c.dbClient) :
    SubscriptionsInvariant parser (p.observeAs a sub c') ∧ Counted (p.observeAs a sub c') := by
  refine ⟨hI.observeAs_of_none hok (fun c₀ hc₀ => ?_) (hc ▸ hun) (hclient ▸ hgood),
    hcount.observeAs ?_⟩
  · obtain rfl := Option.some.inj (hc.symm.trans hc₀)
    exact hnone
  · rw [bind_dbClient_of_some hc, hclient]

/-- A connector that asks for something else. -/
theorem SubscriptionsInvariant.change (hI : SubscriptionsInvariant parser p)
    (hcount : Counted p) (hc : p.connectors sub = some c) (hsame : SameClient c c')
    (hun : Unnoticed parser p (some c) (some c')) (hown : OwnId p sub c)
    (hgood : a.Good p c.dbClient) :
    SubscriptionsInvariant parser ((p.unobserve a c).observeAs a sub c') ∧
      Counted ((p.unobserve a c).observeAs a sub c') :=
  ⟨hI.resubscribe hc hsame hun hown hgood, hcount.unobserve.observeAs
    (by rw [connectors_unobserve, bind_dbClient_of_some hc, hsame.dbClient])⟩

theorem SubscriptionsInvariant.setObservable (hI : SubscriptionsInvariant parser p)
    (hcount : Counted p) (hc : p.connectors sub = some c) (observable : Bool)
    (hstep : c.observable ≠ observable →
      Unnoticed parser p (some c) (some { c with observable := observable }) ∧
        (observable = false → OwnId p sub c))
    (hgood : a.Good p c.dbClient) :
    SubscriptionsInvariant parser (p.setObservable a sub c observable) ∧
      Counted (p.setObservable a sub c observable) := by
  rw [Process.setObservable]
  split
  · exact ⟨hI, hcount⟩
  · rename_i hne
    obtain ⟨hun, hown⟩ := hstep hne
    have hsame : SameClient c { c with observable := observable } := ⟨rfl, rfl, rfl, rfl, rfl⟩
    cases observable with
    | true =>
      refine hI.subscribe hcount hc ?_ ((hI.connector sub c hc).of_sameClient hsame) rfl hun hgood
      simp [QDocdbConnector.wanted, Bool.eq_false_iff.mpr hne]
    | false =>
      have hresult := hI.resubscribe hc hsame hun (hown rfl) hgood
      rw [observeAs_of_not (by simp)] at hresult
      exact ⟨hresult, hcount.unobserve.of_same rfl
        (by rw [connectors_unobserve, bind_dbClient_of_some hc]) rfl⟩

/-- **Step**: every event that is in step keeps the invariant. -/
theorem SubscriptionsInvariant.handle {e : ConnectorEvent} (hI : SubscriptionsInvariant parser p)
    (hcount : Counted p) (hanswered : Answered parser p e) (hstep : InStep parser p e)
    (h : p.handle parser e = some p') : SubscriptionsInvariant parser p' ∧ Counted p' := by
  cases e with
  | created sub =>
    rw [Process.handle] at h
    split at h
    · rename_i hnew
      obtain rfl := Option.some.inj h
      exact hI.created hcount hnew rfl rfl rfl
    · cases h
  | constructed sub url query queryOptions a =>
    rw [Process.handle] at h
    split at h
    · rename_i hnew
      obtain rfl := Option.some.inj h
      exact hI.constructed hcount hnew rfl rfl rfl hstep hanswered
    · cases h
  | componentComplete sub a =>
    obtain ⟨c, hc, h⟩ := Option.bind_eq_some_iff.mp h
    split at h
    · cases h
    · rename_i hinit
      obtain rfl := Option.some.inj h
      obtain ⟨hvalid, hserver, hclient⟩ := hI.connector sub c hc
      refine hI.subscribe hcount hc ?_ ⟨hvalid, hserver, hclient⟩ rfl (hstep c hc) (hanswered c hc)
      simp [QDocdbConnector.wanted, hinit]
  | setUrl sub url a =>
    obtain ⟨c, hc, rfl⟩ := Option.map_eq_some_iff.mp h
    exact ⟨hI.setUrl hc (hstep c hc) hanswered, hcount.setUrl hc hanswered.1 url⟩
  | setQuery sub query a =>
    obtain ⟨c, hc, rfl⟩ := Option.map_eq_some_iff.mp h
    rw [Process.setQuery]
    split
    · exact ⟨hI, hcount⟩
    · rename_i hne
      obtain ⟨hun, hown⟩ := hstep c hc (Bool.eq_false_iff.mpr hne)
      exact hI.change hcount hc ⟨rfl, rfl, rfl, rfl, rfl⟩ hun hown (hanswered c hc)
  | setQueryOptions sub queryOptions a =>
    obtain ⟨c, hc, rfl⟩ := Option.map_eq_some_iff.mp h
    rw [Process.setQueryOptions]
    split
    · exact ⟨hI, hcount⟩
    · rename_i hne
      obtain ⟨hun, hown⟩ := hstep c hc (Bool.eq_false_iff.mpr hne)
      exact hI.change hcount hc ⟨rfl, rfl, rfl, rfl, rfl⟩ hun hown (hanswered c hc)
  | setObservable sub observable a =>
    obtain ⟨c, hc, rfl⟩ := Option.map_eq_some_iff.mp h
    exact hI.setObservable hcount hc observable (hstep c hc) (hanswered c hc)
  | destroyed sub a =>
    obtain ⟨c, hc, rfl⟩ := Option.map_eq_some_iff.mp h
    exact ⟨hI.destroy hcount hc (hstep c hc) (hanswered c hc).2.1, hcount.destroy hc⟩
  | clientRemoved serverName =>
    obtain ⟨x, hx, h⟩ := Option.bind_eq_some_iff.mp h
    split at h
    · obtain rfl := Option.some.inj h
      exact ⟨hI.setClient hx rfl fun id => rfl, hcount⟩
    · cases h
  | reconnected serverName =>
    obtain ⟨x, hx, h⟩ := Option.bind_eq_some_iff.mp h
    split at h
    · cases h
    · rename_i hlost
      obtain rfl := Option.some.inj h
      exact ⟨hI.onConnectTimer hx (Bool.eq_false_iff.mpr hlost), hcount⟩

/-- **Every subscription is live and current** in any run in which the servers answer and
nothing that is wanted changes while a connection is lost. -/
theorem live_of_reachable
    (h : ProcessReachable parser (fun p e => Answered parser p e ∧ InStep parser p e) p) :
    Live parser p := by
  have hinv : SubscriptionsInvariant parser p ∧ Counted p := by
    induction h with
    | started =>
      refine ⟨⟨fun _ _ h => (by cases h), fun _ _ h => (by cases h), fun _ _ h => (by cases h)⟩,
        fun s => ?_⟩
      have hempty : Process.init.users s = ∅ := by
        ext sub
        simp [mem_users, Process.init]
      rw [hempty]
      exact ⟨Set.finite_empty, by simp [Process.init]⟩
    | handled _ hok hs ih => exact ih.1.handle ih.2 hok.1 hok.2 hs
  exact hinv.1.live

/-- The url of the collection `c` in the database `D` of the server `s`. -/
def urlC : QString := qs "qdocdb://s/D?collection=c"

/-- What `QUrl` reads from that url. -/
def parserC : UrlParser where
  parse text :=
    if text = urlC then
      ⟨qs "qdocdb", qs "s", ⟨qs "/D", some [(qs "collection", qs "c")]⟩⟩
    else ⟨[], [], ⟨[], none⟩⟩
  scheme_nil := by decide

/-- A server that accepts everything and returns the id `1`. -/
def answersOne : Answers := ⟨true, fun _ => true, some 1⟩

/-- A connector for everything in the collection. -/
def constructedC : ConnectorEvent := .constructed 1 urlC [] [] answersOne

/-- The connector is subscribed. -/
def subscribedC : Process := (Process.init.handle parserC constructedC).getD .init

/-- The connection is lost. -/
def lostC : Process := (subscribedC.handle parserC (.clientRemoved (qs "s"))).getD .init

theorem answered_constructedC : Answered parserC .init constructedC :=
  ⟨rfl, fun _ => rfl, 1, rfl, fun _ _ _ h => by cases h⟩

/-- The connection is lost and restored. -/
theorem live_reconnected :
    ∃ p, lostC.handle parserC (.reconnected (qs "s")) = some p ∧ Live parserC p := by
  have hsubscribed : ProcessReachable parserC
      (fun p e => Answered parserC p e ∧ InStep parserC p e) subscribedC :=
    .handled .started ⟨answered_constructedC, fun _ _ h => by cases h⟩ rfl
  have hlost : ProcessReachable parserC
      (fun p e => Answered parserC p e ∧ InStep parserC p e) lostC :=
    .handled (e := .clientRemoved (qs "s")) hsubscribed ⟨trivial, trivial⟩ rfl
  exact ⟨_, rfl, live_of_reachable
    (.handled (e := .reconnected (qs "s")) hlost ⟨trivial, trivial⟩ rfl)⟩

/-- The query of a connector changes while the connection is lost. -/
theorem not_live :
    ¬ ∀ (parser : UrlParser) (p : Process), ProcessReachable parser (Answered parser) p →
      Live parser p := by
  intro h
  let changed : ConnectorEvent := .setQuery 1 [(qs "n", .null)] { answersOne with observe := some 2 }
  have hlost : ProcessReachable parserC (Answered parserC) lostC :=
    .handled (e := .clientRemoved (qs "s")) (.handled .started answered_constructedC rfl) trivial rfl
  have hanswered : Answered parserC lostC changed := by
    intro c hc
    refine ⟨rfl, fun _ => rfl, 2, rfl, fun s x hs hx => ?_⟩
    obtain rfl := Option.some.inj hc
    obtain rfl := Option.some.inj hs
    obtain rfl := Option.some.inj hx
    rfl
  obtain ⟨p, hp⟩ : ∃ p, lostC.handle parserC changed = some p := ⟨_, rfl⟩
  obtain ⟨p', hp'⟩ : ∃ p', p.handle parserC (.reconnected (qs "s")) = some p' := by
    obtain rfl := Option.some.inj hp
    exact ⟨_, rfl⟩
  have hlive := h parserC p'
    (.handled (e := .reconnected (qs "s")) (.handled hlost hanswered hp) trivial hp')
  obtain rfl := Option.some.inj hp
  obtain rfl := Option.some.inj hp'
  obtain ⟨c, hc, hw⟩ := hlive.current (qs "s") _ rfl rfl 1 ⟨1, urlC, [], []⟩ rfl
  obtain rfl := Option.some.inj hc
  have hquery := (wanted_eq_some_iff.mp hw).2.2.2.2.1
  cases hquery

end Qdocdb
