import Qdocdb.Connectors

/-!
# Calls that wait for their replies

A method of `QDocdbClient` sends a link object and waits for the reply in an event loop of its
own. The loop handles whatever happens meanwhile: replies to other calls, timers, a lost
connection, and also further calls, which then wait inside the first one. So a client is in
the middle of a stack of calls, and a call returns only when it is the innermost one.

`activeQueries` and `replies` lead from the id of a link object to the waiting call and to its
reply. A reply stays behind when its call returns, because the method still reads it, and a
posted event destroys it later. As long as a new id is not in use, no call finds its reply
missing, and nothing is left when everything has returned (`callsSound_of_reachable`).
-/

namespace Qdocdb

/-- A call of `sendAndWaitReply` that has not returned. -/
structure WaitingCall where
  linkObject : QDocdbLinkObject
  /-- the connection on which it was sent -/
  link : ClientId
  /-- what `observe` is going to register -/
  info : Option ObserverInfo
  /-- `timer.isActive()` in `waitForDone` -/
  timerActive : Bool
  /-- `loop.quit()` was called in `waitForDone` -/
  quit : Bool

/-- What the stack of a client consists of. -/
inductive Frame where
  | call (call : WaitingCall)
  /-- the loop of `observeDataProcess` -/
  | observeDataProcess

namespace Frame

/-- The call of a frame. -/
def call? : Frame → Option WaitingCall
  | call w => some w
  | observeDataProcess => none

/-- Change the call of a frame. -/
def map (f : WaitingCall → WaitingCall) : Frame → Frame
  | call w => .call (f w)
  | observeDataProcess => .observeDataProcess

end Frame

/-- The queued calls of `invokeMethod`. -/
inductive Posted where
  | destroyReply (id : ℤ)
  | observeDataProcess
  deriving DecidableEq

/-- The state of a `QDocdbClient` in which calls wait. A `QMap` is a partial function, and a link
object that waits is named by its place among the link objects of the client. -/
structure CallState where
  /-- `subs` and `observerInfo` -/
  tables : QDocdbClient
  /-- the connection, unless it is `NULL` -/
  client : Option ClientId
  nextFId : ℤ
  activeQueries : ℤ → Option ℕ
  replies : ℤ → Option Reply
  observeData : List (ℤ × List QJsonValue)
  observeDataLock : Bool
  lastError : QString
  /-- the stack, with the innermost frame in front -/
  frames : List Frame
  /-- the events that were posted and not handled yet -/
  posted : List Posted
  /-- how many link objects there were so far -/
  made : ℕ
  /-- the calls that returned so far, each with its reply, if there was one in time -/
  returned : List (WaitingCall × Option Reply)
  /-- the data that was handed out so far, with the subscriber -/
  notified : List (Option ObjectId × ℤ × List QJsonValue)

/-- What an application asks of a client. -/
structure Asked where
  /-- the url as it is given, and what `QUrl` reads from it -/
  urlText : QString
  url : Url
  snapshot : QString
  type : LinkObjectType
  /-- the subscriber of `observe` -/
  sub : ObjectId

/-- What `observe` is going to register; nothing for the other methods. -/
def Asked.info (asked : Asked) : Option ObserverInfo :=
  match asked.type with
  | .observe query queryOptions _ => some ⟨asked.sub, asked.urlText, query, queryOptions⟩
  | _ => none

namespace CallState

/-- A client. The constructor leaves `observeDataLock` unset. -/
def new (observeDataLock : Bool) : CallState where
  tables := ⟨false, fun _ => none, fun _ => none⟩
  client := none
  nextFId := 1
  activeQueries := fun _ => none
  replies := fun _ => none
  observeData := []
  observeDataLock := observeDataLock
  lastError := []
  frames := []
  posted := []
  made := 0
  returned := []
  notified := []

/-- The calls on the stack. -/
def calls (c : CallState) : List WaitingCall := c.frames.filterMap Frame.call?

/-- An event loop runs, inside the innermost call or outside of all calls. -/
def looping (c : CallState) : Bool :=
  match c.frames with
  | .observeDataProcess :: _ => false
  | _ => true

/-- `connectToServer`, when it succeeds. -/
def connect (c : CallState) (link : ClientId) : CallState :=
  { c with client := some link, tables := { c.tables with connected := true } }

/-- `newLinkObject`, with the fields that the method sets. -/
def newLinkObject (c : CallState) (asked : Asked) : QDocdbLinkObject :=
  ⟨c.nextFId, c.made, asked.url, asked.snapshot, asked.type⟩

/-- `sendAndWaitReply` up to the event loop, on the connection `link`. Only `observe` locks the
data of observers in front of it. -/
def sendAndWaitReply (c : CallState) (link : ClientId) (asked : Asked) : CallState :=
  { c with
    nextFId := int32 (c.nextFId + 1)
    made := c.made + 1
    activeQueries := Function.update c.activeQueries c.nextFId (some c.made)
    observeDataLock := c.observeDataLock || asked.info.isSome
    frames := .call ⟨c.newLinkObject asked, link, asked.info, true, false⟩ :: c.frames }

/-- `QDocdbClient::receive` -/
def receive (c : CallState) : Message → CallState
  | .observeData observeId reply =>
    { c with
      observeData := c.observeData ++ [(observeId, reply)]
      posted := c.posted ++ [.observeDataProcess] }
  | .reply linkObject reply =>
    match c.activeQueries linkObject.id with
    | some n =>
      { c with
        replies := Function.update c.replies linkObject.id (some reply)
        frames := c.frames.map (Frame.map fun w =>
          if w.linkObject.serial = n then { w with quit := true } else w) }
    | none => c

/-- The timer of a waiting link object runs out. -/
def timeout (c : CallState) (n : ℕ) : CallState :=
  { c with
    frames := c.frames.map (Frame.map fun w =>
      if w.linkObject.serial = n then { w with timerActive := false, quit := true } else w) }

/-- The reply of a canceled query. -/
def canceled (reply : Option Reply) : Reply :=
  { reply.getD (.ofError []) with error := qs "canceled" }

/-- `cancelAllActiveQueries` -/
def cancelAllActiveQueries (c : CallState) : CallState :=
  { c with
    replies := fun id =>
      if (c.activeQueries id).isSome then some (canceled (c.replies id)) else c.replies id
    frames := c.frames.map (Frame.map fun w =>
      if c.activeQueries w.linkObject.id = some w.linkObject.serial then { w with quit := true }
      else w) }

/-- `QDocdbClient::clientRemoved` -/
def clientRemoved (c : CallState) : CallState :=
  { c.cancelAllActiveQueries with client := none, tables := c.tables.clientRemoved }

/-- The number in the reply to `observe`. -/
def observeId : ReplyValue → ℤ
  | .observeReply id => id
  | _ => 0

/-- What `observe` and `unobserve` do behind the event loop; the other methods only hand out the
value of the reply. -/
def finish (c : CallState) (w : WaitingCall) (reply : Option Reply) : CallState :=
  let success := decide (QDocdbClient.sendAndWaitReply reply = .success)
  match w.info, w.linkObject.type with
  | some info, _ =>
    match reply, success with
    | some reply, true =>
      { c with
        tables := (c.tables.observe (some (observeId reply.value)) info).2
        observeDataLock := false
        posted := c.posted ++ [.observeDataProcess] }
    | _, _ => { c with observeDataLock := false }
  | none, .unobserve observeId =>
    { c with tables := c.tables.unobserve success observeId }
  | none, _ => c

/-- The reply that `sendAndWaitReply` finds behind its event loop, if the timer did not run out
first; nothing when it is missing, which is a `NULL` pointer that is read. -/
def findReply (c : CallState) (w : WaitingCall) : Option (Option Reply) :=
  if w.timerActive then (c.replies w.linkObject.id).map some else some none

/-- `sendAndWaitReply` behind its event loop, and the method that called it. -/
def finishCall (c : CallState) (w : WaitingCall) (reply : Option Reply) (frames : List Frame) :
    CallState :=
  let c : CallState :=
    { c with
      frames := frames
      activeQueries := Function.update c.activeQueries w.linkObject.id none
      posted := c.posted ++ [.destroyReply w.linkObject.id]
      lastError := match reply with
        | none => qs "Error: Timeout waiting reply"
        | some reply => if reply.error ≠ [] then reply.error else c.lastError
      returned := c.returned ++ [(w, reply)] }
  c.finish w reply

/-- The innermost call returns, when its event loop has ended. -/
def returns (c : CallState) : Option CallState :=
  match c.frames with
  | .call w :: frames =>
    if w.quit then (c.findReply w).map fun reply => c.finishCall w reply frames else none
  | _ => none

/-- The oldest posted event is handled. -/
def handlePosted (c : CallState) : Option CallState :=
  match c.posted with
  | .destroyReply id :: posted =>
    some { c with posted := posted, replies := Function.update c.replies id none }
  | .observeDataProcess :: posted =>
    if c.observeDataLock then some { c with posted := posted }
    else some { c with posted := posted, frames := .observeDataProcess :: c.frames }
  | [] => none

/-- A round of the loop of `observeDataProcess`. The subscriber may do anything meanwhile. -/
def observeDataRound (c : CallState) : Option CallState :=
  match c.frames, c.observeData with
  | .observeDataProcess :: frames, [] => some { c with frames := frames }
  | .observeDataProcess :: _, (observeId, reply) :: observeData =>
    some { c with
      observeData := observeData
      notified := c.notified ++ [(c.tables.subs observeId, observeId, reply)] }
  | _, _ => none

end CallState

/-- What a client does next. -/
inductive CallEvent where
  /-- `connectToServer` succeeds -/
  | connected (link : ClientId)
  /-- the application calls a method -/
  | called (asked : Asked)
  /-- `readyRead` has read a message of the server -/
  | received (message : Message)
  /-- the timer of a link object runs out -/
  | timeout (n : ℕ)
  /-- the event loop of the innermost call ends -/
  | returned
  /-- the oldest posted event is handled -/
  | posted
  /-- a round of the loop of `observeDataProcess` -/
  | observeDataRound
  /-- the socket is gone -/
  | clientRemoved

/-- Do something; nothing when it cannot happen, or when a `NULL` pointer is read. -/
def CallState.handle (c : CallState) : CallEvent → Option CallState
  | .connected link => if c.client = none then some (c.connect link) else none
  | .called asked => c.client.map fun link => c.sendAndWaitReply link asked
  | .received message => if c.client ≠ none ∧ c.looping then some (c.receive message) else none
  | .timeout n =>
    if c.looping ∧ ∃ w ∈ c.calls, w.linkObject.serial = n ∧ w.timerActive then
      some (c.timeout n)
    else none
  | .returned => c.returns
  | .posted => if c.looping then c.handlePosted else none
  | .observeDataRound => c.observeDataRound
  | .clientRemoved => if c.client ≠ none ∧ c.looping then some c.clientRemoved else none

/-- Everything that a client reaches from its start, when `ok` allows what it does. -/
inductive CallsReachable (ok : CallState → CallEvent → Prop) : CallState → Prop
  | started (observeDataLock : Bool) : CallsReachable ok (.new observeDataLock)
  | handled {c c' : CallState} {e : CallEvent} :
    CallsReachable ok c → ok c e → c.handle e = some c' → CallsReachable ok c'

namespace CallState

variable {c c' : CallState} {e : CallEvent} {asked : Asked} {link : ClientId} {w : WaitingCall}

/-! ## The calls on the stack -/

theorem filterMap_map_call? (f : WaitingCall → WaitingCall) (frames : List Frame) :
    (frames.map (Frame.map f)).filterMap Frame.call? = (frames.filterMap Frame.call?).map f := by
  induction frames with
  | nil => rfl
  | cons frame frames ih =>
    cases frame with
    | call w => exact congrArg (f w :: ·) ih
    | observeDataProcess => exact ih

@[simp] theorem calls_sendAndWaitReply : (c.sendAndWaitReply link asked).calls =
    ⟨c.newLinkObject asked, link, asked.info, true, false⟩ :: c.calls := rfl

@[simp] theorem calls_timeout (n : ℕ) : (c.timeout n).calls = c.calls.map fun w =>
    if w.linkObject.serial = n then { w with timerActive := false, quit := true } else w :=
  filterMap_map_call? _ _

@[simp] theorem calls_clientRemoved : c.clientRemoved.calls = c.calls.map fun w =>
    if c.activeQueries w.linkObject.id = some w.linkObject.serial then { w with quit := true }
    else w :=
  filterMap_map_call? _ _

section Receive

variable {o : QDocdbLinkObject} {r : Reply} {n : ℕ} (hn : c.activeQueries o.id = some n)
include hn

theorem calls_receive_reply : (c.receive (.reply o r)).calls = c.calls.map fun w =>
    if w.linkObject.serial = n then { w with quit := true } else w := by
  rw [receive, hn]
  exact filterMap_map_call? _ _

theorem replies_receive_reply :
    (c.receive (.reply o r)).replies = Function.update c.replies o.id (some r) := by
  rw [receive, hn]

end Receive

/-- What `observe` and `unobserve` do does not touch the queries. -/
theorem exists_finish_eq (c : CallState) (w : WaitingCall) (reply : Option Reply) :
    ∃ tables observeDataLock posted, c.finish w reply = { c with
      tables := tables
      observeDataLock := observeDataLock
      posted := c.posted ++ posted } ∧ ∀ id, .destroyReply id ∉ posted := by
  rw [finish]
  split
  · split
    · exact ⟨_, _, [.observeDataProcess], rfl, fun id h => by cases List.mem_singleton.mp h⟩
    · exact ⟨_, _, [], by rw [List.append_nil], fun id => List.not_mem_nil⟩
  · exact ⟨_, _, [], by rw [List.append_nil], fun id => List.not_mem_nil⟩
  · exact ⟨_, _, [], by rw [List.append_nil], fun id => List.not_mem_nil⟩

/-! ## What a client does -/

/-- The calls, the queries and the replies stay as they are. -/
structure SameCalls (c c' : CallState) : Prop where
  client : c'.client = c.client
  nextFId : c'.nextFId = c.nextFId
  made : c'.made = c.made
  activeQueries : c'.activeQueries = c.activeQueries
  replies : c'.replies = c.replies
  calls : c'.calls = c.calls
  returned : c'.returned = c.returned
  posted : ∀ id, .destroyReply id ∈ c'.posted ↔ .destroyReply id ∈ c.posted

/-- The innermost call `w` has returned. -/
structure CallReturned (c : CallState) (w : WaitingCall) (reply : Option Reply) (c' : CallState) :
    Prop where
  calls : c.calls = w :: c'.calls
  quit : w.quit = true
  found : c.findReply w = some reply
  client : c'.client = c.client
  nextFId : c'.nextFId = c.nextFId
  made : c'.made = c.made
  activeQueries : c'.activeQueries = Function.update c.activeQueries w.linkObject.id none
  replies : c'.replies = c.replies
  returned : c'.returned = c.returned ++ [(w, reply)]
  posted : ∀ id, .destroyReply id ∈ c'.posted ↔
    .destroyReply id ∈ c.posted ∨ id = w.linkObject.id

/-- **The cases of `handle`**: what each event does to calls, queries and replies. -/
inductive Handled (c : CallState) : CallEvent → CallState → Prop
  | connected {link : ClientId} (h : c.client = none) :
    Handled c (.connected link) (c.connect link)
  | called {link : ClientId} {asked : Asked} (h : c.client = some link) :
    Handled c (.called asked) (c.sendAndWaitReply link asked)
  | replied {linkObject : QDocdbLinkObject} {reply : Reply} {n : ℕ}
    (h : c.activeQueries linkObject.id = some n) :
    Handled c (.received (.reply linkObject reply)) (c.receive (.reply linkObject reply))
  | timeout {n : ℕ} : Handled c (.timeout n) (c.timeout n)
  | returned {w : WaitingCall} {reply : Option Reply} {c' : CallState}
    (h : CallReturned c w reply c') : Handled c .returned c'
  | destroyed {id : ℤ} {posted : List Posted} (h : c.posted = .destroyReply id :: posted) :
    Handled c .posted { c with posted := posted, replies := Function.update c.replies id none }
  | clientRemoved : Handled c .clientRemoved c.clientRemoved
  | same {e : CallEvent} {c' : CallState} (h : SameCalls c c')
    (hreply : ∀ o r, e = .received (.reply o r) → c.activeQueries o.id = none) : Handled c e c'

theorem SameCalls.refl (c : CallState) : SameCalls c c :=
  ⟨rfl, rfl, rfl, rfl, rfl, rfl, rfl, fun _ => Iff.rfl⟩

theorem callReturned_of_returns (h : c.returns = some c') :
    ∃ w reply, CallReturned c w reply c' := by
  rw [returns] at h
  split at h
  · rename_i w frames hframes
    split at h
    · rename_i hquit
      obtain ⟨reply, hreply, rfl⟩ := Option.map_eq_some_iff.mp h
      refine ⟨w, reply, ?_⟩
      change CallReturned c w reply (finish _ w reply)
      obtain ⟨tables, observeDataLock, posted, heq, hnone⟩ := exists_finish_eq _ w reply
      rw [heq]
      refine ⟨?_, hquit, hreply, rfl, rfl, rfl, rfl, rfl, rfl, fun id => ?_⟩
      · rw [calls, hframes]
        rfl
      · simp [hnone]
    · cases h
  · cases h

theorem sameCalls_observeDataRound (h : c.observeDataRound = some c') : SameCalls c c' := by
  rw [observeDataRound] at h
  split at h
  · rename_i frames hframes _
    obtain rfl := Option.some.inj h
    refine ⟨rfl, rfl, rfl, rfl, rfl, ?_, rfl, fun _ => Iff.rfl⟩
    rw [calls, calls, hframes]
    rfl
  · obtain rfl := Option.some.inj h
    exact ⟨rfl, rfl, rfl, rfl, rfl, rfl, rfl, fun _ => Iff.rfl⟩
  · cases h

theorem handled_of_handlePosted (h : c.handlePosted = some c') : Handled c .posted c' := by
  rw [handlePosted] at h
  split at h
  · rename_i id posted hposted
    obtain rfl := Option.some.inj h
    exact .destroyed hposted
  · rename_i posted hposted
    have hmem : ∀ id, .destroyReply id ∈ posted ↔ .destroyReply id ∈ c.posted := by
      intro id
      rw [hposted]
      simp
    split at h
    · obtain rfl := Option.some.inj h
      exact .same ⟨rfl, rfl, rfl, rfl, rfl, rfl, rfl, hmem⟩ fun _ _ h => nomatch h
    · obtain rfl := Option.some.inj h
      exact .same ⟨rfl, rfl, rfl, rfl, rfl, rfl, rfl, hmem⟩ fun _ _ h => nomatch h
  · cases h

theorem handled_of_handle (h : c.handle e = some c') : Handled c e c' := by
  cases e with
  | connected link =>
    rw [handle] at h
    split at h
    · rename_i hnone
      obtain rfl := Option.some.inj h
      exact .connected hnone
    · cases h
  | called asked =>
    obtain ⟨link, hlink, rfl⟩ := Option.map_eq_some_iff.mp h
    exact .called hlink
  | received message =>
    rw [handle] at h
    split at h
    · obtain rfl := Option.some.inj h
      cases message with
      | reply linkObject reply =>
        cases hactive : c.activeQueries linkObject.id with
        | some n => exact .replied hactive
        | none =>
          refine .same ?_ fun o r heq => ?_
          · rw [receive, hactive]
            exact .refl c
          · cases heq
            exact hactive
      | observeData id reply =>
        refine .same ⟨rfl, rfl, rfl, rfl, rfl, rfl, rfl, fun id => ?_⟩ fun _ _ h => nomatch h
        rw [receive]
        simp
    · cases h
  | timeout n =>
    rw [handle] at h
    split at h
    · obtain rfl := Option.some.inj h
      exact .timeout
    · cases h
  | returned =>
    obtain ⟨w, reply, hreturned⟩ := callReturned_of_returns h
    exact .returned hreturned
  | posted =>
    rw [handle] at h
    split at h
    · exact handled_of_handlePosted h
    · cases h
  | observeDataRound => exact .same (sameCalls_observeDataRound h) fun _ _ h => nomatch h
  | clientRemoved =>
    rw [handle] at h
    split at h
    · obtain rfl := Option.some.inj h
      exact .clientRemoved
    · cases h

/-! ## Where calls, replies and posted events come from -/

/-- `w'` is the call `w`, perhaps with its event loop ended. -/
structure SameCall (w w' : WaitingCall) : Prop where
  linkObject : w'.linkObject = w.linkObject
  link : w'.link = w.link
  quit : w.quit = true → w'.quit = true

theorem mem_calls_map {f : WaitingCall → WaitingCall} (hf : ∀ w, SameCall w (f w))
    (h : c'.calls = c.calls.map f) {w' : WaitingCall} (hw' : w' ∈ c'.calls) :
    ∃ w ∈ c.calls, SameCall w w' := by
  rw [h] at hw'
  obtain ⟨w, hw, rfl⟩ := List.mem_map.mp hw'
  exact ⟨w, hw, hf w⟩

/-- A call on the stack was there, or it was just made. -/
theorem Handled.mem_calls (h : Handled c e c') {w' : WaitingCall} (hw' : w' ∈ c'.calls) :
    (∃ w ∈ c.calls, SameCall w w') ∨ ∃ link asked, e = .called asked ∧ c.client = some link ∧
      c'.made = c.made + 1 ∧ w' = ⟨c.newLinkObject asked, link, asked.info, true, false⟩ := by
  have hsame : w' ∈ c.calls → ∃ w ∈ c.calls, SameCall w w' := fun hw => ⟨w', hw, rfl, rfl, id⟩
  cases h with
  | connected => exact .inl (hsame hw')
  | @called link asked hlink =>
    rw [calls_sendAndWaitReply] at hw'
    rcases List.mem_cons.mp hw' with rfl | hw'
    · exact .inr ⟨link, asked, rfl, hlink, rfl, rfl⟩
    · exact .inl (hsame hw')
  | replied hn =>
    refine .inl (mem_calls_map (fun w => ?_) (calls_receive_reply hn) hw')
    split <;> exact ⟨rfl, rfl, by simp⟩
  | timeout =>
    refine .inl (mem_calls_map (fun w => ?_) (calls_timeout _) hw')
    split <;> exact ⟨rfl, rfl, by simp⟩
  | returned hr =>
    refine .inl (hsame ?_)
    rw [hr.calls]
    exact List.mem_cons_of_mem _ hw'
  | destroyed => exact .inl (hsame hw')
  | clientRemoved =>
    refine .inl (mem_calls_map (fun w => ?_) calls_clientRemoved hw')
    split <;> exact ⟨rfl, rfl, by simp⟩
  | same hsame' _ => exact .inl (hsame (hsame'.calls ▸ hw'))

/-- A call that has returned was the innermost one, with the reply that was stored for it. -/
theorem Handled.mem_returned (h : Handled c e c') {w : WaitingCall} {reply : Option Reply}
    (hw : (w, reply) ∈ c'.returned) :
    (w, reply) ∈ c.returned ∨ w ∈ c.calls ∧ c.findReply w = some reply := by
  cases h with
  | returned hr =>
    rw [hr.returned] at hw
    rcases List.mem_append.mp hw with hw | hw
    · exact .inl hw
    · obtain ⟨rfl, rfl⟩ := Prod.mk.inj (List.mem_singleton.mp hw)
      exact .inr ⟨hr.calls ▸ List.mem_cons_self, hr.found⟩
  | replied hn =>
    rw [receive, hn] at hw
    exact .inl hw
  | same hsame _ => exact .inl (hsame.returned ▸ hw)
  | _ => exact .inl hw

/-- A stored reply was there, or it stands for a canceled query, or it has just arrived. -/
theorem Handled.replies (h : Handled c e c') {id : ℤ} {r : Reply} (hr : c'.replies id = some r) :
    c.replies id = some r ∨ r.error = qs "canceled" ∨
      ∃ o, e = .received (.reply o r) ∧ o.id = id := by
  cases h with
  | @replied o reply n hn =>
    rw [replies_receive_reply hn] at hr
    by_cases hid : id = o.id
    · rw [hid, Function.update_self] at hr
      obtain rfl := Option.some.inj hr
      exact .inr (.inr ⟨o, rfl, hid.symm⟩)
    · exact .inl ((Function.update_of_ne hid _ _).symm.trans hr)
  | returned hreturned => exact .inl (hreturned.replies ▸ hr)
  | @destroyed id' posted hp =>
    by_cases hid : id = id'
    · subst hid
      cases (Function.update_self ..).symm.trans hr
    · exact .inl ((Function.update_of_ne hid _ _).symm.trans hr)
  | clientRemoved =>
    have hreplies : c.clientRemoved.replies id =
        if (c.activeQueries id).isSome then some (canceled (c.replies id)) else c.replies id := rfl
    rw [hreplies] at hr
    split at hr
    · obtain rfl := Option.some.inj hr
      exact .inr (.inl rfl)
    · exact .inl hr
  | same hsame _ => exact .inl (hsame.replies ▸ hr)
  | _ => exact .inl hr

/-- The reply of a call is destroyed when the call has returned. -/
theorem Handled.mem_posted (h : Handled c e c') {id : ℤ} (hid : .destroyReply id ∈ c'.posted) :
    .destroyReply id ∈ c.posted ∨ ∃ w ∈ c.calls, w.linkObject.id = id := by
  cases h with
  | @returned w reply _ hr =>
    rcases (hr.posted id).mp hid with hid | rfl
    · exact .inl hid
    · exact .inr ⟨w, hr.calls ▸ List.mem_cons_self, rfl⟩
  | replied hn =>
    rw [receive, hn] at hid
    exact .inl hid
  | destroyed hp => exact .inl (hp ▸ List.mem_cons_of_mem _ hid)
  | same hsame _ => exact .inl ((hsame.posted id).mp hid)
  | _ => exact .inl hid

/-- A connection was there, or it is new. -/
theorem Handled.client (h : Handled c e c') (hlink : c'.client = some link) :
    c.client = some link ∨ e = .connected link := by
  cases h with
  | @connected link' _ =>
    obtain rfl := Option.some.inj hlink
    exact .inr rfl
  | replied hn =>
    rw [receive, hn] at hlink
    exact .inl hlink
  | returned hr => exact .inl (hr.client ▸ hlink)
  | clientRemoved => cases hlink
  | same hsame _ => exact .inl (hsame.client ▸ hlink)
  | _ => exact .inl hlink

/-- Link objects are numbered and get their ids when they are made. -/
theorem Handled.made (h : Handled c e c') :
    c'.made = c.made ∧ c'.nextFId = c.nextFId ∨
      ∃ asked, e = .called asked ∧ c'.made = c.made + 1 ∧ c'.nextFId = int32 (c.nextFId + 1) := by
  cases h with
  | @called link asked _ => exact .inr ⟨asked, rfl, rfl, rfl⟩
  | replied hn =>
    rw [receive, hn]
    exact .inl ⟨rfl, rfl⟩
  | returned hr => exact .inl ⟨hr.made, hr.nextFId⟩
  | same hsame _ => exact .inl ⟨hsame.made, hsame.nextFId⟩
  | _ => exact .inl ⟨rfl, rfl⟩

/-! ## The invariant -/

/-- The link objects that wait. -/
def linkObjects (c : CallState) : List QDocdbLinkObject := c.calls.map WaitingCall.linkObject

/-- The id of the next link object is not in use. -/
structure FreshId (c : CallState) : Prop where
  waiting : ∀ o ∈ c.linkObjects, o.id ≠ c.nextFId
  posted : .destroyReply c.nextFId ∉ c.posted

/-- Calls are made with ids that are not in use. -/
def CallsFresh (c : CallState) : CallEvent → Prop
  | .called _ => c.FreshId
  | _ => True

/-- How calls, queries and replies belong together. -/
structure CallsOk (c : CallState) : Prop where
  ids : (c.linkObjects.map QDocdbLinkObject.id).Nodup
  serials : c.linkObjects.Pairwise fun o o' => o'.serial < o.serial
  made : ∀ o ∈ c.linkObjects, o.serial < c.made
  active : ∀ id n, c.activeQueries id = some n ↔ ∃ o ∈ c.linkObjects, o.id = id ∧ o.serial = n
  replied : ∀ w ∈ c.calls, w.quit = true → w.timerActive = true →
    c.replies w.linkObject.id ≠ none
  kept : ∀ id, c.replies id ≠ none →
    (∃ o ∈ c.linkObjects, o.id = id) ∨ .destroyReply id ∈ c.posted
  destroyed : ∀ id, .destroyReply id ∈ c.posted → ∀ o ∈ c.linkObjects, o.id ≠ id

theorem callsOk_new (observeDataLock : Bool) : (new observeDataLock).CallsOk where
  ids := List.nodup_nil
  serials := List.Pairwise.nil
  made := fun o ho => by cases ho
  active := fun id n => by simp [new, linkObjects, calls]
  replied := fun w hw => by cases hw
  kept := fun id h => absurd rfl h
  destroyed := fun id h => by cases h

theorem mem_linkObjects (h : w ∈ c.calls) : w.linkObject ∈ c.linkObjects := List.mem_map_of_mem h

/-- Event loops that end leave the link objects alone. -/
theorem linkObjects_map {f : WaitingCall → WaitingCall} (hf : ∀ w, (f w).linkObject = w.linkObject)
    (h : c'.calls = c.calls.map f) : c'.linkObjects = c.linkObjects := by
  rw [linkObjects, linkObjects, h, List.map_map]
  exact List.map_congr_left fun w _ => hf w

/-- Link objects that wait have different numbers. -/
theorem CallsOk.eq_of_serial_eq (h : c.CallsOk) {o o' : QDocdbLinkObject}
    (ho : o ∈ c.linkObjects) (ho' : o' ∈ c.linkObjects) (heq : o.serial = o'.serial) : o = o' := by
  have hnodup : (c.linkObjects.map QDocdbLinkObject.serial).Nodup :=
    List.pairwise_map.mpr (h.serials.imp fun hlt => hlt.ne')
  exact List.inj_on_of_nodup_map hnodup ho ho' heq

namespace CallsOk

theorem of_sameCalls (h : c.CallsOk) (hsame : SameCalls c c') : c'.CallsOk := by
  have hlinkObjects : c'.linkObjects = c.linkObjects := by
    rw [linkObjects, linkObjects, hsame.calls]
  refine ⟨?_, ?_, ?_, ?_, ?_, ?_, ?_⟩
  · rw [hlinkObjects]
    exact h.ids
  · rw [hlinkObjects]
    exact h.serials
  · rw [hlinkObjects, hsame.made]
    exact h.made
  · rw [hlinkObjects, hsame.activeQueries]
    exact h.active
  · rw [hsame.calls, hsame.replies]
    exact h.replied
  · intro id hid
    rw [hsame.replies] at hid
    rw [hlinkObjects, hsame.posted]
    exact h.kept id hid
  · intro id hid
    rw [hlinkObjects]
    exact h.destroyed id ((hsame.posted id).mp hid)

theorem of_called (h : c.CallsOk) (hfresh : c.FreshId) :
    (c.sendAndWaitReply link asked).CallsOk := by
  have hlinkObjects : (c.sendAndWaitReply link asked).linkObjects =
      c.newLinkObject asked :: c.linkObjects := rfl
  refine ⟨?_, ?_, ?_, ?_, ?_, ?_, ?_⟩
  · rw [hlinkObjects, List.map_cons, List.nodup_cons]
    refine ⟨fun hmem => ?_, h.ids⟩
    obtain ⟨o, ho, hid⟩ := List.mem_map.mp hmem
    exact hfresh.waiting o ho hid
  · rw [hlinkObjects, List.pairwise_cons]
    exact ⟨h.made, h.serials⟩
  · rw [hlinkObjects]
    exact List.forall_mem_cons.mpr
      ⟨Nat.lt_succ_self _, fun o ho => (h.made o ho).trans (Nat.lt_succ_self _)⟩
  · intro id n
    have hactive : (c.sendAndWaitReply link asked).activeQueries =
        Function.update c.activeQueries c.nextFId (some c.made) := rfl
    rw [hlinkObjects, List.exists_mem_cons_iff, hactive]
    by_cases hid : id = c.nextFId
    · subst hid
      rw [Function.update_self, Option.some_inj]
      refine ⟨fun heq => .inl ⟨rfl, heq⟩, ?_⟩
      rintro (⟨-, heq⟩ | ⟨o, ho, hid, -⟩)
      · exact heq
      · exact absurd hid (hfresh.waiting o ho)
    · rw [Function.update_of_ne hid, h.active]
      exact ⟨.inr, fun hor => hor.resolve_left fun hand => hid hand.1.symm⟩
  · rw [calls_sendAndWaitReply]
    refine List.forall_mem_cons.mpr ⟨fun hquit => ?_, h.replied⟩
    cases hquit
  · intro id hid
    rw [hlinkObjects]
    rcases h.kept id hid with ⟨o, ho, heq⟩ | hposted
    · exact .inl ⟨o, List.mem_cons_of_mem _ ho, heq⟩
    · exact .inr hposted
  · intro id hid
    rw [hlinkObjects]
    refine List.forall_mem_cons.mpr ⟨fun heq => ?_, h.destroyed id hid⟩
    have hnew : c.nextFId = id := heq
    exact hfresh.posted (hnew ▸ hid)

/-- Event loops end, and replies are stored for calls that wait. -/
theorem of_map (h : c.CallsOk) {f : WaitingCall → WaitingCall}
    (hf : ∀ w, (f w).linkObject = w.linkObject) (hcalls : c'.calls = c.calls.map f)
    (hmade : c'.made = c.made) (hactive : c'.activeQueries = c.activeQueries)
    (hposted : c'.posted = c.posted)
    (hreplied : ∀ w ∈ c.calls, (f w).quit = true → (f w).timerActive = true →
      c'.replies w.linkObject.id ≠ none)
    (hkept : ∀ id, c'.replies id ≠ none → c.replies id ≠ none ∨ ∃ o ∈ c.linkObjects, o.id = id) :
    c'.CallsOk := by
  have hlinkObjects := linkObjects_map hf hcalls
  refine ⟨?_, ?_, ?_, ?_, ?_, ?_, ?_⟩
  · rw [hlinkObjects]
    exact h.ids
  · rw [hlinkObjects]
    exact h.serials
  · rw [hlinkObjects, hmade]
    exact h.made
  · rw [hlinkObjects, hactive]
    exact h.active
  · rw [hcalls]
    refine List.forall_mem_map.mpr fun w hw hquit htimer => ?_
    rw [hf]
    exact hreplied w hw hquit htimer
  · intro id hid
    rw [hlinkObjects, hposted]
    rcases hkept id hid with hid | hex
    · exact h.kept id hid
    · exact .inl hex
  · rw [hlinkObjects, hposted]
    exact h.destroyed

/-- The reply to a waiting call arrives. -/
theorem of_replied (h : c.CallsOk) {linkObject : QDocdbLinkObject} {reply : Reply} {n : ℕ}
    (hn : c.activeQueries linkObject.id = some n) :
    (c.receive (.reply linkObject reply)).CallsOk := by
  obtain ⟨o, ho, hid, hserial⟩ := (h.active _ _).mp hn
  have hreplies := replies_receive_reply (r := reply) hn
  refine h.of_map (fun w => by split <;> rfl) (calls_receive_reply hn) ?_ ?_ ?_
    (fun w hw hquit htimer => ?_) fun id hid' => ?_
  · rw [receive, hn]
  · rw [receive, hn]
  · rw [receive, hn]
  · rw [hreplies]
    by_cases hw' : w.linkObject.serial = n
    · have heq := h.eq_of_serial_eq (mem_linkObjects hw) ho (hw'.trans hserial.symm)
      rw [heq, hid, Function.update_self]
      exact Option.some_ne_none _
    · rw [if_neg hw'] at hquit htimer
      by_cases hwid : w.linkObject.id = linkObject.id
      · rw [hwid, Function.update_self]
        exact Option.some_ne_none _
      · rw [Function.update_of_ne hwid]
        exact h.replied w hw hquit htimer
  · rw [hreplies] at hid'
    by_cases heq : id = linkObject.id
    · exact .inr ⟨o, ho, hid.trans heq.symm⟩
    · rw [Function.update_of_ne heq] at hid'
      exact .inl hid'

theorem of_timeout (h : c.CallsOk) (n : ℕ) : (c.timeout n).CallsOk := by
  refine h.of_map (fun w => by split <;> rfl) (calls_timeout n) rfl rfl rfl
    (fun w hw hquit htimer => ?_) fun id hid => .inl hid
  by_cases hw' : w.linkObject.serial = n
  · rw [if_pos hw'] at htimer
    cases htimer
  · rw [if_neg hw'] at hquit htimer
    exact h.replied w hw hquit htimer

theorem of_clientRemoved (h : c.CallsOk) : c.clientRemoved.CallsOk := by
  have hreplies : ∀ id, c.clientRemoved.replies id =
      if (c.activeQueries id).isSome then some (canceled (c.replies id)) else c.replies id :=
    fun _ => rfl
  refine h.of_map (fun w => by split <;> rfl) calls_clientRemoved rfl rfl rfl
    (fun w hw _ _ => ?_) fun id hid => ?_
  · have hactive := (h.active _ _).mpr ⟨_, mem_linkObjects hw, rfl, rfl⟩
    rw [hreplies, hactive]
    exact Option.some_ne_none _
  · rw [hreplies] at hid
    cases hactive : c.activeQueries id with
    | none =>
      rw [hactive] at hid
      exact .inl hid
    | some n =>
      obtain ⟨o, ho, heq, -⟩ := (h.active _ _).mp hactive
      exact .inr ⟨o, ho, heq⟩

/-- The innermost call returns. -/
theorem of_returned (h : c.CallsOk) {reply : Option Reply} (hr : CallReturned c w reply c') :
    c'.CallsOk := by
  have hlinkObjects : c.linkObjects = w.linkObject :: c'.linkObjects := by
    rw [linkObjects, linkObjects, hr.calls, List.map_cons]
  have hmem : ∀ o ∈ c'.linkObjects, o ∈ c.linkObjects := fun o ho => by
    rw [hlinkObjects]
    exact List.mem_cons_of_mem _ ho
  have hids := h.ids
  rw [hlinkObjects, List.map_cons, List.nodup_cons] at hids
  have hne : ∀ o ∈ c'.linkObjects, o.id ≠ w.linkObject.id := fun o ho heq =>
    hids.1 (List.mem_map.mpr ⟨o, ho, heq⟩)
  have hserials := h.serials
  rw [hlinkObjects, List.pairwise_cons] at hserials
  refine ⟨hids.2, hserials.2, fun o ho => hr.made ▸ h.made o (hmem o ho), fun id n => ?_, ?_, ?_,
    ?_⟩
  · rw [hr.activeQueries]
    by_cases hid : id = w.linkObject.id
    · subst hid
      rw [Function.update_self]
      refine ⟨fun hnone => (by cases hnone), ?_⟩
      rintro ⟨o, ho, hid, -⟩
      exact absurd hid (hne o ho)
    · rw [Function.update_of_ne hid, h.active, hlinkObjects, List.exists_mem_cons_iff]
      exact ⟨fun hor => hor.resolve_left fun hand => hid hand.1.symm, .inr⟩
  · intro w' hw'
    rw [hr.replies]
    refine h.replied w' ?_
    rw [hr.calls]
    exact List.mem_cons_of_mem _ hw'
  · intro id hid
    rw [hr.replies] at hid
    rw [hr.posted]
    rcases h.kept id hid with ⟨o, ho, heq⟩ | hposted
    · rw [hlinkObjects] at ho
      rcases List.mem_cons.mp ho with rfl | ho
      · exact .inr (.inr heq.symm)
      · exact .inl ⟨o, ho, heq⟩
    · exact .inr (.inl hposted)
  · intro id hid o ho
    rcases (hr.posted id).mp hid with hid | rfl
    · exact h.destroyed id hid o (hmem o ho)
    · exact hne o ho

/-- A reply is destroyed. -/
theorem of_destroyed (h : c.CallsOk) {id : ℤ} {posted : List Posted}
    (hp : c.posted = .destroyReply id :: posted) :
    CallsOk { c with posted := posted, replies := Function.update c.replies id none } := by
  have hgone : ∀ o ∈ c.linkObjects, o.id ≠ id :=
    h.destroyed id (hp ▸ List.mem_cons_self)
  refine ⟨h.ids, h.serials, h.made, h.active, fun w hw hquit htimer => ?_, fun id' hid' => ?_,
    fun id' hid' => h.destroyed id' (hp ▸ List.mem_cons_of_mem _ hid')⟩
  · have hne := hgone _ (mem_linkObjects hw)
    have hkeep := h.replied w hw hquit htimer
    rwa [← Function.update_of_ne hne none c.replies] at hkeep
  · by_cases heq : id' = id
    · subst heq
      exact absurd (Function.update_self ..) hid'
    · rcases h.kept id' fun hnone => hid' ((Function.update_of_ne heq _ _).trans hnone) with
        hex | hposted
      · exact .inl hex
      · rw [hp] at hposted
        rcases List.mem_cons.mp hposted with hposted | hposted
        · exact absurd (Posted.destroyReply.inj hposted) heq
        · exact .inr hposted

/-- **Step** -/
theorem handle (h : c.CallsOk) (hok : CallsFresh c e) (hs : c.handle e = some c') :
    c'.CallsOk := by
  cases handled_of_handle hs with
  | connected hnone => exact ⟨h.ids, h.serials, h.made, h.active, h.replied, h.kept, h.destroyed⟩
  | called hlink => exact h.of_called hok
  | replied hn => exact h.of_replied hn
  | timeout => exact h.of_timeout _
  | returned hr => exact h.of_returned hr
  | destroyed hp => exact h.of_destroyed hp
  | clientRemoved => exact h.of_clientRemoved
  | same hsame _ => exact h.of_sameCalls hsame

end CallsOk

/-! ## Event loops that end -/

/-- A call whose event loop runs was sent on the connection that is open. -/
def Awake (c : CallState) : Prop := ∀ w ∈ c.calls, w.quit = false → c.client = some w.link

theorem Awake.handle (h : c.Awake) (hok : c.CallsOk) (hs : c.handle e = some c') : c'.Awake := by
  intro w' hw' hquit
  have hhandled := handled_of_handle hs
  have hold : ∀ w ∈ c.calls, SameCall w w' → c.client = some w'.link := by
    intro w hw hsame
    rw [hsame.link]
    refine h w hw (Bool.eq_false_iff.mpr fun htrue => ?_)
    rw [hsame.quit htrue] at hquit
    cases hquit
  rcases hhandled.mem_calls hw' with ⟨w, hw, hsame⟩ | ⟨link, asked, rfl, hlink, -, rfl⟩
  · have hclient := hold w hw hsame
    cases hhandled with
    | connected hnone =>
      rw [hnone] at hclient
      cases hclient
    | called => exact hclient
    | replied hn =>
      rw [receive, hn]
      exact hclient
    | timeout => exact hclient
    | returned hr => exact hr.client ▸ hclient
    | destroyed => exact hclient
    | clientRemoved =>
      -- every call was canceled
      rw [calls_clientRemoved] at hw'
      obtain ⟨w₀, hw₀, rfl⟩ := List.mem_map.mp hw'
      have hactive := (hok.active _ _).mpr ⟨_, mem_linkObjects hw₀, rfl, rfl⟩
      rw [if_pos hactive] at hquit
      cases hquit
    | same hsame _ => exact hsame.client ▸ hclient
  · rw [CallState.handle, hlink] at hs
    obtain rfl := Option.some.inj hs
    exact hlink

/-- The event loop of a call ends when its timer runs out and when a reply is stored for it. -/
def LoopsEnded (c : CallState) : Prop :=
  ∀ w ∈ c.calls, w.timerActive = false ∨ c.replies w.linkObject.id ≠ none → w.quit = true

namespace LoopsEnded

theorem of_subset (h : c.LoopsEnded) (hcalls : ∀ w ∈ c'.calls, w ∈ c.calls)
    (hreplies : ∀ id, c'.replies id ≠ none → c.replies id ≠ none) : c'.LoopsEnded :=
  fun w hw hend => h w (hcalls w hw) (hend.imp_right (hreplies _))

theorem of_called (h : c.LoopsEnded) (hok : c.CallsOk) (hfresh : c.FreshId) :
    (c.sendAndWaitReply link asked).LoopsEnded := by
  rw [LoopsEnded, calls_sendAndWaitReply]
  refine List.forall_mem_cons.mpr ⟨fun hend => ?_, h⟩
  -- the id is new, so no reply is stored for it
  rcases hend with htimer | hreply
  · cases htimer
  · rcases hok.kept _ hreply with ⟨o, ho, hid⟩ | hposted
    · exact absurd hid (hfresh.waiting o ho)
    · exact absurd hposted hfresh.posted

theorem of_replied (h : c.LoopsEnded) (hok : c.CallsOk) {o : QDocdbLinkObject} {r : Reply} {n : ℕ}
    (hn : c.activeQueries o.id = some n) : (c.receive (.reply o r)).LoopsEnded := by
  rw [LoopsEnded, calls_receive_reply hn]
  refine List.forall_mem_map.mpr fun w hw hend => ?_
  by_cases hserial : w.linkObject.serial = n
  · rw [if_pos hserial]
  · rw [if_neg hserial, replies_receive_reply hn] at hend
    rw [if_neg hserial]
    refine h w hw (hend.imp_right fun hreply => ?_)
    have hid : w.linkObject.id ≠ o.id := fun hid => by
      have hactive := (hok.active _ _).mpr ⟨_, mem_linkObjects hw, rfl, rfl⟩
      rw [hid, hn] at hactive
      exact hserial (Option.some.inj hactive).symm
    rwa [Function.update_of_ne hid] at hreply

theorem of_timeout (h : c.LoopsEnded) (n : ℕ) : (c.timeout n).LoopsEnded := by
  rw [LoopsEnded, calls_timeout]
  refine List.forall_mem_map.mpr fun w hw hend => ?_
  split
  · rfl
  · rename_i hserial
    rw [if_neg hserial] at hend
    exact h w hw hend

theorem of_clientRemoved (hok : c.CallsOk) : c.clientRemoved.LoopsEnded := by
  rw [LoopsEnded, calls_clientRemoved]
  refine List.forall_mem_map.mpr fun w hw _ => ?_
  rw [if_pos ((hok.active _ _).mpr ⟨_, mem_linkObjects hw, rfl, rfl⟩)]

/-- **Step** -/
theorem handle (h : c.LoopsEnded) (hok : c.CallsOk) (hfresh : CallsFresh c e)
    (hs : c.handle e = some c') : c'.LoopsEnded := by
  cases handled_of_handle hs with
  | connected => exact h
  | called => exact h.of_called hok hfresh
  | replied hn => exact h.of_replied hok hn
  | timeout => exact h.of_timeout _
  | returned hr =>
    refine h.of_subset (fun w hw => ?_) (fun id hid => hr.replies ▸ hid)
    rw [hr.calls]
    exact List.mem_cons_of_mem _ hw
  | @destroyed id _ hp =>
    refine h.of_subset (fun w hw => hw) (fun id' hid' => ?_)
    by_cases heq : id' = id
    · subst heq
      exact absurd (Function.update_self ..) hid'
    · exact fun hnone => hid' ((Function.update_of_ne heq _ _).trans hnone)
  | clientRemoved => exact of_clientRemoved hok
  | same hsame _ =>
    exact h.of_subset (fun w hw => hsame.calls ▸ hw) (fun id hid => hsame.replies ▸ hid)

end LoopsEnded

/-! ## Posted events -/

/-- Nothing happens but posted events, and what they start. -/
inductive Settles : CallState → CallState → Prop
  | refl (c : CallState) : Settles c c
  | step {c c₁ c' : CallState} {e : CallEvent} (he : e = .posted ∨ e = .observeDataRound)
    (hs : c.handle e = some c₁) (h : Settles c₁ c') : Settles c c'

theorem Settles.trans {c'' : CallState} (h : Settles c c') (h' : Settles c' c'') :
    Settles c c'' := by
  induction h with
  | refl => exact h'
  | step he hs _ ih => exact .step he hs (ih h')

theorem Settles.reachable (h : Settles c c') (hc : CallsReachable CallsFresh c) :
    CallsReachable CallsFresh c' := by
  induction h with
  | refl => exact hc
  | @step c c₁ c' e he hs _ ih =>
    have hok : CallsFresh c e := by
      rcases he with rfl | rfl <;> trivial
    exact ih (hc.handled hok hs)

/-- The loop of `observeDataProcess` ends. By induction on the data that is left. -/
theorem exists_settles_observeData {frames : List Frame} (data : List (ℤ × List QJsonValue))
    (hframes : c.frames = .observeDataProcess :: frames) (hdata : c.observeData = data) :
    ∃ c', Settles c c' ∧ c'.frames = frames ∧ c'.posted = c.posted := by
  induction data generalizing c with
  | nil =>
    refine ⟨{ c with frames := frames }, .step (.inr rfl) ?_ (.refl _), rfl, rfl⟩
    rw [CallState.handle, observeDataRound, hframes, hdata]
  | cons d data ih =>
    obtain ⟨c', hc', hframes', hposted⟩ := @ih { c with
      observeData := data
      notified := c.notified ++ [(c.tables.subs d.1, d.1, d.2)] } hframes rfl
    refine ⟨c', .step (.inr rfl) ?_ hc', hframes', hposted⟩
    rw [CallState.handle, observeDataRound, hframes, hdata]

/-- Behind all calls, the posted events are handled one after the other. By induction on them. -/
theorem exists_settles (posted : List Posted) (hframes : c.frames = [])
    (hposted : c.posted = posted) : ∃ c', Settles c c' ∧ c'.frames = [] ∧ c'.posted = [] := by
  induction posted generalizing c with
  | nil => exact ⟨c, .refl c, hframes, hposted⟩
  | cons p posted ih =>
    have hlooping : c.looping = true := by rw [looping, hframes]
    have hhandle : c.handle .posted = c.handlePosted := by rw [CallState.handle, if_pos hlooping]
    cases p with
    | destroyReply id =>
      obtain ⟨c', hc', hend⟩ := @ih
        { c with posted := posted, replies := Function.update c.replies id none } hframes rfl
      refine ⟨c', .step (.inl rfl) ?_ hc', hend⟩
      rw [hhandle, handlePosted, hposted]
    | observeDataProcess =>
      by_cases hlock : c.observeDataLock = true
      · obtain ⟨c', hc', hend⟩ := @ih { c with posted := posted } hframes rfl
        refine ⟨c', .step (.inl rfl) ?_ hc', hend⟩
        rw [hhandle, handlePosted, hposted]
        exact if_pos hlock
      · obtain ⟨c₁, hc₁, hframes₁, hposted₁⟩ := @exists_settles_observeData
          { c with posted := posted, frames := .observeDataProcess :: c.frames } c.frames
          c.observeData rfl rfl
        obtain ⟨c', hc', hend⟩ := @ih c₁ (hframes₁.trans hframes) hposted₁
        refine ⟨c', .step (.inl rfl) ?_ (hc₁.trans hc'), hend⟩
        rw [hhandle, handlePosted, hposted]
        exact if_neg hlock

/-! ## Runs -/

theorem callsOk_of_reachable (h : CallsReachable CallsFresh c) : c.CallsOk := by
  induction h with
  | started observeDataLock => exact callsOk_new observeDataLock
  | handled _ hok hs ih => exact ih.handle hok hs

theorem loopsEnded_of_reachable (h : CallsReachable CallsFresh c) : c.LoopsEnded := by
  induction h with
  | started => exact fun w hw => (List.not_mem_nil hw).elim
  | handled h hok hs ih => exact ih.handle (callsOk_of_reachable h) hok hs

theorem awake_of_reachable (h : CallsReachable CallsFresh c) : c.Awake := by
  induction h with
  | started => exact fun w hw => (List.not_mem_nil hw).elim
  | handled h hok hs ih => exact ih.handle (callsOk_of_reachable h) hs

/-- The event loop of a waiting call has ended exactly when its timer has run out or a reply is
stored for it, which may be that of a canceled query, and has ended when its connection is lost;
the innermost call returns as soon as its event loop has ended, without reading a reply that is
missing. Behind all calls no query is active, no timer runs, and the replies that are left are
going to be destroyed: when the posted events are handled, none of them is left. -/
structure CallsSound (c : CallState) : Prop where
  ended : ∀ w ∈ c.calls,
    w.quit = true ↔ w.timerActive = false ∨ c.replies w.linkObject.id ≠ none
  answered : ∀ o r c', c.handle (.received (.reply o r)) = some c' →
    ∀ w ∈ c'.calls, w.linkObject.id = o.id → w.quit = true
  timedOut : ∀ n c', c.handle (.timeout n) = some c' →
    ∀ w ∈ c'.calls, w.linkObject.serial = n → w.quit = true
  lost : ∀ w ∈ c.calls, c.client ≠ some w.link → w.quit = true
  returns : ∀ w frames, c.frames = .call w :: frames → w.quit = true →
    ∃ c', c.handle .returned = some c' ∧ c'.frames = frames
  idle : c.frames = [] → (∀ id, c.activeQueries id = none) ∧ (∀ n, c.handle (.timeout n) = none) ∧
    (∀ id, c.replies id ≠ none → .destroyReply id ∈ c.posted) ∧
    ∃ c', Settles c c' ∧ c'.frames = [] ∧ c'.posted = [] ∧ ∀ id, c'.replies id = none

theorem CallsOk.exists_returns (h : c.CallsOk) {frames : List Frame}
    (hframes : c.frames = .call w :: frames) (hquit : w.quit = true) :
    ∃ c', c.returns = some c' ∧ c'.frames = frames := by
  have hw : w ∈ c.calls := by
    rw [calls, hframes]
    exact List.mem_cons_self
  have hfound : ∃ reply, c.findReply w = some reply := by
    rw [findReply]
    split
    · rename_i htimer
      obtain ⟨reply, hreply⟩ := Option.ne_none_iff_exists'.mp (h.replied w hw hquit htimer)
      exact ⟨some reply, by rw [hreply, Option.map_some]⟩
    · exact ⟨none, rfl⟩
  obtain ⟨reply, hreply⟩ := hfound
  refine ⟨c.finishCall w reply frames, ?_, ?_⟩
  · rw [CallState.returns, hframes]
    dsimp only
    rw [if_pos hquit, hreply, Option.map_some]
  · change (finish _ w reply).frames = frames
    obtain ⟨tables, observeDataLock, posted, heq, -⟩ := exists_finish_eq _ w reply
    rw [heq]

/-- Behind all calls. -/
theorem CallsOk.idle (h : c.CallsOk) (hframes : c.frames = []) :
    (∀ id, c.activeQueries id = none) ∧
      ∀ id, c.replies id ≠ none → .destroyReply id ∈ c.posted := by
  have hnone : c.linkObjects = [] := by
    rw [linkObjects, calls, hframes]
    rfl
  refine ⟨fun id => ?_, fun id hreply => ?_⟩
  · rw [Option.eq_none_iff_forall_ne_some]
    intro n hn
    obtain ⟨o, ho, -⟩ := (h.active id n).mp hn
    rw [hnone] at ho
    cases ho
  · refine (h.kept id hreply).resolve_left ?_
    rintro ⟨o, ho, -⟩
    rw [hnone] at ho
    cases ho

/-- A reply that arrives ends the event loop of the call that waits for it. -/
theorem quit_of_received (hok : c'.CallsOk) (hended : c'.LoopsEnded) {o : QDocdbLinkObject}
    {r : Reply} (hs : c.handle (.received (.reply o r)) = some c') (hw : w ∈ c'.calls)
    (hid : w.linkObject.id = o.id) : w.quit = true := by
  have hactive := (hok.active _ _).mpr ⟨_, mem_linkObjects hw, rfl, rfl⟩
  cases handled_of_handle hs with
  | replied hn =>
    refine hended w hw (.inr ?_)
    rw [replies_receive_reply hn, hid, Function.update_self]
    exact Option.some_ne_none _
  | same hsame hreply =>
    rw [hsame.activeQueries, hid, hreply o r rfl] at hactive
    cases hactive

theorem quit_of_timeout {n : ℕ} (hs : c.handle (.timeout n) = some c') (hw : w ∈ c'.calls)
    (hserial : w.linkObject.serial = n) : w.quit = true := by
  rw [CallState.handle] at hs
  split at hs
  · obtain rfl := Option.some.inj hs
    rw [calls_timeout] at hw
    obtain ⟨w, -, rfl⟩ := List.mem_map.mp hw
    split
    · rfl
    · rename_i hne
      rw [if_neg hne] at hserial
      exact absurd hserial hne
  · cases hs

/-- **Waiting calls** return when they should and leave nothing behind, in every run with any
messages, timeouts, nested calls and lost connections, as long as no id is used again that still
is in use. -/
theorem callsSound_of_reachable (h : CallsReachable CallsFresh c) : c.CallsSound := by
  have hok := callsOk_of_reachable h
  have hended := loopsEnded_of_reachable h
  refine ⟨fun w hw => ⟨fun hquit => ?_, hended w hw⟩, fun o r c' hs w hw hid => ?_,
    fun n c' hs w hw => quit_of_timeout hs hw, fun w hw hlink => ?_,
    fun w frames => hok.exists_returns, fun hframes => ?_⟩
  · cases htimer : w.timerActive with
    | false => exact .inl rfl
    | true => exact .inr (hok.replied w hw hquit htimer)
  · have hfresh : CallsFresh c (.received (.reply o r)) := trivial
    have hc' := h.handled hfresh hs
    exact quit_of_received (callsOk_of_reachable hc') (loopsEnded_of_reachable hc') hs hw hid
  · by_contra hquit
    exact hlink (awake_of_reachable h w hw (Bool.eq_false_iff.mpr hquit))
  · obtain ⟨c', hc', hframes', hposted⟩ := exists_settles c.posted hframes rfl
    refine ⟨(hok.idle hframes).1, fun n => ?_, (hok.idle hframes).2, c', hc', hframes', hposted,
      fun id => ?_⟩
    · rw [CallState.handle, calls, hframes]
      exact if_neg fun hand => by simp at hand
    · by_contra hreply
      have hdestroy := ((callsOk_of_reachable (hc'.reachable h)).idle hframes').2 id hreply
      rw [hposted] at hdestroy
      cases hdestroy

/-- A call of `find` on the connection 0. -/
def findC : Asked := ⟨[], .of (qs "D") (qs "c"), currentName, .find [] [], 0⟩

/-- The call waits, and its reply has arrived. -/
def findAnswered : CallState :=
  ((new false).connect 0 |>.sendAndWaitReply 0 findC).receive
    (.reply ((new false).newLinkObject findC) ⟨[], .findReply []⟩)

theorem callsSound_findAnswered : findAnswered.CallsSound :=
  callsSound_of_reachable
    (((CallsReachable.started false).handled (e := .connected 0) trivial rfl).handled
      (e := .called findC) ⟨by simp [linkObjects, calls, connect, new], by simp [connect, new]⟩ rfl
      |>.handled (e := .received (.reply ((new false).newLinkObject findC) ⟨[], .findReply []⟩))
        trivial rfl)

end CallState

end Qdocdb
