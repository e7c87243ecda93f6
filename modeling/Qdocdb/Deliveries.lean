import Qdocdb.DataOrder
import Qdocdb.NetworkProgress

/-!
# Data in a client

A client hands the data of an observer to the subscriber that it finds under the id. It learns the
id only when its call of `observe` has returned, so it locks the data while such a call waits. As
long as no `observe` is called inside another one, data that is read behind the reply with its id
waits for the call to return, and under a registered id data is handed out to its subscriber only
(`HandsOut.handle`).
-/

namespace Qdocdb

/-- The data that a message carries. -/
def Message.data? : Message → Option (ℤ × List QJsonValue)
  | .observeData id r => some (id, r)
  | .reply _ _ => none

/-- The data that some messages carry. -/
def dataOf (messages : List Message) : List (ℤ × List QJsonValue) :=
  messages.filterMap Message.data?

theorem mem_dataOf {messages : List Message} {id : ℤ} {reply : List QJsonValue} :
    (id, reply) ∈ dataOf messages ↔ .observeData id reply ∈ messages := by
  rw [dataOf, List.mem_filterMap]
  constructor
  · rintro ⟨m, hm, heq⟩
    cases m with
    | observeData id' reply' =>
      obtain ⟨rfl, rfl⟩ := Prod.mk.inj (Option.some.inj heq)
      exact hm
    | reply o r => cases heq
  · exact fun hm => ⟨_, hm, rfl⟩

/-- The data that a client was sent. -/
theorem QDocdbServer.dataOf_messagesTo (s : QDocdbServer) (client : ClientId) :
    dataOf (s.messagesTo client) = s.sent.filterMap (QDocdbServer.data? client) := by
  rw [dataOf, QDocdbServer.messagesTo, List.filterMap_filterMap]
  refine List.filterMap_congr fun sent _ => ?_
  obtain ⟨c, m⟩ := sent
  cases m with
  | reply o r => by_cases hc : c = client <;> simp [QDocdbServer.data?, Message.data?, hc]
  | observeData id reply =>
    by_cases hc : c = client <;> simp [QDocdbServer.data?, Message.data?, hc]

/-! ## Calls of observe -/

namespace Frame

/-- A call of `observe` that waits. -/
def observes : Frame → Bool
  | call w => w.info.isSome
  | observeDataProcess => false

/-- A call of `observe`, or the loop that hands out data. -/
def usesData : Frame → Bool
  | call w => w.info.isSome
  | observeDataProcess => true

end Frame

/-- The message that is read in an event. -/
def CallEvent.messages : CallEvent → List Message
  | received message => [message]
  | _ => []

namespace CallState

variable {c c' : CallState} {e : CallEvent} {w : WaitingCall} {reply : Option Reply}

/-- `observe` is called when no other call of it waits. -/
def ObservesAlone (c : CallState) : CallEvent → Prop
  | .called asked => asked.info.isSome → ∀ f ∈ c.frames, f.observes = false
  | _ => True

/-- The data is locked while a call of `observe` waits, and inside of such a call there is neither
another one nor the loop that hands out data. -/
structure Locked (c : CallState) : Prop where
  lock : ∀ f ∈ c.frames, f.observes = true → c.observeDataLock = true
  alone : c.frames.Pairwise fun f g => f.usesData = true → g.observes = false
  informed : ∀ w ∈ c.calls, w.info.isSome →
    ∃ query queryOptions preferedId, w.linkObject.type = .observe query queryOptions preferedId

theorem locked_new (observeDataLock : Bool) : (new observeDataLock).Locked where
  lock := fun f hf => by cases hf
  alone := List.Pairwise.nil
  informed := fun w hw => by cases hw

theorem mem_calls_iff : w ∈ c.calls ↔ .call w ∈ c.frames := by
  rw [calls, List.mem_filterMap]
  constructor
  · rintro ⟨f, hf, heq⟩
    cases f with
    | call w' =>
      obtain rfl := Option.some.inj heq
      exact hf
    | observeDataProcess => cases heq
  · exact fun hf => ⟨_, hf, rfl⟩

/-- Frames that end their event loops. -/
theorem Locked.of_map (h : c.Locked) {f : WaitingCall → WaitingCall}
    (hf : ∀ w, (f w).info = w.info ∧ (f w).linkObject = w.linkObject)
    (hframes : c'.frames = c.frames.map (Frame.map f))
    (hlock : c'.observeDataLock = c.observeDataLock) : c'.Locked := by
  have hobserves : ∀ g : Frame, (g.map f).observes = g.observes := by
    rintro (w | _)
    · simp [Frame.map, Frame.observes, (hf w).1]
    · rfl
  have husesData : ∀ g : Frame, (g.map f).usesData = g.usesData := by
    rintro (w | _)
    · simp [Frame.map, Frame.usesData, (hf w).1]
    · rfl
  refine ⟨?_, ?_, ?_⟩
  · rw [hframes, hlock]
    refine List.forall_mem_map.mpr fun g hg hobs => h.lock g hg ?_
    rwa [hobserves] at hobs
  · rw [hframes, List.pairwise_map]
    simpa only [hobserves, husesData] using h.alone
  · rw [calls, hframes, filterMap_map_call?]
    refine List.forall_mem_map.mpr fun w hw hinfo => ?_
    rw [(hf w).1] at hinfo
    rw [(hf w).2]
    exact h.informed w hw hinfo

/-- Nothing happens to the frames and to the lock. -/
theorem Locked.congr (h : c.Locked) (hframes : c'.frames = c.frames)
    (hlock : c'.observeDataLock = c.observeDataLock) : c'.Locked := by
  refine ⟨?_, ?_, ?_⟩
  · rw [hframes, hlock]
    exact h.lock
  · rw [hframes]
    exact h.alone
  · rw [calls, hframes]
    exact h.informed

/-- The frames of a call that has returned are gone, and the lock with a call of `observe`. -/
theorem Locked.of_frames (h : c.Locked) {frame : Frame} (hframes : c.frames = frame :: c'.frames)
    (hlock : frame.observes = false → c'.observeDataLock = c.observeDataLock)
    (huses : frame.observes = true → frame.usesData = true) : c'.Locked := by
  have halone := h.alone
  rw [hframes, List.pairwise_cons] at halone
  refine ⟨fun f hf hobs => ?_, halone.2, fun w hw => h.informed w ?_⟩
  · cases hframe : frame.observes with
    | false =>
      rw [hlock hframe]
      exact h.lock f (hframes ▸ List.mem_cons_of_mem _ hf) hobs
    | true =>
      rw [halone.1 f hf (huses hframe)] at hobs
      cases hobs
  · rw [mem_calls_iff, hframes]
    exact List.mem_cons_of_mem _ (mem_calls_iff.mp hw)

/-! ## What returns -/

theorem frames_finish : (c.finish w reply).frames = c.frames := by
  rw [finish]
  split
  · split <;> rfl
  · rfl
  · rfl

/-- What `observe` and `unobserve` do leaves the data and the replies alone. -/
theorem data_finish : (c.finish w reply).notified = c.notified ∧
    (c.finish w reply).observeData = c.observeData ∧ (c.finish w reply).replies = c.replies := by
  rw [finish]
  split
  · split <;> exact ⟨rfl, rfl, rfl⟩
  · exact ⟨rfl, rfl, rfl⟩
  · exact ⟨rfl, rfl, rfl⟩

/-- The lock stays unless it is a call of `observe` that returns. -/
theorem observeDataLock_finish (h : w.info.isSome = false) :
    (c.finish w reply).observeDataLock = c.observeDataLock := by
  rw [finish]
  split
  · rename_i hinfo
    rw [hinfo] at h
    cases h
  · rfl
  · rfl

/-- A subscriber was there before, or a call of `observe` has succeeded. -/
theorem subs_finish {id : ℤ} {sub : ObjectId} (h : (c.finish w reply).tables.subs id = some sub) :
    c.tables.subs id = some sub ∨
      w.info.isSome ∧ ∃ r, reply = some r ∧ r.error = [] ∧ id = observeId r.value := by
  rw [finish] at h
  split at h
  · rename_i hinfo
    split at h
    · rename_i r hsuccess
      by_cases hid : id = observeId r.value
      · refine .inr ⟨by rw [hinfo]; rfl, r, rfl, ?_, hid⟩
        exact QDocdbClient.sendAndWaitReply_eq_success_iff.mp (of_decide_eq_true hsuccess)
      · exact .inl ((Function.update_of_ne hid _ _).symm.trans h)
    · exact .inl h
  · rename_i id' _ _
    rw [QDocdbClient.unobserve] at h
    split at h
    · by_cases hid : id = id'
      · subst hid
        cases (Function.update_self ..).symm.trans h
      · exact .inl ((Function.update_of_ne hid _ _).symm.trans h)
    · exact .inl h
  · exact .inl h

theorem frames_finishCall {frames : List Frame} :
    (c.finishCall w reply frames).frames = frames := frames_finish

theorem data_finishCall {frames : List Frame} :
    (c.finishCall w reply frames).notified = c.notified ∧
      (c.finishCall w reply frames).observeData = c.observeData ∧
      (c.finishCall w reply frames).replies = c.replies := data_finish

/-! ## What a client does with data -/

/-- What an event amounts to. -/
inductive Happens (c : CallState) : CallEvent → CallState → Prop
  | connected {link : ClientId} : Happens c (.connected link) (c.connect link)
  | called {link : ClientId} {asked : Asked} :
    Happens c (.called asked) (c.sendAndWaitReply link asked)
  | arrived {id : ℤ} {reply : List QJsonValue} :
    Happens c (.received (.observeData id reply)) (c.receive (.observeData id reply))
  | replied {o : QDocdbLinkObject} {r : Reply} {n : ℕ} (hn : c.activeQueries o.id = some n) :
    Happens c (.received (.reply o r)) (c.receive (.reply o r))
  | ignored {o : QDocdbLinkObject} {r : Reply} : Happens c (.received (.reply o r)) c
  | timeout {n : ℕ} : Happens c (.timeout n) (c.timeout n)
  | returned {w : WaitingCall} {frames : List Frame} {reply : Option Reply}
    (hframes : c.frames = .call w :: frames) (hfound : c.findReply w = some reply) :
    Happens c .returned (c.finishCall w reply frames)
  | destroyed {id : ℤ} {posted : List Posted} :
    Happens c .posted { c with posted := posted, replies := Function.update c.replies id none }
  | locked {posted : List Posted} : Happens c .posted { c with posted := posted }
  | entered {posted : List Posted} (hlock : c.observeDataLock = false) :
    Happens c .posted { c with posted := posted, frames := .observeDataProcess :: c.frames }
  | left {frames : List Frame} (hframes : c.frames = .observeDataProcess :: frames) :
    Happens c .observeDataRound { c with frames := frames }
  | notified {id : ℤ} {reply : List QJsonValue} {frames : List Frame}
    {observeData : List (ℤ × List QJsonValue)} (hframes : c.frames = .observeDataProcess :: frames)
    (hdata : c.observeData = (id, reply) :: observeData) :
    Happens c .observeDataRound { c with
      observeData := observeData
      notified := c.notified ++ [(c.tables.subs id, id, reply)] }
  | clientRemoved : Happens c .clientRemoved c.clientRemoved

/-- **Inversion of `handle`.** -/
theorem happens_of_handle (h : c.handle e = some c') : c.Happens e c' := by
  cases e with
  | connected link =>
    rw [handle] at h
    split at h
    · obtain rfl := Option.some.inj h
      exact .connected
    · cases h
  | called asked =>
    obtain ⟨link, -, rfl⟩ := Option.map_eq_some_iff.mp h
    exact .called
  | received message =>
    rw [handle] at h
    split at h
    · obtain rfl := Option.some.inj h
      cases message with
      | observeData id reply => exact .arrived
      | reply o r =>
        cases hactive : c.activeQueries o.id with
        | some n => exact .replied hactive
        | none =>
          rw [receive, hactive]
          exact .ignored
    · cases h
  | timeout n =>
    rw [handle] at h
    split at h
    · obtain rfl := Option.some.inj h
      exact .timeout
    · cases h
  | returned =>
    rw [handle, returns] at h
    split at h
    · rename_i w frames hframes
      split at h
      · obtain ⟨reply, hreply, rfl⟩ := Option.map_eq_some_iff.mp h
        exact .returned hframes hreply
      · cases h
    · cases h
  | posted =>
    rw [handle] at h
    split at h
    · rw [handlePosted] at h
      split at h
      · obtain rfl := Option.some.inj h
        exact .destroyed
      · split at h
        · obtain rfl := Option.some.inj h
          exact .locked
        · rename_i hlock
          obtain rfl := Option.some.inj h
          exact .entered (Bool.eq_false_iff.mpr hlock)
      · cases h
    · cases h
  | observeDataRound =>
    rw [handle, observeDataRound] at h
    split at h
    · rename_i hframes _
      obtain rfl := Option.some.inj h
      exact .left hframes
    · rename_i hframes hdata
      obtain rfl := Option.some.inj h
      exact .notified hframes hdata
    · cases h
  | clientRemoved =>
    rw [handle] at h
    split at h
    · obtain rfl := Option.some.inj h
      exact .clientRemoved
    · cases h

/-- A reply that arrives ends an event loop and is stored. -/
theorem receive_reply {o : QDocdbLinkObject} {r : Reply} {n : ℕ}
    (hn : c.activeQueries o.id = some n) :
    c.receive (.reply o r) = { c with
      replies := Function.update c.replies o.id (some r)
      frames := c.frames.map (Frame.map fun w =>
        if w.linkObject.serial = n then { w with quit := true } else w) } := by
  rw [receive, hn]

/-- **Step** of the lock. -/
theorem Locked.handle (h : c.Locked) (halone : c.ObservesAlone e) (hs : c.handle e = some c') :
    c'.Locked := by
  cases happens_of_handle hs with
  | connected => exact h.congr rfl rfl
  | @called link asked =>
    refine ⟨fun f hf hobs => ?_, ?_, fun w hw hinfo => ?_⟩
    · change (c.observeDataLock || asked.info.isSome) = true
      rcases List.mem_cons.mp hf with rfl | hf
      · rw [show asked.info.isSome = true from hobs, Bool.or_true]
      · rw [h.lock f hf hobs, Bool.true_or]
    · exact List.pairwise_cons.mpr ⟨fun g hg hinfo => halone hinfo g hg, h.alone⟩
    · rw [calls_sendAndWaitReply] at hw
      rcases List.mem_cons.mp hw with rfl | hw
      · -- only `observe` registers anything
        change ∃ query queryOptions preferedId, asked.type = .observe query queryOptions preferedId
        have hsome : asked.info.isSome = true := hinfo
        rw [Asked.info] at hsome
        split at hsome
        · exact ⟨_, _, _, ‹_›⟩
        · cases hsome
      · exact h.informed w hw hinfo
  | arrived => exact h.congr rfl rfl
  | replied hn =>
    rw [receive_reply hn]
    refine h.of_map (fun w => ?_) rfl rfl
    split <;> exact ⟨rfl, rfl⟩
  | ignored => exact h
  | timeout =>
    refine h.of_map (fun w => ?_) rfl rfl
    split <;> exact ⟨rfl, rfl⟩
  | @returned w frames reply hframes hfound =>
    refine h.of_frames (hframes.trans (congrArg _ frames_finishCall.symm)) (fun hnone => ?_) id
    exact observeDataLock_finish hnone
  | destroyed => exact h.congr rfl rfl
  | locked => exact h.congr rfl rfl
  | entered hlock =>
    have hnone : ∀ g ∈ c.frames, g.observes = false := by
      intro g hg
      by_contra hobs
      rw [h.lock g hg (by simpa using hobs)] at hlock
      cases hlock
    refine ⟨fun f hf hobs => ?_, List.pairwise_cons.mpr ⟨fun g hg _ => hnone g hg, h.alone⟩,
      h.informed⟩
    rcases List.mem_cons.mp hf with rfl | hf
    · cases hobs
    · exact h.lock f hf hobs
  | left hframes => exact h.of_frames hframes (fun _ => rfl) nofun
  | notified hframes hdata => exact h.congr rfl rfl
  | clientRemoved =>
    refine h.of_map (fun w => ?_) rfl rfl
    split <;> exact ⟨rfl, rfl⟩

/-! ## Data that was handed out -/

/-- What a client has done with the data that it has read from its connection: it was handed out
behind the data `old` from other connections, or it waits. No data was handed out under an id
that a call of `observe` has not registered yet, and under a registered id only to its
subscriber. -/
structure HandsOut (c : CallState) (messages : List Message) (old : List (ℤ × List QJsonValue)) :
    Prop where
  data : c.notified.map Prod.snd ++ c.observeData = old ++ dataOf messages
  unknown : ∀ w ∈ c.calls, w.info.isSome → ∀ r id, c.replies w.linkObject.id = some r →
    r = ⟨[], .observeReply id⟩ → ∀ n ∈ c.notified.drop old.length, n.2.1 ≠ id
  known : ∀ id sub, c.tables.subs id = some sub → ∀ n ∈ c.notified.drop old.length, n.2.1 = id →
    n.1 = some sub

/-- What was handed out was read. -/
theorem HandsOut.mem_dataOf {messages : List Message} {old : List (ℤ × List QJsonValue)}
    (h : c.HandsOut messages old) {n : Option ObjectId × ℤ × List QJsonValue}
    (hn : n ∈ c.notified.drop old.length) : n.2 ∈ dataOf messages := by
  have hdrop := congrArg (List.drop old.length) h.data
  rw [List.drop_left, List.drop_append, ← List.map_drop] at hdrop
  rw [← hdrop]
  exact List.mem_append_left _ (List.mem_map_of_mem hn)

/-- Nothing was read from a new connection. -/
theorem handsOut_connect {link : ClientId} :
    (c.connect link).HandsOut [] (c.notified.map Prod.snd ++ c.observeData) := by
  have hnone : ∀ n ∈ c.notified.drop (c.notified.map Prod.snd ++ c.observeData).length, False := by
    rw [List.drop_of_length_le (by simp)]
    exact fun n hn => by cases hn
  exact ⟨(List.append_nil _).symm, fun w _ _ r id _ _ n hn => (hnone n hn).elim,
    fun id sub _ n hn => (hnone n hn).elim⟩

theorem dataOf_append (messages more : List Message) :
    dataOf (messages ++ more) = dataOf messages ++ dataOf more := List.filterMap_append

section

variable {messages : List Message} {old : List (ℤ × List QJsonValue)}

/-- Calls end their event loops or return, and replies are destroyed. -/
theorem HandsOut.of_calls (h : c.HandsOut messages old) (hnotified : c'.notified = c.notified)
    (hdata : c'.observeData = c.observeData)
    (hcalls : ∀ w' ∈ c'.calls, ∃ w ∈ c.calls, w'.info = w.info ∧ w'.linkObject = w.linkObject)
    (hreplies : ∀ id r, c'.replies id = some r → c.replies id = some r)
    (hsubs : c'.tables.subs = c.tables.subs) : c'.HandsOut messages old := by
  refine ⟨?_, ?_, ?_⟩
  · rw [hnotified, hdata]
    exact h.data
  · rw [hnotified]
    intro w' hw' hinfo r id hr
    obtain ⟨w, hw, heq, hlinkObject⟩ := hcalls w' hw'
    rw [heq] at hinfo
    rw [hlinkObject] at hr
    exact h.unknown w hw hinfo r id (hreplies _ r hr)
  · rw [hnotified, hsubs]
    exact h.known

/-- A call is made, with an id under which there is no reply. -/
theorem HandsOut.of_called (h : c.HandsOut messages old) (hcalls : c.CallsOk) (hfresh : c.FreshId)
    {link : ClientId} {asked : Asked} : (c.sendAndWaitReply link asked).HandsOut messages old := by
  refine ⟨h.data, fun w hw hinfo r id hr heq => ?_, h.known⟩
  rw [calls_sendAndWaitReply] at hw
  rcases List.mem_cons.mp hw with rfl | hw
  · rcases hcalls.kept c.nextFId (fun hnone => by cases hnone.symm.trans hr) with
      ⟨o, ho, hid⟩ | hposted
    · exact absurd hid (hfresh.waiting o ho)
    · exact absurd hposted hfresh.posted
  · exact h.unknown w hw hinfo r id hr heq

/-- A reply arrives. When it gives an id, no data of that id was read. -/
theorem HandsOut.of_replied (h : c.HandsOut messages old) {o : QDocdbLinkObject} {r : Reply} {n : ℕ}
    (hn : c.activeQueries o.id = some n)
    (hgives : ∀ id, (Message.reply o r).given? = some id → ∀ reply, (id, reply) ∉ dataOf messages) :
    (c.receive (.reply o r)).HandsOut (messages ++ [.reply o r]) old := by
  have hreplies := replies_receive_reply (r := r) hn
  have hcalls := calls_receive_reply (r := r) hn
  rw [receive_reply hn] at hreplies hcalls ⊢
  refine ⟨?_, fun w hw hinfo r' id hr heq n' hn' => ?_, h.known⟩
  · rw [dataOf_append]
    exact h.data.trans (congrArg (old ++ ·) (List.append_nil _).symm)
  · obtain ⟨w₀, hw₀, rfl⟩ := List.mem_map.mp (hcalls ▸ hw)
    have hlinkObject : (if w₀.linkObject.serial = n then { w₀ with quit := true }
        else w₀).linkObject = w₀.linkObject := by split <;> rfl
    rw [hlinkObject, hreplies] at hr
    by_cases hido : w₀.linkObject.id = o.id
    · rw [hido, Function.update_self] at hr
      obtain rfl := Option.some.inj hr
      rintro rfl
      exact hgives n'.2.1 (by rw [heq]; rfl) n'.2.2 (h.mem_dataOf hn')
    · rw [Function.update_of_ne hido] at hr
      refine h.unknown w₀ hw₀ ?_ r' id hr heq n' hn'
      split at hinfo <;> exact hinfo

/-- A call returns. When it registers an id, nothing was handed out under the id. -/
theorem HandsOut.of_returned (h : c.HandsOut messages old) {frames : List Frame}
    {reply : Option Reply} (hframes : c.frames = .call w :: frames)
    (hfound : c.findReply w = some reply)
    (hstored : w.info.isSome → ∀ r, c.replies w.linkObject.id = some r → r.error = [] →
      ∃ id, r = ⟨[], .observeReply id⟩) :
    (c.finishCall w reply frames).HandsOut messages old := by
  obtain ⟨hnotified, hdata, hreplies⟩ := @data_finishCall c w reply frames
  have hw : w ∈ c.calls := mem_calls_iff.mpr (hframes ▸ List.mem_cons_self)
  refine ⟨?_, fun w' hw' hinfo r id hr => ?_, fun id sub hsub => ?_⟩
  · rw [hnotified, hdata]
    exact h.data
  · rw [hnotified]
    rw [hreplies] at hr
    rw [mem_calls_iff, frames_finishCall] at hw'
    exact h.unknown w' (mem_calls_iff.mpr (hframes ▸ List.mem_cons_of_mem _ hw')) hinfo r id hr
  · rw [hnotified]
    rcases subs_finish hsub with hold | ⟨hinfo, r, rfl, herror, rfl⟩
    · exact h.known id sub hold
    · have hr : c.replies w.linkObject.id = some r := by
        rw [findReply] at hfound
        split at hfound
        · obtain ⟨r', hr', heq⟩ := Option.map_eq_some_iff.mp hfound
          rwa [Option.some.inj heq] at hr'
        · cases hfound
      obtain ⟨id, rfl⟩ := hstored hinfo r hr herror
      exact fun n hn hid => absurd hid (h.unknown w hw hinfo _ id hr rfl n hn)

/-- Data is handed out. No call of `observe` waits below the loop. -/
theorem HandsOut.of_notified (h : c.HandsOut messages old) (hlocked : c.Locked) {id : ℤ}
    {reply : List QJsonValue} {frames : List Frame} {observeData : List (ℤ × List QJsonValue)}
    (hframes : c.frames = .observeDataProcess :: frames)
    (hdata : c.observeData = (id, reply) :: observeData) :
    HandsOut { c with
      observeData := observeData
      notified := c.notified ++ [(c.tables.subs id, id, reply)] } messages old := by
  refine ⟨?_, fun w hw hinfo => ?_, fun id' sub hsub n hn hid' => ?_⟩
  · have hold := h.data
    rw [hdata] at hold
    simpa using hold
  · have halone := hlocked.alone
    rw [hframes, List.pairwise_cons] at halone
    have hin : .call w ∈ c.frames := mem_calls_iff.mp hw
    rw [hframes] at hin
    have hnone : w.info.isSome = false := halone.1 _ ((List.mem_cons.mp hin).resolve_left nofun) rfl
    rw [hnone] at hinfo
    cases hinfo
  · change n ∈ (c.notified ++ [(c.tables.subs id, id, reply)]).drop old.length at hn
    rw [List.drop_append, List.mem_append] at hn
    rcases hn with hn | hn
    · exact h.known id' sub hsub n hn hid'
    · obtain rfl := List.mem_singleton.mp (List.mem_of_mem_drop hn)
      subst hid'
      exact hsub

/-- **Step** of the data, on an open connection. A reply that gives an id is read in front of the
data of that id, and what was stored for a call of `observe` gives an id or is an error. -/
theorem HandsOut.handle (h : c.HandsOut messages old) (hlocked : c.Locked) (hcalls : c.CallsOk)
    (hfresh : c.CallsFresh e) (hs : c.handle e = some c')
    (hconnected : ∀ link, e ≠ .connected link) (hremoved : e ≠ .clientRemoved)
    (hstored : ∀ w ∈ c.calls, w.info.isSome → ∀ r, c.replies w.linkObject.id = some r →
      r.error = [] → ∃ id, r = ⟨[], .observeReply id⟩)
    (hgives : ∀ m id, e = .received m → m.given? = some id → ∀ reply,
      (id, reply) ∉ dataOf messages) :
    c'.HandsOut (messages ++ e.messages) old := by
  have hsame : ∀ w ∈ c.calls, ∃ w' ∈ c.calls, w.info = w'.info ∧ w.linkObject = w'.linkObject :=
    fun w hw => ⟨w, hw, rfl, rfl⟩
  cases happens_of_handle hs with
  | @connected link => exact absurd rfl (hconnected link)
  | called =>
    simp only [CallEvent.messages, List.append_nil]
    exact h.of_called hcalls hfresh
  | arrived =>
    refine ⟨?_, h.unknown, h.known⟩
    rw [dataOf_append, ← List.append_assoc, ← h.data, List.append_assoc]
    rfl
  | replied hn => exact h.of_replied hn fun id => hgives _ id rfl
  | ignored =>
    refine ⟨?_, h.unknown, h.known⟩
    rw [dataOf_append, h.data]
    exact congrArg (old ++ ·) (List.append_nil _).symm
  | timeout =>
    simp only [CallEvent.messages, List.append_nil]
    refine h.of_calls rfl rfl (fun w' hw' => ?_) (fun _ _ => id) rfl
    rw [calls_timeout] at hw'
    obtain ⟨w, hw, rfl⟩ := List.mem_map.mp hw'
    refine ⟨w, hw, ?_⟩
    split <;> exact ⟨rfl, rfl⟩
  | returned hframes hfound =>
    simp only [CallEvent.messages, List.append_nil]
    exact h.of_returned hframes hfound
      (hstored _ (mem_calls_iff.mpr (hframes ▸ List.mem_cons_self)))
  | @destroyed id' posted =>
    simp only [CallEvent.messages, List.append_nil]
    refine h.of_calls rfl rfl hsame (fun id r hr => ?_) rfl
    by_cases heq : id = id'
    · subst heq
      cases (Function.update_self ..).symm.trans hr
    · exact (Function.update_of_ne heq _ _).symm.trans hr
  | locked =>
    simp only [CallEvent.messages, List.append_nil]
    exact h.of_calls rfl rfl hsame (fun _ _ => id) rfl
  | entered hlock =>
    simp only [CallEvent.messages, List.append_nil]
    exact h.of_calls rfl rfl hsame (fun _ _ => id) rfl
  | left hframes =>
    simp only [CallEvent.messages, List.append_nil]
    refine h.of_calls rfl rfl (fun w hw => hsame w ?_) (fun _ _ => id) rfl
    exact mem_calls_iff.mpr (hframes ▸ List.mem_cons_of_mem _ (mem_calls_iff.mp hw))
  | notified hframes hdata =>
    simp only [CallEvent.messages, List.append_nil]
    exact h.of_notified hlocked hframes hdata
  | clientRemoved => exact absurd rfl hremoved

end

end CallState

end Qdocdb
