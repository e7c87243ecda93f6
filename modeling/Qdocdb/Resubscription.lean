import Qdocdb.Connectors
import Qdocdb.Lib.Iteration
import Qdocdb.ObserverIds

/-!
# Subscribing again

After a reconnection the client goes through its table of subscriptions in the order of
their ids and asks the server for each id again. The server gives another one when the
collection uses the id already; the client adds that id to the table that it goes through,
and when the id is in front of the iterator the loop comes to it as well, and subscribes a
second time. The loop always ends (`exists_onConnectTimerLoop`), and each subscription has one
observer exactly when no id is added in front of the iterator and no two subscriptions get the
same id of a collection (`resubscribes_iff`).
-/

namespace Qdocdb

/-! ## The loop -/

/-- What the loop works on: the tables of the client, and the collections of the server with
the generator of ids. A subscription is named by the id that it had before. -/
structure Reconnection where
  observerInfo : SortedMap ℤ ObserverInfo
  subs : ℤ → Option ObjectId
  collections : Place → Collection
  nextNumber : ℤ
  /-- the subscription that an entry of `observerInfo` is about -/
  original : ℤ → ℤ
  /-- the subscription for which an observer was registered in this loop -/
  registered : Place → ℤ → Option ℤ

namespace Reconnection

open SortedMap (Ahead)

variable (E : Place → Env) (placeOf : QString → Place)

/-- Before the loop. -/
def start (observerInfo : SortedMap ℤ ObserverInfo) (subs : ℤ → Option ObjectId)
    (collections : Place → Collection) (nextNumber : ℤ) : Reconnection where
  observerInfo := observerInfo
  subs := subs
  collections := collections
  nextNumber := nextNumber
  original := id
  registered := fun _ _ => none

/-- `QDocdbClient::observe` with the `observe` of the collection that the url leads to. -/
def observe (s : Reconnection) (preferedId : ℤ) (info : ObserverInfo) : Reconnection :=
  let place := placeOf info.url
  let (observeId, nextNumber, coll) := (s.collections place).observe (E place) info.query
    info.queryOptions preferedId s.nextNumber
  let contained := (s.observerInfo.find? observeId).isSome
  { observerInfo :=
      if contained then s.observerInfo else s.observerInfo.insert observeId info
    subs := Function.update s.subs observeId (some info.sub)
    collections := Function.update s.collections place coll
    nextNumber := nextNumber
    original :=
      if contained then s.original
      else Function.update s.original observeId (s.original preferedId)
    registered := fun p id =>
      if p = place ∧ id = observeId then some (s.original preferedId) else s.registered p id }

/-- The loop of `onConnectTimer`. -/
def onConnectTimerLoop (fuel : ℕ) (s : Reconnection) : Option Reconnection :=
  SortedMap.iterate observerInfo (observe E placeOf) fuel none s

/-- A subscription has exactly one observer. -/
def Once (s : Reconnection) (k : ℤ) : Prop :=
  ∃! p : Place × ℤ, s.registered p.1 p.2 = some k

/-! ## The property -/

/-- The loop ends, and then each subscription has exactly one observer. -/
def Resubscribes (table : SortedMap ℤ ObserverInfo) (subs : ℤ → Option ObjectId)
    (collections : Place → Collection) (nextNumber : ℤ) : Prop :=
  ∃ fuel s, onConnectTimerLoop E placeOf fuel (start table subs collections nextNumber) = some s ∧
    ∀ k, table.find? k ≠ none → s.Once k

/-- **The condition**, entry by entry in the order of the keys. The key of an entry is refused
when it is `-1`, or an id of the collection, or was given to an entry before. The next number
of the counter, which the entry gets then, must not be in front of it unless it is a key of
the table anyway, and must not have been given to an entry before. -/
def Settles (table : SortedMap ℤ ObserverInfo) (collections : Place → Collection) :
    List (ℤ × ObserverInfo) → List (Place × ℤ) → ℤ → Prop
  | [], _, _ => True
  | (k, info) :: entries, given, nextNumber =>
    let place := placeOf info.url
    if k = -1 ∨ k ∈ (collections place).observers ∨ (place, k) ∈ given then
      (nextNumber ≤ k ∨ table.find? nextNumber ≠ none) ∧ (place, nextNumber) ∉ given ∧
        Settles table collections entries ((place, nextNumber) :: given) (int32 (nextNumber + 1))
    else Settles table collections entries ((place, k) :: given) nextNumber

/-! ## One request -/

/-- The id that the server gives. -/
def observeId (s : Reconnection) (preferedId : ℤ) (info : ObserverInfo) : ℤ :=
  (QDocdbServer.observeIds (s.collections (placeOf info.url)) preferedId s.nextNumber).1

section Observe

variable {E placeOf} {s : Reconnection} {k : ℤ} {info : ObserverInfo}

/-- What a request does. -/
theorem exists_observe_eq (E : Place → Env) (placeOf : QString → Place) (s : Reconnection) (k : ℤ)
    (info : ObserverInfo) :
    ∃ coll, s.observe E placeOf k info =
        { observerInfo :=
            if (s.observerInfo.find? (s.observeId placeOf k info)).isSome then s.observerInfo
            else s.observerInfo.insert (s.observeId placeOf k info) info
          subs := Function.update s.subs (s.observeId placeOf k info) (some info.sub)
          collections := Function.update s.collections (placeOf info.url) coll
          nextNumber :=
            (QDocdbServer.observeIds (s.collections (placeOf info.url)) k s.nextNumber).2
          original :=
            if (s.observerInfo.find? (s.observeId placeOf k info)).isSome then s.original
            else Function.update s.original (s.observeId placeOf k info) (s.original k)
          registered := fun p id =>
            if p = placeOf info.url ∧ id = s.observeId placeOf k info then some (s.original k)
            else s.registered p id } ∧
      ∀ id, id ∈ coll.observers ↔ id = s.observeId placeOf k info ∨
        id ∈ (s.collections (placeOf info.url)).observers := by
  obtain ⟨coll, reply, heq, -, hmem⟩ := QDocdbServer.exists_observe (E (placeOf info.url))
    (s.collections (placeOf info.url)) info.query info.queryOptions k s.nextNumber
  refine ⟨coll, ?_, hmem⟩
  rw [observe, heq]
  rfl

/-- The server keeps the id that is asked for, or gives the next number. -/
theorem observeId_cases (E : Place → Env) (placeOf : QString → Place) (s : Reconnection) (k : ℤ)
    (info : ObserverInfo) :
    (k ≠ -1 ∧ k ∉ (s.collections (placeOf info.url)).observers ∧
        s.observeId placeOf k info = k ∧
        (s.observe E placeOf k info).nextNumber = s.nextNumber) ∨
      ((k = -1 ∨ k ∈ (s.collections (placeOf info.url)).observers) ∧
        s.observeId placeOf k info = s.nextNumber ∧
        (s.observe E placeOf k info).nextNumber = int32 (s.nextNumber + 1)) := by
  obtain ⟨coll, heq, -⟩ := exists_observe_eq E placeOf s k info
  rw [heq, observeId, QDocdbServer.observeIds]
  simp only [AList.lookup_isSome]
  by_cases h : k = -1 ∨ k ∈ (s.collections (placeOf info.url)).observers
  · exact .inr ⟨h, by rw [if_pos h], by rw [if_pos h]⟩
  · refine .inl ⟨fun h' => h (.inl h'), fun h' => h (.inr h'), ?_, ?_⟩ <;> rw [if_neg h]

theorem find?_observerInfo_observe (k' : ℤ) :
    (s.observe E placeOf k info).observerInfo.find? k' =
      if k' = s.observeId placeOf k info ∧ s.observerInfo.find? k' = none then some info
      else s.observerInfo.find? k' := by
  obtain ⟨coll, heq, -⟩ := exists_observe_eq E placeOf s k info
  rw [heq]
  dsimp only
  by_cases hid : k' = s.observeId placeOf k info
  · rw [← hid]
    cases h : s.observerInfo.find? k' <;> simp [h]
  · split
    · simp [hid]
    · simp [hid, SortedMap.find?_insert_of_ne]

theorem original_observe (k' : ℤ) :
    (s.observe E placeOf k info).original k' =
      if k' = s.observeId placeOf k info ∧ s.observerInfo.find? k' = none then s.original k
      else s.original k' := by
  obtain ⟨coll, heq, -⟩ := exists_observe_eq E placeOf s k info
  rw [heq]
  dsimp only
  by_cases hid : k' = s.observeId placeOf k info
  · rw [← hid]
    cases h : s.observerInfo.find? k' <;> simp
  · split
    · simp [hid]
    · simp [hid, Function.update_of_ne]

theorem mem_observers_observe {p : Place} {id : ℤ} :
    id ∈ ((s.observe E placeOf k info).collections p).observers ↔
      (p = placeOf info.url ∧ id = s.observeId placeOf k info) ∨
        id ∈ (s.collections p).observers := by
  obtain ⟨coll, heq, hmem⟩ := exists_observe_eq E placeOf s k info
  rw [heq]
  dsimp only
  by_cases hp : p = placeOf info.url
  · rw [hp, Function.update_self, hmem]
    simp
  · simp [hp]

theorem registered_observe (p : Place) (id : ℤ) :
    (s.observe E placeOf k info).registered p id =
      if p = placeOf info.url ∧ id = s.observeId placeOf k info then some (s.original k)
      else s.registered p id := by
  obtain ⟨coll, heq, -⟩ := exists_observe_eq E placeOf s k info
  rw [heq]

/-- The tables of the client change as `QDocdbClient.observe` changes them. -/
theorem observe_eq_client (E : Place → Env) (placeOf : QString → Place) (s : Reconnection) (k : ℤ)
    (info : ObserverInfo) :
    (⟨true, (s.observe E placeOf k info).subs,
        (s.observe E placeOf k info).observerInfo.find?⟩ : QDocdbClient) =
      ((⟨true, s.subs, s.observerInfo.find?⟩ : QDocdbClient).observe
        (some (s.observeId placeOf k info)) info).2 := by
  have hinfo : (s.observe E placeOf k info).observerInfo.find? =
      if (s.observerInfo.find? (s.observeId placeOf k info)).isSome then s.observerInfo.find?
      else Function.update s.observerInfo.find? (s.observeId placeOf k info) (some info) := by
    funext k'
    rw [find?_observerInfo_observe]
    by_cases hid : k' = s.observeId placeOf k info
    · rw [← hid]
      cases h : s.observerInfo.find? k' <;> simp [h]
    · rw [if_neg fun h => hid h.1]
      split
      · rfl
      · rw [Function.update_of_ne hid]
  obtain ⟨coll, heq, -⟩ := exists_observe_eq E placeOf s k info
  rw [QDocdbClient.observe, hinfo, heq]

end Observe

/-! ## Termination -/

/-- All keys and the counter are of type `int`. -/
structure Ints (s : Reconnection) : Prop where
  keys : ∀ k, s.observerInfo.find? k ≠ none → IsInt k
  nextNumber : IsInt s.nextNumber

variable {E placeOf}

theorem ints_observe {s : Reconnection} (hs : s.Ints) {k : ℤ} {info : ObserverInfo} (hk : IsInt k) :
    (s.observe E placeOf k info).Ints := by
  have hid : IsInt (s.observeId placeOf k info) ∧
      IsInt (s.observe E placeOf k info).nextNumber := by
    rcases observeId_cases E placeOf s k info with
      ⟨-, -, hid, hnext⟩ | ⟨-, hid, hnext⟩
    · rw [hid, hnext]
      exact ⟨hk, hs.nextNumber⟩
    · rw [hid, hnext]
      exact ⟨hs.nextNumber, isInt_int32 _⟩
  refine ⟨fun k' hk' => ?_, hid.2⟩
  rw [find?_observerInfo_observe] at hk'
  split at hk'
  · rename_i h
    rw [h.1]
    exact hid.1
  · exact hs.keys k' hk'

/-- **The loop ends**, whatever the table, the observers of the server and the counter are:
the keys that it comes to increase, and there are `2 ^ 32` of them. -/
theorem exists_onConnectTimerLoop {s : Reconnection} (hs : s.Ints) :
    ∃ s', onConnectTimerLoop E placeOf (2 ^ 32 + 1) s = some s' := by
  refine SortedMap.exists_iterate (P := Ints) (fun k => (2 ^ 31 - 1 - k).toNat)
    ?_ (fun s hs => hs.keys) ?_ hs ?_
  · intro k k' hk hk' hlt
    obtain ⟨-, hk⟩ := hk
    obtain ⟨-, hk'⟩ := hk'
    omega
  · exact fun s k info hs hfind => ints_observe hs (hs.keys k (by simp [hfind]))
  · intro k hk _
    obtain ⟨hk, -⟩ := hk
    omega

/-! ## A subscription with two observers -/

/-- The observer stays: its id is used, and the counter is less than a whole turn past it. -/
structure Kept (p : Place) (id k₀ : ℤ) (passed : Option ℤ) (s : Reconnection) : Prop where
  registered : s.registered p id = some k₀
  observer : id ∈ (s.collections p).observers
  counter : ∃ d, 1 ≤ d ∧ s.nextNumber = int32 (id + d) ∧ ∀ q, Ahead passed q → d ≤ q + 2 ^ 31

theorem kept_observe {p : Place} {id k₀ : ℤ} {passed : Option ℤ} {s : Reconnection}
    (h : s.Kept p id k₀ passed) {k : ℤ} {info : ObserverInfo} (hlt : Ahead passed k) (hk : IsInt k) :
    (s.observe E placeOf k info).Kept p id k₀ (some k) := by
  obtain ⟨d, hpos, hcounter, hbound⟩ := h.counter
  have hd : d ≤ k + 2 ^ 31 := hbound k hlt
  have hnumber : id ≠ s.nextNumber := by
    rw [hcounter, int32]
    have := hk.2
    omega
  have hnot : ¬ (p = placeOf info.url ∧ id = s.observeId placeOf k info) := by
    rintro ⟨rfl, hid⟩
    rcases observeId_cases E placeOf s k info with
      ⟨-, hfree, hgiven, -⟩ | ⟨-, hgiven, -⟩
    · exact hfree (hgiven ▸ hid ▸ h.observer)
    · exact hnumber (hid.trans hgiven)
  refine ⟨?_, mem_observers_observe.mpr (.inr h.observer), ?_⟩
  · rw [registered_observe, if_neg hnot]
    exact h.registered
  · rcases observeId_cases E placeOf s k info with
      ⟨-, -, -, hnext⟩ | ⟨-, -, hnext⟩
    · refine ⟨d, hpos, by rw [hnext, hcounter], fun q hq => ?_⟩
      have hlt' : k < q := hq
      omega
    · refine ⟨d + 1, by omega, ?_, fun q hq => ?_⟩
      · rw [hnext, hcounter, int32, int32, int32]
        omega
      · have hlt' : k < q := hq
        omega

/-- The id of a refused request stays. -/
theorem kept_of_refused {s : Reconnection} {k : ℤ} {info : ObserverInfo} (hk : IsInt k)
    (h : k = -1 ∨ k ∈ (s.collections (placeOf info.url)).observers) :
    (s.observe E placeOf k info).Kept (placeOf info.url) s.nextNumber (s.original k)
      (some k) := by
  rcases observeId_cases E placeOf s k info with
    ⟨hne, hfree, -⟩ | ⟨-, hgiven, hnext⟩
  · exact absurd h (not_or.mpr ⟨hne, hfree⟩)
  · refine ⟨?_, mem_observers_observe.mpr (.inl ⟨rfl, hgiven.symm⟩), 1, le_rfl, hnext,
      fun q hq => ?_⟩
    · rw [registered_observe, if_pos ⟨rfl, hgiven.symm⟩]
    · have hlt : k < q := hq
      have := hk.1
      omega

/-- The iterator has not come to the second entry of the subscription yet, or the subscription
has two observers. -/
structure Twice (placeOf : QString → Place) (p : Place) (id k₀ : ℤ) (passed : Option ℤ)
    (s : Reconnection) : Prop where
  ints : s.Ints
  kept : s.Kept p id k₀ passed
  second : (Ahead passed id ∧ s.original id = k₀ ∧
      ∃ info, s.observerInfo.find? id = some info ∧ placeOf info.url = p) ∨
    ∃ id', id' ≠ id ∧ s.Kept p id' k₀ passed

theorem twice_observe {p : Place} {id k₀ : ℤ} {passed : Option ℤ} {s : Reconnection}
    (h : Twice placeOf p id k₀ passed s) {k : ℤ} {info : ObserverInfo}
    (hnext : s.observerInfo.next passed = some (k, info)) :
    Twice placeOf p id k₀ (some k) (s.observe E placeOf k info) := by
  obtain ⟨hfind, hlt, hle⟩ := SortedMap.next_eq_some_iff.mp hnext
  have hk : IsInt k := h.ints.keys k (by simp [hfind])
  refine ⟨ints_observe h.ints hk, kept_observe h.kept hlt hk, ?_⟩
  rcases h.second with ⟨hahead, horiginal, info', hinfo', hplace⟩ | ⟨id', hne, hkept⟩
  · rcases (hle id (by simp [hinfo']) hahead).lt_or_eq with hlt' | rfl
    · -- the iterator is still in front of the second entry
      refine .inl ⟨hlt', ?_, info', ?_, hplace⟩
      · rw [original_observe, if_neg (by simp [hinfo']), horiginal]
      · rw [find?_observerInfo_observe, if_neg (by simp [hinfo']), hinfo']
    · -- it comes to it, and the id is refused
      rw [hfind, Option.some.injEq] at hinfo'
      subst hinfo' hplace
      obtain ⟨d, hpos, hcounter, hbound⟩ := h.kept.counter
      refine .inr ⟨s.nextNumber, ?_, horiginal ▸ kept_of_refused hk (.inr h.kept.observer)⟩
      have := hbound k hlt
      have := hk.2
      rw [hcounter, int32]
      omega
  · exact .inr ⟨id', hne, kept_observe hkept hlt hk⟩

/-- An entry that is added in front of the iterator gives its subscription two observers. -/
theorem not_once_of_twice {p : Place} {id k₀ : ℤ} {passed : Option ℤ} {s s' : Reconnection}
    (h : Twice placeOf p id k₀ passed s) {fuel : ℕ}
    (hrun : SortedMap.iterate observerInfo (observe E placeOf) fuel passed s = some s') :
    ¬ s'.Once k₀ := by
  obtain ⟨passed', htwice, hnone⟩ := SortedMap.iterate_invariant
    (P := Twice placeOf p id k₀) (fun _ _ _ _ h hnext => twice_observe h hnext) h hrun
  rcases htwice.second with ⟨hahead, -, info, hinfo, -⟩ | ⟨id', hne, hkept⟩
  · rw [SortedMap.next_eq_none_iff.mp hnone id hahead] at hinfo
    cases hinfo
  · rintro ⟨q, -, hunique⟩
    have hsame : (p, id') = (p, id) := (hunique (p, id') hkept.registered).trans
      (hunique (p, id) htwice.kept.registered).symm
    exact hne (Prod.mk.inj hsame).2

/-! ## A subscription without an observer -/

/-- The subscription has no observer, and the loop does not come to it again. -/
structure Lost (k₀ : ℤ) (passed : Option ℤ) (s : Reconnection) : Prop where
  registered : ∀ p id, s.registered p id ≠ some k₀
  ahead : ∀ q, Ahead passed q → s.observerInfo.find? q ≠ none → s.original q ≠ k₀

theorem lost_observe {k₀ : ℤ} {passed : Option ℤ} {s : Reconnection} (h : s.Lost k₀ passed)
    {k : ℤ} {info : ObserverInfo} (hnext : s.observerInfo.next passed = some (k, info)) :
    (s.observe E placeOf k info).Lost k₀ (some k) := by
  obtain ⟨hfind, hlt, -⟩ := SortedMap.next_eq_some_iff.mp hnext
  have hk : s.original k ≠ k₀ := h.ahead k hlt (by simp [hfind])
  refine ⟨fun p id => ?_, fun q hq hfindq => ?_⟩
  · rw [registered_observe]
    split
    · exact fun heq => hk (Option.some.inj heq)
    · exact h.registered p id
  · rw [original_observe]
    rw [find?_observerInfo_observe] at hfindq
    split
    · exact hk
    · rename_i hnot
      rw [if_neg hnot] at hfindq
      exact h.ahead q (hlt.trans hq) hfindq

theorem not_once_of_lost {k₀ : ℤ} {passed : Option ℤ} {s s' : Reconnection}
    (h : s.Lost k₀ passed) {fuel : ℕ}
    (hrun : SortedMap.iterate observerInfo (observe E placeOf) fuel passed s = some s') :
    ¬ s'.Once k₀ := by
  obtain ⟨passed', hlost, -⟩ := SortedMap.iterate_invariant (P := Lost k₀)
    (fun _ _ _ _ h hnext => lost_observe h hnext) h hrun
  rintro ⟨⟨p, id⟩, hregistered, -⟩
  exact hlost.registered p id hregistered

/-! ## As long as the condition holds -/

/-- The loop is in front of `entries`, has given the ids in `given`, and each subscription that
it came to has one observer. -/
structure Settled (table : SortedMap ℤ ObserverInfo) (collections : Place → Collection)
    (entries : List (ℤ × ObserverInfo)) (given : List (Place × ℤ)) (passed : Option ℤ)
    (s : Reconnection) : Prop where
  sorted : entries.Pairwise fun e e' => e.1 < e'.1
  inTable : ∀ e ∈ entries, table.find? e.1 = some e.2
  ahead : ∀ q info, (Ahead passed q ∧ s.observerInfo.find? q = some info) ↔ (q, info) ∈ entries
  keys : ∀ q, table.find? q ≠ none → s.observerInfo.find? q ≠ none
  original : ∀ e ∈ entries, s.original e.1 = e.1
  observers : ∀ p id, id ∈ (s.collections p).observers ↔
    id ∈ (collections p).observers ∨ (p, id) ∈ given
  registered : ∀ p id, s.registered p id ≠ none ↔ (p, id) ∈ given
  once : ∀ k, table.find? k ≠ none → (∀ e ∈ entries, e.1 ≠ k) → s.Once k
  past : ∀ p id k, s.registered p id = some k → table.find? k ≠ none ∧ ∀ e ∈ entries, e.1 ≠ k

variable {table : SortedMap ℤ ObserverInfo} {collections : Place → Collection}
  {entries : List (ℤ × ObserverInfo)} {given : List (Place × ℤ)} {passed : Option ℤ}
  {s : Reconnection} {k : ℤ} {info : ObserverInfo}

theorem settled_start (table : SortedMap ℤ ObserverInfo) (subs : ℤ → Option ObjectId)
    (collections : Place → Collection) (nextNumber : ℤ) :
    Settled table collections table.entries [] none (start table subs collections nextNumber) where
  sorted := table.sorted
  inTable := fun _ he => SortedMap.find?_eq_some_iff.mpr he
  ahead := fun q info => by simp [start, SortedMap.find?_eq_some_iff, Ahead]
  keys := fun _ h => h
  original := fun _ _ => rfl
  observers := fun p id => by simp [start]
  registered := fun p id => by simp [start]
  once := fun k hk hnot => by
    obtain ⟨info, hinfo⟩ := Option.ne_none_iff_exists'.mp hk
    exact absurd rfl (hnot (k, info) (SortedMap.find?_eq_some_iff.mp hinfo))
  past := fun p id k h => by cases h

theorem Settled.next_eq (h : s.Settled table collections ((k, info) :: entries) given passed) :
    s.observerInfo.next passed = some (k, info) := by
  obtain ⟨hlt, hfind⟩ := (h.ahead k info).mpr List.mem_cons_self
  refine SortedMap.next_eq_some_iff.mpr ⟨hfind, hlt, fun q hq hltq => ?_⟩
  obtain ⟨info', hinfo'⟩ := Option.ne_none_iff_exists'.mp hq
  rcases List.mem_cons.mp ((h.ahead q info').mp ⟨hltq, hinfo'⟩) with heq | hmem
  · exact (Prod.mk.inj heq).1.ge
  · exact ((List.pairwise_cons.mp h.sorted).1 _ hmem).le

theorem Settled.next_eq_none (h : s.Settled table collections [] given passed) :
    s.observerInfo.next passed = none := by
  refine SortedMap.next_eq_none_iff.mpr fun q hlt => Option.eq_none_iff_forall_ne_some.mpr ?_
  exact fun info hfind => List.not_mem_nil ((h.ahead q info).mp ⟨hlt, hfind⟩)

/-- The condition, in terms of the id that the server gives. -/
theorem Settled.settles_cons_iff
    (h : s.Settled table collections ((k, info) :: entries) given passed) :
    Settles placeOf table collections ((k, info) :: entries) given s.nextNumber ↔
      (s.observeId placeOf k info ≤ k ∨ table.find? (s.observeId placeOf k info) ≠ none) ∧
        (placeOf info.url, s.observeId placeOf k info) ∉ given ∧
        Settles placeOf table collections entries
          ((placeOf info.url, s.observeId placeOf k info) :: given)
          (s.observe E placeOf k info).nextNumber := by
  have hobservers := h.observers (placeOf info.url) k
  rw [Settles]
  rcases observeId_cases E placeOf s k info with
    ⟨hne, hfree, hgiven, hnext⟩ | ⟨hrefused, hgiven, hnext⟩
  · rw [hobservers, not_or] at hfree
    rw [hgiven, hnext, if_neg (by simp [hne, hfree])]
    exact ⟨fun hrest => ⟨.inl le_rfl, hfree.2, hrest⟩, fun hrest => hrest.2.2⟩
  · rw [hobservers] at hrefused
    rw [hgiven, hnext, if_pos hrefused]

/-- A subscription that had no observer has the new one. -/
theorem once_observe_self (h : ∀ p id, s.registered p id ≠ some (s.original k)) :
    (s.observe E placeOf k info).Once (s.original k) := by
  refine ⟨(placeOf info.url, s.observeId placeOf k info), ?_, fun ⟨p, id⟩ hp => ?_⟩
  · exact (registered_observe _ _).trans (if_pos ⟨rfl, rfl⟩)
  · replace hp := (registered_observe p id).symm.trans hp
    split at hp
    · rename_i heq
      rw [heq.1, heq.2]
    · exact absurd hp (h p id)

/-- The other subscriptions keep theirs, when the id is not one of them. -/
theorem once_observe {k' : ℤ} (h : s.Once k') (hk : s.original k ≠ k')
    (hnone : s.registered (placeOf info.url) (s.observeId placeOf k info) = none) :
    (s.observe E placeOf k info).Once k' := by
  obtain ⟨⟨p, id⟩, hp, hunique⟩ := h
  refine ⟨(p, id), ?_, fun ⟨p', id'⟩ hp' => hunique (p', id') ?_⟩
  · refine (registered_observe p id).trans ((if_neg ?_).trans hp)
    rintro ⟨rfl, rfl⟩
    rw [hnone] at hp
    cases hp
  · replace hp' := (registered_observe p' id').symm.trans hp'
    split at hp'
    · exact absurd (Option.some.inj hp') hk
    · exact hp'

/-- What a request keeps. -/
theorem settled_observe (h : s.Settled table collections ((k, info) :: entries) given passed)
    (hbehind : s.observeId placeOf k info ≤ k ∨
      table.find? (s.observeId placeOf k info) ≠ none)
    (hnew : (placeOf info.url, s.observeId placeOf k info) ∉ given) :
    (s.observe E placeOf k info).Settled table collections entries
      ((placeOf info.url, s.observeId placeOf k info) :: given) (some k) := by
  obtain ⟨hlt, hfind⟩ := (h.ahead k info).mpr List.mem_cons_self
  obtain ⟨hahead, hsorted⟩ := List.pairwise_cons.mp h.sorted
  have horiginal : s.original k = k := h.original (k, info) List.mem_cons_self
  -- what is added to the table is not in front of the iterator
  have hadded : ∀ q : ℤ, k < q →
      ¬ (q = s.observeId placeOf k info ∧ s.observerInfo.find? q = none) := by
    rintro q hq ⟨rfl, hnone⟩
    rcases hbehind with hle | htable
    · exact hle.not_gt hq
    · exact h.keys _ htable hnone
  have hunregistered : ∀ p id, s.registered p id ≠ some k := fun p id heq =>
    (h.past p id k heq).2 (k, info) List.mem_cons_self rfl
  have hnone : s.registered (placeOf info.url) (s.observeId placeOf k info) = none :=
    by_contra fun hne => hnew ((h.registered _ _).mp hne)
  have hgiven : ∀ p id, (p, id) ∈ (placeOf info.url, s.observeId placeOf k info) :: given ↔
      (p = placeOf info.url ∧ id = s.observeId placeOf k info) ∨ (p, id) ∈ given :=
    fun p id => List.mem_cons.trans (or_congr_left Prod.mk_inj)
  refine ⟨hsorted, fun e he => h.inTable e (List.mem_cons_of_mem _ he), fun q info' => ?_,
    fun q hq => ?_, fun e he => ?_, fun p id => ?_, fun p id => ?_, fun k' hk' hnot => ?_,
    fun p id k' hk' => ?_⟩
  · rw [find?_observerInfo_observe]
    constructor
    · rintro ⟨hq, hfindq⟩
      rw [if_neg (hadded q hq)] at hfindq
      have hmem := (h.ahead q info').mp ⟨hlt.trans hq, hfindq⟩
      rcases List.mem_cons.mp hmem with heq | hmem
      · exact absurd (Prod.mk.inj heq).1 hq.ne'
      · exact hmem
    · intro hmem
      have hq : k < q := hahead _ hmem
      rw [if_neg (hadded q hq)]
      exact ⟨hq, ((h.ahead q info').mpr (List.mem_cons_of_mem _ hmem)).2⟩
  · rw [find?_observerInfo_observe]
    split
    · exact Option.some_ne_none _
    · exact h.keys q hq
  · rw [original_observe, if_neg (hadded e.1 (hahead e he))]
    exact h.original e (List.mem_cons_of_mem _ he)
  · rw [mem_observers_observe, h.observers, hgiven]
    exact or_left_comm
  · rw [registered_observe, hgiven, ← h.registered]
    split
    · rename_i heq
      simp [heq]
    · rename_i hne
      simp [hne]
  · by_cases hk : k' = k
    · have hself : (s.observe E placeOf k info).Once (s.original k) :=
        once_observe_self fun p id => by
          rw [horiginal]
          exact hunregistered p id
      subst hk
      rwa [horiginal] at hself
    · refine once_observe (h.once k' hk' fun e he => ?_) ?_ hnone
      · rcases List.mem_cons.mp he with rfl | he
        · exact Ne.symm hk
        · exact hnot e he
      · rw [horiginal]
        exact Ne.symm hk
  · rw [registered_observe] at hk'
    split at hk'
    · rw [horiginal, Option.some.injEq] at hk'
      rw [← hk']
      exact ⟨by simp [h.inTable (k, info) List.mem_cons_self], fun e he => (hahead e he).ne'⟩
    · obtain ⟨htable, hnot⟩ := h.past p id k' hk'
      exact ⟨htable, fun e he => hnot e (List.mem_cons_of_mem _ he)⟩

/-- The condition is enough. By induction on the entries in front of the iterator. -/
theorem exists_iterate_of_settles (h : s.Settled table collections entries given passed)
    (hsettles : Settles placeOf table collections entries given s.nextNumber) :
    ∃ s', SortedMap.iterate observerInfo (observe E placeOf) (entries.length + 1) passed s =
        some s' ∧ ∀ k, table.find? k ≠ none → s'.Once k := by
  induction entries generalizing given passed s with
  | nil =>
    exact ⟨s, SortedMap.iterate_of_next_eq_none h.next_eq_none 0,
      fun k hk => h.once k hk fun e he => absurd he List.not_mem_nil⟩
  | cons e entries ih =>
    obtain ⟨k, info⟩ := e
    obtain ⟨hbehind, hnew, hrest⟩ := (h.settles_cons_iff (E := E)).mp hsettles
    rw [List.length_cons, SortedMap.iterate_of_next h.next_eq]
    exact ih (settled_observe h hbehind hnew) hrest

/-- An id in front of the iterator that is new to the table gives its subscription two
observers. -/
theorem twice_of_ahead (h : s.Settled table collections ((k, info) :: entries) given passed)
    (hs : s.Ints) (hahead : k < s.observeId placeOf k info)
    (htable : table.find? (s.observeId placeOf k info) = none) :
    Twice placeOf (placeOf info.url) (s.observeId placeOf k info) k (some k)
      (s.observe E placeOf k info) := by
  obtain ⟨hlt, hfind⟩ := (h.ahead k info).mpr List.mem_cons_self
  have hk : IsInt k := hs.keys k (by simp [hfind])
  have horiginal : s.original k = k := h.original (k, info) List.mem_cons_self
  have hnone : s.observerInfo.find? (s.observeId placeOf k info) = none := by
    refine Option.eq_none_iff_forall_ne_some.mpr fun info' hinfo' => ?_
    have hmem := (h.ahead _ info').mp ⟨hlt.trans hahead, hinfo'⟩
    rw [h.inTable _ hmem] at htable
    cases htable
  refine ⟨ints_observe hs hk, ?_, .inl ⟨hahead, ?_, info, ?_, rfl⟩⟩
  · rcases observeId_cases E placeOf s k info with
      ⟨-, -, hgiven, -⟩ | ⟨hrefused, hgiven, -⟩
    · exact absurd hgiven hahead.ne'
    · have hkept := kept_of_refused (E := E) hk hrefused
      rwa [horiginal, ← hgiven] at hkept
  · rw [original_observe, if_pos ⟨rfl, hnone⟩, horiginal]
  · rw [find?_observerInfo_observe, if_pos ⟨rfl, hnone⟩]

/-- An id that was given before takes the observer of its subscription. -/
theorem exists_lost_of_given
    (h : s.Settled table collections ((k, info) :: entries) given passed)
    (hgiven : (placeOf info.url, s.observeId placeOf k info) ∈ given) :
    ∃ k₀, table.find? k₀ ≠ none ∧ (s.observe E placeOf k info).Lost k₀ (some k) := by
  obtain ⟨k₀, hk₀⟩ := Option.ne_none_iff_exists'.mp ((h.registered _ _).mpr hgiven)
  obtain ⟨htable, hpast⟩ := h.past _ _ k₀ hk₀
  obtain ⟨hlt, hfind⟩ := (h.ahead k info).mpr List.mem_cons_self
  have horiginal : s.original k = k := h.original (k, info) List.mem_cons_self
  have hk : k ≠ k₀ := hpast (k, info) List.mem_cons_self
  obtain ⟨p, hp, hunique⟩ := h.once k₀ htable hpast
  refine ⟨k₀, htable, fun p' id' => ?_, fun q hq hfindq => ?_⟩
  · rw [registered_observe]
    split
    · rw [horiginal]
      exact fun heq => hk (Option.some.inj heq)
    · rename_i hne
      intro heq
      have hsame : (p', id') = (placeOf info.url, s.observeId placeOf k info) :=
        (hunique (p', id') heq).trans (hunique _ hk₀).symm
      exact hne (Prod.mk.inj hsame)
  · rw [original_observe]
    rw [find?_observerInfo_observe] at hfindq
    split
    · rwa [horiginal]
    · rename_i hnot
      rw [if_neg hnot] at hfindq
      obtain ⟨info', hinfo'⟩ := Option.ne_none_iff_exists'.mp hfindq
      have hmem := (h.ahead q info').mp ⟨hlt.trans hq, hinfo'⟩
      rw [h.original _ hmem]
      exact hpast _ hmem

/-- The condition is needed. By induction on the entries in front of the iterator. -/
theorem settles_of_iterate (h : s.Settled table collections entries given passed) (hs : s.Ints)
    {fuel : ℕ} {s' : Reconnection}
    (hrun : SortedMap.iterate observerInfo (observe E placeOf) fuel passed s = some s')
    (honce : ∀ k, table.find? k ≠ none → s'.Once k) :
    Settles placeOf table collections entries given s.nextNumber := by
  induction entries generalizing given passed s fuel with
  | nil => trivial
  | cons e entries ih =>
    obtain ⟨k, info⟩ := e
    cases fuel with
    | zero => cases hrun
    | succ fuel =>
      rw [SortedMap.iterate_of_next h.next_eq] at hrun
      have htable : table.find? k = some info := h.inTable (k, info) List.mem_cons_self
      have hbehind : s.observeId placeOf k info ≤ k ∨
          table.find? (s.observeId placeOf k info) ≠ none := by
        by_contra! hnot
        exact not_once_of_twice (twice_of_ahead h hs hnot.1 hnot.2) hrun
          (honce k (by simp [htable]))
      have hnew : (placeOf info.url, s.observeId placeOf k info) ∉ given := by
        intro hgiven
        obtain ⟨k₀, hk₀, hlost⟩ := exists_lost_of_given (E := E) h hgiven
        exact not_once_of_lost hlost hrun (honce k₀ hk₀)
      have hfind := ((h.ahead k info).mpr List.mem_cons_self).2
      exact (h.settles_cons_iff (E := E)).mpr ⟨hbehind, hnew,
        ih (settled_observe h hbehind hnew) (ints_observe hs (hs.keys k (by simp [hfind]))) hrun⟩

/-! ## Exactly when -/

theorem settles_of_resubscribes {subs : ℤ → Option ObjectId} {nextNumber : ℤ}
    (hkeys : ∀ k, table.find? k ≠ none → IsInt k) (hnext : IsInt nextNumber)
    (h : Resubscribes E placeOf table subs collections nextNumber) :
    Settles placeOf table collections table.entries [] nextNumber := by
  obtain ⟨fuel, s, hrun, honce⟩ := h
  exact settles_of_iterate (settled_start table subs collections nextNumber) ⟨hkeys, hnext⟩
    hrun honce

/-- **Each subscription gets exactly one observer** exactly when the condition holds. -/
theorem resubscribes_iff (E : Place → Env) (placeOf : QString → Place)
    (table : SortedMap ℤ ObserverInfo) (subs : ℤ → Option ObjectId)
    (collections : Place → Collection) (nextNumber : ℤ)
    (hkeys : ∀ k, table.find? k ≠ none → IsInt k) (hnext : IsInt nextNumber) :
    Resubscribes E placeOf table subs collections nextNumber ↔
      Settles placeOf table collections table.entries [] nextNumber := by
  refine ⟨settles_of_resubscribes hkeys hnext, fun hsettles => ?_⟩
  obtain ⟨s, hrun, honce⟩ := exists_iterate_of_settles (E := E)
    (settled_start table subs collections nextNumber) hsettles
  exact ⟨_, s, hrun, honce⟩

/-! ## When all ids are accepted -/

/-- The tables of the client behind the entries up to `passed`. -/
structure Accepted (table : SortedMap ℤ ObserverInfo) (subs : ℤ → Option ObjectId)
    (collections : Place → Collection) (passed : Option ℤ) (s : Reconnection) : Prop where
  observerInfo : s.observerInfo.find? = table.find?
  subs : ∀ id : ℤ, s.subs id =
    if Ahead passed id then subs id else ((table.find? id).map ObserverInfo.sub).or (subs id)
  observers : ∀ p (id : ℤ), id ∈ (s.collections p).observers →
    id ∈ (collections p).observers ∨ ¬ Ahead passed id

theorem accepted_observe {subs : ℤ → Option ObjectId}
    (hfree : ∀ k info, table.find? k = some info →
      k ≠ -1 ∧ k ∉ (collections (placeOf info.url)).observers)
    (h : s.Accepted table subs collections passed)
    (hnext : s.observerInfo.next passed = some (k, info)) :
    (s.observe E placeOf k info).Accepted table subs collections (some k) := by
  obtain ⟨hfind, hlt, hle⟩ := SortedMap.next_eq_some_iff.mp hnext
  have htable : table.find? k = some info := by rw [← h.observerInfo, hfind]
  obtain ⟨hne, hnot⟩ := hfree k info htable
  have hgiven : s.observeId placeOf k info = k := by
    rcases observeId_cases E placeOf s k info with ⟨-, -, hgiven, -⟩ | ⟨hrefused | hrefused, -⟩
    · exact hgiven
    · exact absurd hrefused hne
    · rcases h.observers _ _ hrefused with hold | hpassed
      · exact absurd hold hnot
      · exact absurd hlt hpassed
  obtain ⟨-, hsubs, hinfo⟩ := QDocdbClient.mk.inj (observe_eq_client E placeOf s k info)
  rw [hgiven] at hsubs hinfo
  dsimp only at hsubs hinfo
  refine ⟨?_, fun id => ?_, fun p id hid => ?_⟩
  · rw [hinfo, ← h.observerInfo]
    simp [hfind]
  · rw [hsubs, Function.update_apply, h.subs]
    rcases lt_trichotomy id k with hlt' | rfl | hgt
    · have hpassed : ¬ Ahead (some k) id := hlt'.not_gt
      rw [if_neg hlt'.ne, if_neg hpassed]
      split
      · -- no entry lies between the two
        rename_i hahead
        have hnone : table.find? id = none := by
          by_contra hsome
          exact (hle id (h.observerInfo ▸ hsome) hahead).not_gt hlt'
        simp [hnone]
      · rfl
    · simp [htable, Ahead]
    · have hahead : Ahead (some k) id := hgt
      rw [if_neg hgt.ne', if_pos (hlt.trans hgt), if_pos hahead]
  · rcases mem_observers_observe.mp hid with ⟨-, rfl⟩ | hid
    · exact .inr fun hahead : k < s.observeId placeOf k info => hahead.ne' hgiven
    · exact (h.observers p id hid).imp_right fun hpassed hahead =>
        hpassed (hlt.trans hahead)

/-- When the server accepts all ids, the tables of the client are those of
`QDocdbClient.onConnectTimer`. -/
theorem onConnectTimerLoop_eq_client {subs : ℤ → Option ObjectId} {nextNumber : ℤ}
    {connected : Bool}
    (hfree : ∀ k info, table.find? k = some info →
      k ≠ -1 ∧ k ∉ (collections (placeOf info.url)).observers) {fuel : ℕ} {s : Reconnection}
    (h : onConnectTimerLoop E placeOf fuel (start table subs collections nextNumber) = some s) :
    (⟨true, s.subs, s.observerInfo.find?⟩ : QDocdbClient) =
      (⟨connected, subs, table.find?⟩ : QDocdbClient).onConnectTimer := by
  have hstart : (start table subs collections nextNumber).Accepted table subs collections none :=
    ⟨rfl, fun id => by simp [start, Ahead], fun p id hid => .inl hid⟩
  obtain ⟨passed, haccepted, hnone⟩ := SortedMap.iterate_invariant
    (P := Accepted table subs collections) (fun _ _ _ _ => accepted_observe hfree) hstart h
  rw [QDocdbClient.onConnectTimer, haccepted.observerInfo, QDocdbClient.mk.injEq]
  refine ⟨rfl, funext fun id => ?_, rfl⟩
  dsimp only
  rw [haccepted.subs]
  split
  · rename_i hahead
    have hid := SortedMap.next_eq_none_iff.mp hnone id hahead
    rw [haccepted.observerInfo] at hid
    rw [hid]
  · cases table.find? id <;> rfl

/-! ## Another client was faster -/

/-- An empty collection in which another client observes with the given id. -/
def observedBy (observeId : ℤ) : Collection :=
  ((Collection.open (Env.plain .map) .empty).observe (Env.plain .map) [] [] observeId 1).2.2

/-- The table of a client with subscriptions to all documents of one collection. -/
def subscribedTo (ids : List ℤ) : SortedMap ℤ ObserverInfo :=
  ids.foldr (fun id table => table.insert id ⟨0, [], [], []⟩) .empty

theorem isInt_of_find?_subscribedTo {ids : List ℤ} (hids : ∀ id ∈ ids, IsInt id) {k : ℤ}
    (h : (subscribedTo ids).find? k ≠ none) : IsInt k := by
  induction ids with
  | nil => exact absurd rfl h
  | cons id ids ih =>
    rw [subscribedTo, List.foldr_cons, SortedMap.find?_insert] at h
    split at h
    · rename_i hk
      rw [hk]
      exact hids id List.mem_cons_self
    · exact ih (fun id' hid' => hids id' (List.mem_cons_of_mem _ hid')) h

/-- The client subscribes again while another client has one of its ids. -/
theorem exists_onConnectTimerLoop_observedBy :
    ∃ s, onConnectTimerLoop (fun _ => Env.plain .map) (fun _ => ([], [])) (2 ^ 32 + 1)
      (start (subscribedTo [1, 3]) (fun _ => none) (fun _ => observedBy 3) 2) = some s :=
  exists_onConnectTimerLoop ⟨fun _ => isInt_of_find?_subscribedTo (by decide), by decide⟩

/-- Another client has the id `2`, which the client does not ask for. -/
theorem onConnectTimerLoop_subscribedTo :
    ∃ s, onConnectTimerLoop (fun _ => Env.plain .map) (fun _ => ([], [])) 3
        (start (subscribedTo [1, 3]) (fun _ => none) (fun _ => observedBy 2) 3) = some s ∧
      (⟨true, s.subs, s.observerInfo.find?⟩ : QDocdbClient) =
        (⟨false, fun _ => none, (subscribedTo [1, 3]).find?⟩ : QDocdbClient).onConnectTimer := by
  obtain ⟨s, hs⟩ := Option.isSome_iff_exists.mp
    (show (onConnectTimerLoop (fun _ => Env.plain .map) (fun _ => ([], [])) 3
      (start (subscribedTo [1, 3]) (fun _ => none) (fun _ => observedBy 2) 3)).isSome = true by
        decide)
  refine ⟨s, hs, onConnectTimerLoop_eq_client (fun k info hk => ?_) hs⟩
  have hkeys : k = 1 ∨ k = 3 := by
    rw [subscribedTo, List.foldr_cons, List.foldr_cons, List.foldr_nil, SortedMap.find?_insert,
      SortedMap.find?_insert, SortedMap.find?_empty] at hk
    split at hk
    · exact .inl ‹_›
    · split at hk
      · exact .inr ‹_›
      · cases hk
  rcases hkeys with rfl | rfl
  · exact ⟨by decide, by decide⟩
  · exact ⟨by decide, by decide⟩

/-- Another client has the id `3` of the collection, and the next number is `2`: the new entry
is behind the iterator. -/
theorem resubscribes_observedBy :
    Resubscribes (fun _ => Env.plain .map) (fun _ => ([], [])) (subscribedTo [1, 3])
      (fun _ => none) (fun _ => observedBy 3) 2 := by
  refine (resubscribes_iff _ _ _ _ _ 2 (fun k => isInt_of_find?_subscribedTo (by decide))
    (by decide)).mpr ?_
  have hentries : (subscribedTo [1, 3]).entries =
      [(1, ⟨0, [], [], []⟩), (3, ⟨0, [], [], []⟩)] := rfl
  have hfree : 1 ∉ (observedBy 3).observers := by decide
  have hused : 3 ∈ (observedBy 3).observers := by decide
  rw [hentries, Settles, if_neg (by simp [hfree]), Settles, if_pos (.inr (.inl hused))]
  exact ⟨.inl (by decide), by decide, trivial⟩

/-- Another client has the id `1` that the subscription had, and the next number is `2`. -/
theorem not_resubscribes :
    ¬ ∀ (E : Place → Env) (placeOf : QString → Place) (table : SortedMap ℤ ObserverInfo)
      (subs : ℤ → Option ObjectId) (collections : Place → Collection) (nextNumber : ℤ),
      (∀ k, table.find? k ≠ none → IsInt k) → IsInt nextNumber →
      Resubscribes E placeOf table subs collections nextNumber := by
  intro h
  have hkeys : ∀ k, (subscribedTo [1]).find? k ≠ none → IsInt k :=
    fun k => isInt_of_find?_subscribedTo (by decide)
  have hsettles := settles_of_resubscribes hkeys (by decide) (h (fun _ => Env.plain .map)
    (fun _ => ([], [])) (subscribedTo [1]) (fun _ => none) (fun _ => observedBy 1) 2 hkeys
    (by decide))
  have hentries : (subscribedTo [1]).entries = [(1, ⟨0, [], [], []⟩)] := rfl
  have hused : 1 ∈ (observedBy 1).observers := by decide
  rw [hentries, Settles, if_pos (.inr (.inl hused))] at hsettles
  rcases hsettles.1 with hle | htable
  · exact absurd hle (by decide)
  · exact htable rfl

end Reconnection

end Qdocdb
