import Qdocdb.Find
import Qdocdb.Options
import Qdocdb.Replies

/-!
# Patches of replies

An operation of a transaction changes one document at most, and the replies of the observers
are patched instead of found again. What `find` could return is a selection of the documents
that match, so the patches of selections say when a patch is right (`Change.Keeps`): a
document that is no longer there, or no longer matches, must not be shown; a document that
is shown is only removed while nothing was left out; and a document that comes anew or
changes must not meet a limit that shows others in its place.
-/

namespace Qdocdb

/-! ## Documents and their ids -/

/-- The document names the id. -/
def NamesId (o : QJsonObject) (id : QByteArray) : Prop :=
  ∃ sid, QJsonObject.value o (qs "_id") = .string sid ∧ toLatin1 sid = id

section NamesId

variable {o o' : QJsonObject} {id id' : QByteArray}

theorem NamesId.eq (h : NamesId o id) (h' : NamesId o id') : id = id' := by
  obtain ⟨sid, hsid, rfl⟩ := h
  obtain ⟨sid', hsid', rfl⟩ := h'
  rw [QJsonValue.string.inj (hsid.symm.trans hsid')]

theorem NamesId.sameId_iff (h : NamesId o id) (h' : NamesId o' id') :
    sameId o (.object o') = true ↔
      QJsonObject.value o (qs "_id") = QJsonObject.value o' (qs "_id") := by
  obtain ⟨sid, hsid, -⟩ := h
  obtain ⟨sid', hsid', -⟩ := h'
  rw [sameId, QJsonValue.toObject, hsid, hsid', QJsonValue.eq, decide_eq_true_iff,
    QJsonValue.string.injEq]

theorem NamesId.eq_of_value (h : NamesId o id) (h' : NamesId o' id')
    (hvalue : QJsonObject.value o (qs "_id") = QJsonObject.value o' (qs "_id")) : id = id' := by
  obtain ⟨sid, hsid, rfl⟩ := h
  exact NamesId.eq ⟨sid, hvalue ▸ hsid, rfl⟩ h'

theorem NamesId.value_eq_of_nameOf (h : NamesId o id) (h' : NamesId o' id')
    (hname : nameOf (.object o) = nameOf (.object o')) :
    QJsonObject.value o (qs "_id") = QJsonObject.value o' (qs "_id") := by
  obtain ⟨sid, hsid, -⟩ := h
  obtain ⟨sid', hsid', -⟩ := h'
  rw [nameOf, nameOf, QJsonValue.toObject, QJsonValue.toObject, hsid, hsid', QJsonValue.toQString,
    QJsonValue.toQString] at hname
  rw [hsid, hsid', hname]

end NamesId

/-- The documents that are seen, by their ids. -/
abbrev View : Type := QByteArray → Option QJsonObject

/-- Each document is seen under the id that it names. -/
def View.Named (V : View) : Prop := ∀ id o, V id = some o → NamesId o id

theorem View.Named.update {V : View} (hV : V.Named) {id : QByteArray} {x : Option QJsonObject}
    (hx : ∀ o, x = some o → NamesId o id) : View.Named (Function.update V id x) := by
  intro id' o ho
  by_cases hid : id' = id
  · subst hid
    rw [Function.update_self] at ho
    exact hx o ho
  · rw [Function.update_of_ne hid] at ho
    exact hV id' o ho

/-! ## What an observer shows -/

namespace Observer

/-- The reply after a document was inserted. -/
theorem reply_inserted (E : Env) (ob : Observer) (o : QJsonObject) (isOld : Bool) :
    (ob.inserted E o isOld).reply =
      if Matches E ob.query (.object o) then
        applyOptionsReply (if isOld then replaceFirst o ob.reply else ob.reply ++ [.object o])
          ob.queryOptions
      else ob.reply :=
  apply_ite Observer.reply _ _ _

/-- The reply after a document was removed. -/
theorem reply_removed (E : Env) (ob : Observer) (doc : QJsonObject) :
    (ob.removed E doc).reply =
      if Matches E ob.query (.object doc) ∧ ob.reply.any (sameId doc) then
        applyOptionsReply (ob.reply.eraseP (sameId doc)) ob.queryOptions
      else ob.reply :=
  apply_ite Observer.reply _ _ _

/-- The documents that match. -/
def matching (E : Env) (ob : Observer) (V : View) : Set QJsonValue :=
  {v | ∃ id o, V id = some o ∧ v = .object o ∧ Matches E ob.query v}

/-- The options that `find` applies: none when it answers from link keys. -/
def findOptions (indexes : List (QString × QString)) (ob : Observer) : QJsonObject :=
  if Indexed indexes ob.query then [] else ob.queryOptions

/-- `find` swaps the two documents when they meet in this order. -/
def late (indexes : List (QString × QString)) (ob : Observer) : QJsonValue → QJsonValue → Bool :=
  outOfOrder (ob.findOptions indexes)

/-- The limit that `find` keeps. -/
def limit (indexes : List (QString × QString)) (ob : Observer) : Option ℕ :=
  limitOf (ob.findOptions indexes)

/-- The reply is a selection of the documents that match. -/
def Shows (E : Env) (indexes : List (QString × QString)) (V : View) (ob : Observer)
    (reply : List QJsonValue) : Prop :=
  Selection (ob.late indexes) (ob.limit indexes) (ob.matching E V) reply

/-- The reply has the document that is seen under the id. -/
def ShowsId (V : View) (ob : Observer) (id : QByteArray) : Prop :=
  ∃ o, V id = some o ∧ .object o ∈ ob.reply

/-- When `find` ignores the options, `k` documents are within their limit. -/
def Fits (indexes : List (QString × QString)) (ob : Observer) (k : ℕ) : Prop :=
  Indexed indexes ob.query → ∀ n ∈ limitOf ob.queryOptions, k ≤ n

variable {E : Env} {indexes : List (QString × QString)} {V : View} {ob : Observer}
  {id : QByteArray} {o : QJsonObject}

/-- Documents that match have different names. -/
theorem namesApart_of_forall (hV : V.Named) {l : List QJsonValue}
    (hl : ∀ v ∈ l, v ∈ ob.matching E V) : NamesApart l := by
  intro v hv w hw hname
  obtain ⟨id, o, ho, rfl, -⟩ := hl v hv
  obtain ⟨id', o', ho', rfl, -⟩ := hl w hw
  have hvalue := (hV id o ho).value_eq_of_nameOf (hV id' o' ho') hname
  obtain rfl := (hV id o ho).eq_of_value (hV id' o' ho') hvalue
  rw [Option.some.inj (ho.symm.trans ho')]

/-- **Applying the options** sorts and cuts as `find` does, as long as nothing is cut off that
`find` would return. -/
theorem exists_applyOptionsReply_findOptions {l : List QJsonValue} (hnames : NamesApart l)
    (hfits : ob.Fits indexes l.length) :
    ∃ l', l'.Perm l ∧ Ordered (ob.late indexes) l' ∧
      applyOptionsReply l ob.queryOptions = cut (ob.limit indexes) l' := by
  obtain ⟨l', hperm, hordered, heq⟩ := exists_applyOptionsReply hnames ob.queryOptions
  by_cases hindexed : Indexed indexes ob.query
  · have hlate : ob.late indexes = fun _ _ => false := by
      funext v w
      simp [late, findOptions, hindexed, outOfOrder, QJsonObject.contains]
    have hlimit : ob.limit indexes = none := by
      simp [limit, findOptions, hindexed, limitOf, QJsonObject.contains]
    refine ⟨l', hperm, hlate ▸ ordered_false l', ?_⟩
    rw [heq, hlimit]
    exact cut_of_length_le fun n hn => hperm.length_eq.trans_le (hfits hindexed n hn)
  · have hoptions : ob.findOptions indexes = ob.queryOptions := if_neg hindexed
    rw [late, limit, hoptions]
    exact ⟨l', hperm, hordered, heq⟩

/-! ## The documents that match after a change -/

theorem matching_update_of_none (h : V id = none) :
    ob.matching E (Function.update V id none) = ob.matching E V := by
  rw [Function.update_eq_self_iff.mpr h.symm]

theorem matching_update_of_some (hV : V.Named) (h : V id = some o) :
    ob.matching E (Function.update V id none) = ob.matching E V \ {.object o} := by
  ext v
  constructor
  · rintro ⟨id', o', ho', rfl, hmatch⟩
    by_cases hid : id' = id
    · rw [hid, Function.update_self] at ho'
      cases ho'
    · rw [Function.update_of_ne hid] at ho'
      refine ⟨⟨id', o', ho', rfl, hmatch⟩, fun heq => hid ?_⟩
      obtain rfl := QJsonValue.object.inj heq
      exact (hV _ _ ho').eq (hV _ _ h)
  · rintro ⟨⟨id', o', ho', rfl, hmatch⟩, hne⟩
    refine ⟨id', o', ?_, rfl, hmatch⟩
    rw [Function.update_of_ne, ho']
    rintro rfl
    rw [h] at ho'
    exact hne (congrArg QJsonValue.object (Option.some.inj ho').symm)

/-- What matches after a change is the new document, or a document of another id. -/
theorem mem_matching_update {x : Option QJsonObject} {v : QJsonValue} :
    v ∈ ob.matching E (Function.update V id x) ↔
      (∃ o, x = some o ∧ v = .object o ∧ Matches E ob.query v) ∨
        v ∈ ob.matching E (Function.update V id none) := by
  constructor
  · rintro ⟨id', o', ho', rfl, hmatch⟩
    by_cases hid : id' = id
    · rw [hid, Function.update_self] at ho'
      exact .inl ⟨o', ho', rfl, hmatch⟩
    · rw [Function.update_of_ne hid] at ho'
      exact .inr ⟨id', o', by rw [Function.update_of_ne hid, ho'], rfl, hmatch⟩
  · rintro (⟨o, rfl, rfl, hmatch⟩ | ⟨id', o', ho', rfl, hmatch⟩)
    · exact ⟨id, o, Function.update_self .., rfl, hmatch⟩
    · by_cases hid : id' = id
      · rw [hid, Function.update_self] at ho'
        cases ho'
      · rw [Function.update_of_ne hid] at ho'
        exact ⟨id', o', by rw [Function.update_of_ne hid, ho'], rfl, hmatch⟩

theorem matching_update_of_matches (hmatch : Matches E ob.query (.object o)) :
    ob.matching E (Function.update V id (some o)) =
      insert (.object o) (ob.matching E (Function.update V id none)) := by
  ext v
  rw [mem_matching_update, Set.mem_insert_iff]
  refine or_congr_left ⟨?_, ?_⟩
  · rintro ⟨o', ho', rfl, -⟩
    rw [Option.some.inj ho']
  · rintro rfl
    exact ⟨o, rfl, rfl, hmatch⟩

theorem matching_update_of_not_matches (hmatch : ¬ Matches E ob.query (.object o)) :
    ob.matching E (Function.update V id (some o)) =
      ob.matching E (Function.update V id none) := by
  ext v
  rw [mem_matching_update]
  refine or_iff_right ?_
  rintro ⟨o', ho', rfl, hmatch'⟩
  exact hmatch (Option.some.inj ho' ▸ hmatch')

/-- A document is not among those of other ids. -/
theorem object_notMem_matching_update (hV : V.Named) (ho : NamesId o id) :
    .object o ∉ ob.matching E (Function.update V id none) := by
  rintro ⟨id', o', ho', heq, -⟩
  obtain rfl := QJsonValue.object.inj heq
  by_cases hid : id' = id
  · rw [hid, Function.update_self] at ho'
    cases ho'
  · rw [Function.update_of_ne hid] at ho'
    exact hid ((hV _ _ ho').eq ho)

/-- Without the document of an id the reply is a selection of the others. -/
theorem Shows.forget {reply : List QJsonValue} (h : ob.Shows E indexes V reply) (hV : V.Named)
    (hnot : ¬ ∃ o, V id = some o ∧ .object o ∈ reply) :
    ob.Shows E indexes (Function.update V id none) reply := by
  rw [Shows]
  cases hid : V id with
  | none =>
    rw [matching_update_of_none hid]
    exact h
  | some o =>
    rw [matching_update_of_some hV hid]
    exact h.erase_of_notMem fun ho => hnot ⟨o, hid, ho⟩

theorem limit_of_indexed (h : Indexed indexes ob.query) : ob.limit indexes = none := by
  simp [limit, findOptions, h, limitOf, QJsonObject.contains]

/-- What is shown in order is left as it is. -/
theorem Shows.applyOptionsReply_eq {reply : List QJsonValue} (h : ob.Shows E indexes V reply)
    (hV : V.Named) (hindexed : ¬ Indexed indexes ob.query) :
    applyOptionsReply reply ob.queryOptions = reply := by
  have hoptions : ob.findOptions indexes = ob.queryOptions := if_neg hindexed
  have hordered : Ordered (outOfOrder ob.queryOptions) reply := hoptions ▸ h.ordered
  have hlength : ∀ n ∈ limitOf ob.queryOptions, reply.length ≤ n := hoptions ▸ h.length_le
  rw [applyOptionsReply_of_ordered (namesApart_of_forall hV h.subset) hordered]
  exact cut_of_length_le hlength

end Observer

/-! ## Lists of documents -/

section Lists

variable {doc : QJsonObject} {x : QJsonValue} {l : List QJsonValue}

/-- Replacing the one document with the `_id`. -/
theorem replaceFirst_perm (hx : x ∈ l) (h : ∀ v ∈ l, sameId doc v = true ↔ v = x) :
    (replaceFirst doc l).Perm (.object doc :: l.erase x) := by
  induction l with
  | nil => cases hx
  | cons v l ih =>
    rw [replaceFirst]
    by_cases hv : v = x
    · rw [if_pos ((h v List.mem_cons_self).mpr hv), hv, List.erase_cons_head]
    · have hxl : x ∈ l := (List.mem_cons.mp hx).resolve_left (Ne.symm hv)
      rw [if_neg (mt (h v List.mem_cons_self).mp hv), List.erase_cons_tail (by simpa using hv)]
      exact ((ih hxl fun w hw => h w (List.mem_cons_of_mem v hw)).cons v).trans (.swap _ _ _)

/-- Erasing the one document with the `_id`. -/
theorem eraseP_sameId (h : ∀ v ∈ l, sameId doc v = true ↔ v = x) :
    l.eraseP (sameId doc) = l.erase x := by
  induction l with
  | nil => rfl
  | cons v l ih =>
    by_cases hv : v = x
    · rw [List.eraseP_cons_of_pos ((h v List.mem_cons_self).mpr hv), hv, List.erase_cons_head]
    · rw [List.eraseP_cons_of_neg (mt (h v List.mem_cons_self).mp hv),
        List.erase_cons_tail (by simpa using hv), ih fun w hw => h w (List.mem_cons_of_mem v hw)]

end Lists

/-! ## Changes -/

/-- What an operation of a transaction comes to: nothing, a document is stored, one is found
and removed, or the removal breaks off in its index loop, behind the writes to the version. -/
inductive Change where
  | refused
  | stored (id : QByteArray) (o : QJsonObject) (isOld : Bool)
  | removed (id : QByteArray) (doc : QJsonObject)
  | brokenOff (id : QByteArray)

namespace Change

/-- The documents afterwards. -/
def view (V : View) : Change → View
  | refused => V
  | stored id o _ => Function.update V id (some o)
  | removed id _ => Function.update V id none
  | brokenOff id => Function.update V id none

/-- The observers afterwards. -/
def patch (E : Env) : Change → Observer → Observer
  | stored _ o isOld, ob => ob.inserted E o isOld
  | removed _ doc, ob => ob.removed E doc
  | _, ob => ob

/-- A document that is stored names its id. -/
def NamesIds : Change → Prop
  | stored id o _ => NamesId o id
  | _ => True

section Keeps

variable (E : Env) (indexes : List (QString × QString)) (V : View) (ob : Observer)
  (id : QByteArray) (o : QJsonObject)

/-- The document is appended: no other document of its id is shown, and it can be compared
with the others unless there is room for all of them. -/
def Appends : Prop :=
  ¬ ob.ShowsId V id ∧ ob.Fits indexes (ob.reply.length + 1) ∧
    (HasRoom (ob.limit indexes) ob.reply ∨
      Comparable (ob.late indexes) (ob.matching E (Function.update V id (some o))))

/-- The document takes the place of the one that is shown: that has the same `_id`, and nothing
that was left out comes before the new one. -/
def Replaces : Prop :=
  ∃ old, V id = some old ∧ .object old ∈ ob.reply ∧
    QJsonObject.value old (qs "_id") = QJsonObject.value o (qs "_id") ∧
    ob.Fits indexes ob.reply.length ∧
    ∀ v ∈ ob.matching E V, v ∉ ob.reply → ob.late indexes (.object o) v = false

/-- The document stays out of the reply: that is full, and the document does not come before any
that is shown. -/
def StaysOut : Prop :=
  ¬ ob.ShowsId V id ∧ ¬ HasRoom (ob.limit indexes) ob.reply ∧
    ∀ v ∈ ob.reply, ob.late indexes v (.object o) = false

/-- The document is taken out of a reply that shows everything. -/
def Erases : Prop :=
  V id = some o ∧ (∀ v ∈ ob.matching E V, v ∈ ob.reply) ∧ ob.Fits indexes (ob.reply.length - 1)

/-- The patch of the observer is right for the change. -/
def Keeps : Change → Prop
  | refused => True
  | stored id o isOld =>
    if Matches E ob.query (.object o) then
      if isOld then Replaces E indexes V ob id o ∨ StaysOut indexes V ob id o
      else Appends E indexes V ob id o
    else ¬ ob.ShowsId V id
  | removed id doc =>
    if Matches E ob.query (.object doc) ∧ ob.reply.any (sameId doc) then Erases E indexes V ob id doc
    else ¬ ob.ShowsId V id
  | brokenOff id => ¬ ob.ShowsId V id

end Keeps

variable {E : Env} {indexes : List (QString × QString)} {V : View} {ob : Observer}
  {id : QByteArray} {o : QJsonObject}

theorem named_view (hV : V.Named) {c : Change} (hc : c.NamesIds) : View.Named (c.view V) := by
  cases c with
  | refused => exact hV
  | stored id o isOld => exact hV.update fun o' ho' => Option.some.inj ho' ▸ hc
  | removed id doc => exact hV.update fun _ h => nomatch h
  | brokenOff id => exact hV.update fun _ h => nomatch h

/-- Of what is shown, only the document that is seen under the id has the `_id` of another
document for it. -/
theorem sameId_iff (hV : V.Named) (h : ob.Shows E indexes V ob.reply) (ho : NamesId o id)
    {old : QJsonObject} (hold : V id = some old)
    (hvalue : QJsonObject.value old (qs "_id") = QJsonObject.value o (qs "_id")) :
    ∀ v ∈ ob.reply, sameId o v = true ↔ v = .object old := by
  intro v hv
  obtain ⟨id', o', ho', rfl, -⟩ := h.subset v hv
  rw [ho.sameId_iff (hV id' o' ho')]
  constructor
  · intro heq
    obtain rfl := ho.eq_of_value (hV id' o' ho') heq
    rw [Option.some.inj (ho'.symm.trans hold)]
  · intro heq
    rw [QJsonValue.object.inj heq, hvalue]

section Shows

variable (hV : V.Named) (h : ob.Shows E indexes V ob.reply)

include hV h

/-- **A document is appended.** -/
theorem Appends.shows (ho : NamesId o id) (hmatch : Matches E ob.query (.object o))
    (hk : Appends E indexes V ob id o) :
    ob.Shows E indexes (Function.update V id (some o))
      (applyOptionsReply (ob.reply ++ [.object o]) ob.queryOptions) := by
  obtain ⟨hnot, hfits, hroom⟩ := hk
  have hnew : ob.matching E (Function.update V id (some o)) =
      insert (.object o) (ob.matching E (Function.update V id none)) :=
    Observer.matching_update_of_matches hmatch
  have hrest := h.forget hV hnot
  have hl : ∀ v ∈ ob.reply ++ [.object o],
      v ∈ ob.matching E (Function.update V id (some o)) := by
    intro v hv
    rw [hnew]
    rcases List.mem_append.mp hv with hv | hv
    · exact .inr (hrest.subset v hv)
    · exact .inl (List.mem_singleton.mp hv)
  have hV' : View.Named (Function.update V id (some o)) :=
    hV.update fun o' ho' => Option.some.inj ho' ▸ ho
  have hfits' : ob.Fits indexes (ob.reply ++ [QJsonValue.object o]).length := by
    simpa using hfits
  obtain ⟨l', hperm, hordered, heq⟩ :=
    Observer.exists_applyOptionsReply_findOptions (Observer.namesApart_of_forall hV' hl) hfits'
  rw [heq, Observer.Shows, hnew]
  exact hrest.insert (Observer.object_notMem_matching_update hV ho) hperm hordered
    (hnew ▸ hroom)

/-- **A document takes the place of another one.** -/
theorem Replaces.shows (ho : NamesId o id) (hmatch : Matches E ob.query (.object o))
    (hk : Replaces E indexes V ob id o) :
    ob.Shows E indexes (Function.update V id (some o))
      (applyOptionsReply (replaceFirst o ob.reply) ob.queryOptions) := by
  obtain ⟨old, hold, hshown, hvalue, hfits, hbest⟩ := hk
  have hnew : ob.matching E (Function.update V id (some o)) =
      insert (.object o) (ob.matching E (Function.update V id none)) :=
    Observer.matching_update_of_matches hmatch
  have hrest : ob.matching E (Function.update V id none) = ob.matching E V \ {.object old} :=
    Observer.matching_update_of_some hV hold
  have hreplaced := replaceFirst_perm hshown (sameId_iff hV h ho hold hvalue)
  have hl : ∀ v ∈ replaceFirst o ob.reply,
      v ∈ ob.matching E (Function.update V id (some o)) := by
    intro v hv
    rw [hnew, hrest]
    rcases List.mem_cons.mp (hreplaced.mem_iff.mp hv) with rfl | hv
    · exact .inl rfl
    · rw [h.nodup.mem_erase_iff] at hv
      exact .inr ⟨h.subset v hv.2, hv.1⟩
  have hV' : View.Named (Function.update V id (some o)) :=
    hV.update fun o' ho' => Option.some.inj ho' ▸ ho
  have hlength : (replaceFirst o ob.reply).length = ob.reply.length := by
    rw [hreplaced.length_eq, List.length_cons, List.length_erase_of_mem hshown]
    exact Nat.sub_add_cancel (List.length_pos_of_mem hshown)
  have hfits' : ob.Fits indexes (replaceFirst o ob.reply).length := hlength ▸ hfits
  obtain ⟨l', hperm, hordered, heq⟩ :=
    Observer.exists_applyOptionsReply_findOptions (Observer.namesApart_of_forall hV' hl) hfits'
  rw [heq, Observer.Shows, hnew, hrest]
  exact h.replace hshown (hrest ▸ Observer.object_notMem_matching_update hV ho)
    (hperm.trans hreplaced) hordered hbest

/-- **A document stays out of a full reply.** -/
theorem StaysOut.shows (ho : NamesId o id) (hmatch : Matches E ob.query (.object o))
    (hk : StaysOut indexes V ob id o) :
    ob.Shows E indexes (Function.update V id (some o))
      (applyOptionsReply (replaceFirst o ob.reply) ob.queryOptions) := by
  obtain ⟨hnot, hfull, hbest⟩ := hk
  have hindexed : ¬ Indexed indexes ob.query := by
    intro hindexed
    refine hfull ?_
    rw [Observer.limit_of_indexed hindexed]
    exact fun n hn => nomatch hn
  have hother : ∀ v ∈ ob.reply, sameId o v = false := by
    intro v hv
    obtain ⟨id', o', ho', rfl, -⟩ := h.subset v hv
    refine Bool.eq_false_of_not_eq_true fun heq => hnot ?_
    obtain rfl := ho.eq_of_value (hV id' o' ho') ((ho.sameId_iff (hV id' o' ho')).mp heq)
    exact ⟨o', ho', hv⟩
  rw [replaceFirst_of_forall hother, h.applyOptionsReply_eq hV hindexed, Observer.Shows,
    Observer.matching_update_of_matches hmatch]
  exact (h.forget hV hnot).leave hfull hbest

/-- **A document is taken out.** -/
theorem Erases.shows (hmatch : Matches E ob.query (.object o)) (hk : Erases E indexes V ob id o) :
    ob.Shows E indexes (Function.update V id none)
      (applyOptionsReply (ob.reply.eraseP (sameId o)) ob.queryOptions) := by
  obtain ⟨hold, hall, hfits⟩ := hk
  have hshown : .object o ∈ ob.reply := hall _ ⟨id, o, hold, rfl, hmatch⟩
  have herased : ob.reply.eraseP (sameId o) = ob.reply.erase (.object o) :=
    eraseP_sameId (sameId_iff hV h (hV id o hold) hold rfl)
  have hl : ∀ v ∈ ob.reply.erase (.object o), v ∈ ob.matching E V :=
    fun v hv => h.subset v (List.mem_of_mem_erase hv)
  have hfits' : ob.Fits indexes (ob.reply.erase (QJsonValue.object o)).length := by
    rwa [List.length_erase_of_mem hshown]
  obtain ⟨l', hperm, hordered, heq⟩ :=
    Observer.exists_applyOptionsReply_findOptions (Observer.namesApart_of_forall hV hl) hfits'
  rw [herased, heq, Observer.Shows, Observer.matching_update_of_some hV hold]
  exact h.erase hall hperm hordered

end Shows

/-- **A patch that is right** leaves a selection of the documents that match then. -/
theorem Keeps.shows {c : Change} (hk : c.Keeps E indexes V ob) (hV : V.Named) (hc : c.NamesIds)
    (h : ob.Shows E indexes V ob.reply) :
    ob.Shows E indexes (c.view V) (c.patch E ob).reply := by
  cases c with
  | refused => exact h
  | brokenOff id => exact h.forget hV hk
  | stored id o isOld =>
    rw [patch, Observer.reply_inserted, view]
    rw [Keeps] at hk
    by_cases hmatch : Matches E ob.query (.object o)
    · rw [if_pos hmatch] at hk
      rw [if_pos hmatch]
      cases isOld with
      | false => exact Appends.shows hV h hc hmatch hk
      | true =>
        rcases hk with hk | hk
        · exact Replaces.shows hV h hc hmatch hk
        · exact StaysOut.shows hV h hc hmatch hk
    · rw [if_neg hmatch] at hk
      rw [if_neg hmatch, Observer.Shows, Observer.matching_update_of_not_matches hmatch]
      exact h.forget hV hk
  | removed id doc =>
    rw [patch, Observer.reply_removed, view]
    rw [Keeps] at hk
    by_cases hfound : Matches E ob.query (.object doc) ∧ ob.reply.any (sameId doc)
    · rw [if_pos hfound] at hk
      rw [if_pos hfound]
      exact Erases.shows hV h hfound.1 hk
    · rw [if_neg hfound] at hk
      rw [if_neg hfound]
      exact h.forget hV hk

end Change

end Qdocdb
