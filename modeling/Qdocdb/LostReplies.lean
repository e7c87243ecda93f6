import Qdocdb.Operations
import Qdocdb.Replies

/-!
# Observers of two transactions

A transaction copies the replies of all observers when it is opened, adds to its copy what
it inserts, and writes whole replies back when it is committed. Two transactions insert
documents with fresh ids into one collection, opened and committed in any order. When both
are committed, the replies hold what the last of them knew: its own documents, and those
of the other one if that was committed before it was opened (`repliesComplete_iff`).
-/

namespace Qdocdb

/-- A document that a transaction stored under its id, and whether the lookup of the id met
a document in its place. -/
structure Inserted where
  id : QByteArray
  doc : QJsonObject
  isOld : Bool

/-- A transaction before it is opened, while it is open, and after it was committed, with
the documents it inserted, and whether the other one was committed when it was opened. -/
inductive Session where
  | closed
  | opened (tx : Transaction) (inserted : List Inserted) (after : Bool)
  | committed (inserted : List Inserted) (after : Bool)

namespace Session

def inserted : Session → List Inserted
  | closed => []
  | opened _ inserted _ => inserted
  | committed inserted _ => inserted

def after : Session → Bool
  | closed => false
  | opened _ _ after => after
  | committed _ after => after

def isCommitted : Session → Bool
  | committed _ _ => true
  | _ => false

end Session

/-- A collection and two transactions; `last` is the one that was committed last. -/
structure SessionPair where
  collection : Collection
  session : Bool → Session
  last : Option Bool

namespace SessionPair

/-- Two transactions that are not open yet. -/
def start (σ : Collection) : SessionPair := ⟨σ, fun _ => .closed, none⟩

/-- Change one of the transactions. -/
def set (p : SessionPair) (i : Bool) (session : Session) : SessionPair :=
  { p with session := Function.update p.session i session }

/-- An id under which nothing was visible at first and nothing was inserted since. -/
def Fresh (σ : Collection) (p : SessionPair) (id : QByteArray) : Prop :=
  visible σ.db σ.snapshotId id = none ∧ ∀ i, ∀ d ∈ (p.session i).inserted, d.id ≠ id

/-- A step of one of the transactions: it is opened, inserts a document whose id is fresh,
or is committed. -/
inductive Step (E : Env) (σ : Collection) : SessionPair → SessionPair → Prop
  | newTransaction {p : SessionPair} {i : Bool} (h : p.session i = .closed) :
    Step E σ p (p.set i (.opened p.collection.newTransaction [] (p.session !i).isCommitted))
  | insert {p : SessionPair} {i after : Bool} {tx : Transaction} {inserted : List Inserted}
    (h : p.session i = .opened tx inserted after) (doc : QJsonObject) (gen : Transaction.IdGen)
    (overwrite ignoreReadOnlyValue : Bool) {id : QByteArray} {o : QJsonObject} {isOld : Bool}
    (hacc : Transaction.accepted E p.collection.db tx.snapshotId doc gen overwrite
      ignoreReadOnlyValue = some (id, o, isOld)) (hfresh : Fresh σ p id) :
    Step E σ p (p.set i (.opened
      (tx.insert E p.collection.db doc gen overwrite ignoreReadOnlyValue).2.2
      (inserted ++ [⟨id, o, isOld⟩]) after))
  | insertRefused {p : SessionPair} {i after : Bool} {tx : Transaction} {inserted : List Inserted}
    (h : p.session i = .opened tx inserted after) (doc : QJsonObject) (gen : Transaction.IdGen)
    (overwrite ignoreReadOnlyValue : Bool)
    (hacc : Transaction.accepted E p.collection.db tx.snapshotId doc gen overwrite
      ignoreReadOnlyValue = none) :
    Step E σ p (p.set i (.opened
      (tx.insert E p.collection.db doc gen overwrite ignoreReadOnlyValue).2.2 inserted after))
  | writeTransaction {p : SessionPair} {i after : Bool} {tx : Transaction}
    {inserted : List Inserted} {σ' : Collection}
    (h : p.session i = .opened tx inserted after)
    (hr : p.collection.writeTransaction E tx = (.success, σ')) :
    Step E σ p { p.set i (.committed inserted after) with collection := σ', last := some i }

/-- What any interleaving of steps leads to. -/
inductive Run (E : Env) (σ : Collection) : SessionPair → Prop
  | start : Run E σ (start σ)
  | step {p p' : SessionPair} : Run E σ p → Step E σ p p' → Run E σ p'

/-- The committed documents: those that are visible, and those that a committed transaction
inserted. -/
def Committed (p : SessionPair) (o : QJsonObject) : Prop :=
  (∃ id, visible p.collection.db p.collection.snapshotId id = some o) ∨
    ∃ i, (p.session i).isCommitted = true ∧ ∃ d ∈ (p.session i).inserted, d.doc = o

/-- Every reply contains every committed document that satisfies its query. -/
def RepliesComplete (E : Env) (p : SessionPair) : Prop :=
  ∀ k ob, p.collection.observers.lookup k = some ob → ∀ o, p.Committed o →
    Matches E ob.query (.object o) → .object o ∈ ob.reply

/-- A collection whose observers have no options and are up to date: their replies hold
the visible documents that satisfy their queries, each with the id under which it is stored. -/
structure UpToDate (E : Env) (σ : Collection) : Prop where
  options : ∀ k ob, σ.observers.lookup k = some ob → ob.queryOptions = []
  reply : ∀ k ob v, σ.observers.lookup k = some ob →
    (v ∈ ob.reply ↔ ∃ id o, visible σ.db σ.snapshotId id = some o ∧ Matches E ob.query (.object o) ∧
      v = .object o)
  names : ∀ id o, visible σ.db σ.snapshotId id = some o →
    ∃ sid, QJsonObject.value o (qs "_id") = .string sid ∧ toLatin1 sid = id

/-- Some observer waits for the document. -/
def Observed (E : Env) (p : SessionPair) (o : QJsonObject) : Prop :=
  ∃ k ob, p.collection.observers.lookup k = some ob ∧ Matches E ob.query (.object o)

/-- The lookup of no observed document met another one; and the transaction that was
committed last was opened after the other one was committed, or nobody observes what that
one inserted. -/
def NoneLost (E : Env) (p : SessionPair) : Prop :=
  (∀ i, ∀ d ∈ (p.session i).inserted, p.Observed E d.doc → d.isOld = false) ∧
    ∀ i, p.last = some i → (p.session i).after = true ∨
      ∀ d ∈ (p.session !i).inserted, ¬ p.Observed E d.doc

/-! ## The log of a run -/

variable {E : Env} {σ : Collection} {p p' : SessionPair}

@[simp] theorem session_set_self (i : Bool) (session : Session) :
    (p.set i session).session i = session :=
  Function.update_self _ _ _

theorem session_set_of_ne {i j : Bool} (h : j ≠ i) (session : Session) :
    (p.set i session).session j = p.session j :=
  Function.update_of_ne h _ _

/-- The documents inserted so far. -/
def log (p : SessionPair) (i : Bool) : List Inserted := (p.session i).inserted

theorem log_set (i : Bool) (session : Session) :
    (p.set i session).log = Function.update p.log i session.inserted := by
  funext j
  by_cases h : j = i
  · subst h
    rw [log, session_set_self, Function.update_self]
  · rw [log, session_set_of_ne h, Function.update_of_ne h, log]

/-- The inserted documents have different ids, under which nothing was visible at first. -/
structure FreshLog (σ : Collection) (log : Bool → List Inserted) : Prop where
  named : ∀ i, ∀ d ∈ log i,
    ∃ sid, QJsonObject.value d.doc (qs "_id") = .string sid ∧ toLatin1 sid = d.id
  fresh : ∀ i, ∀ d ∈ log i, visible σ.db σ.snapshotId d.id = none
  distinct : ∀ i j, ∀ d ∈ log i, ∀ d' ∈ log j, d.id = d'.id → i = j ∧ d = d'

theorem freshLog_nil : FreshLog σ fun _ => [] where
  named _ _ h := nomatch h
  fresh _ _ h := nomatch h
  distinct _ _ _ h := nomatch h

/-- An entry of a log that grew by one document. -/
theorem mem_update_log {log : Bool → List Inserted} {i j : Bool} {d d' : Inserted} :
    d' ∈ Function.update log i (log i ++ [d]) j ↔ d' ∈ log j ∨ j = i ∧ d' = d := by
  by_cases h : j = i
  · subst h
    rw [Function.update_self, List.mem_append, List.mem_singleton]
    simp
  · rw [Function.update_of_ne h]
    simp [h]

theorem FreshLog.append {log : Bool → List Inserted} (h : FreshLog σ log) (i : Bool) {d : Inserted}
    (hname : ∃ sid, QJsonObject.value d.doc (qs "_id") = .string sid ∧ toLatin1 sid = d.id)
    (hnone : visible σ.db σ.snapshotId d.id = none)
    (hfresh : ∀ j, ∀ d' ∈ log j, d'.id ≠ d.id) :
    FreshLog σ (Function.update log i (log i ++ [d])) where
  named j d' hd' := by
    rcases mem_update_log.mp hd' with hd' | ⟨-, rfl⟩
    · exact h.named j d' hd'
    · exact hname
  fresh j d' hd' := by
    rcases mem_update_log.mp hd' with hd' | ⟨-, rfl⟩
    · exact h.fresh j d' hd'
    · exact hnone
  distinct j k d₁ h₁ d₂ h₂ heq := by
    rcases mem_update_log.mp h₁ with h₁' | ⟨rfl, rfl⟩ <;>
      rcases mem_update_log.mp h₂ with h₂' | ⟨rfl, rfl⟩
    · exact h.distinct j k d₁ h₁' d₂ h₂' heq
    · exact absurd heq (hfresh j d₁ h₁')
    · exact absurd heq.symm (hfresh k d₂ h₂')
    · exact ⟨rfl, rfl⟩

/-- A document is determined by what `==` sees of it, among those of a log. -/
theorem FreshLog.eq_of_eq {log : Bool → List Inserted} (h : FreshLog σ log) {i j : Bool}
    {d d' : Inserted} (hd : d ∈ log i) (hd' : d' ∈ log j)
    (heq : QJsonValue.eq (.object d.doc) (.object d'.doc) = true) : i = j ∧ d = d' := by
  obtain ⟨sid, hsid, hid⟩ := h.named i d hd
  obtain ⟨sid', hsid', hid'⟩ := h.named j d' hd'
  rw [QJsonValue.value_of_eq_object heq hsid] at hsid'
  have hsame : sid = sid' := QJsonValue.string.inj hsid'
  subst hsame
  exact h.distinct i j d hd d' hd' (hid.symm.trans hid')

/-! ## What the replies show -/

/-- What inserted documents add to the reply of an observer. -/
def added (E : Env) (query : QJsonObject) (inserted : List Inserted) : List QJsonValue :=
  (inserted.filter fun d => d.isOld = false ∧ Matches E query (.object d.doc)).map
    fun d => .object d.doc

theorem mem_added {query : QJsonObject} {inserted : List Inserted} {v : QJsonValue} :
    v ∈ added E query inserted ↔
      ∃ d ∈ inserted, d.isOld = false ∧ Matches E query (.object d.doc) ∧ .object d.doc = v := by
  simp [added, and_assoc]

theorem added_append (query : QJsonObject) (ds ds' : List Inserted) :
    added E query (ds ++ ds') = added E query ds ++ added E query ds' := by
  simp [added]

/-- A relation between optional values, after the second one was changed. -/
theorem rel_map_right {α β γ : Type*} {r : α → β → Prop} {r' : α → γ → Prop} {a : Option α}
    {b : Option β} {f : β → γ} (h : Option.Rel r a b)
    (hf : ∀ x y, a = some x → r x y → r' x (f y)) : Option.Rel r' a (b.map f) := by
  cases h with
  | some h => exact .some (hf _ _ rfl h)
  | none => exact .none

/-- An observer whose reply grew by the inserted documents that its query matches. -/
structure Grown (E : Env) (inserted : List Inserted) (ob₀ ob : Observer) : Prop where
  query : ob.query = ob₀.query
  queryOptions : ob.queryOptions = ob₀.queryOptions
  reply : ob.reply = ob₀.reply ++ added E ob₀.query inserted

/-- The replies are those of the start and what the inserted documents add to them. -/
def Shows (E : Env) (σ : Collection) (observers : Observers) (inserted : List Inserted) : Prop :=
  ∀ k, Option.Rel (Grown E inserted) (σ.observers.lookup k) (observers.lookup k)

theorem shows_nil : Shows E σ σ.observers [] := by
  intro k
  cases σ.observers.lookup k with
  | none => exact .none
  | some ob => exact .some ⟨rfl, rfl, by simp [added]⟩

theorem Shows.lookup_eq_none {observers : Observers} {ds : List Inserted}
    (h : Shows E σ observers ds) {k : ℤ} (hk : σ.observers.lookup k = none) :
    observers.lookup k = none := by
  have hrel := h k
  rw [hk] at hrel
  cases hob : observers.lookup k with
  | none => rfl
  | some ob => simp [hob] at hrel

theorem Shows.lookup_eq_some {observers : Observers} {ds : List Inserted}
    (h : Shows E σ observers ds) {k : ℤ} {ob₀ : Observer} (hk : σ.observers.lookup k = some ob₀) :
    ∃ ob, observers.lookup k = some ob ∧ Grown E ds ob₀ ob := by
  have hrel := h k
  rw [hk] at hrel
  cases hob : observers.lookup k with
  | none => simp [hob] at hrel
  | some ob => exact ⟨ob, rfl, by simpa [hob] using hrel⟩

theorem Shows.exists_of_lookup_eq_some {observers : Observers} {ds : List Inserted}
    (h : Shows E σ observers ds) {k : ℤ} {ob : Observer} (hk : observers.lookup k = some ob) :
    ∃ ob₀, σ.observers.lookup k = some ob₀ ∧ Grown E ds ob₀ ob := by
  have hrel := h k
  rw [hk] at hrel
  cases hob : σ.observers.lookup k with
  | none => simp [hob] at hrel
  | some ob₀ => exact ⟨ob₀, rfl, by simpa [hob] using hrel⟩

/-- The entries were inserted by the transactions. -/
def Logged (log : Bool → List Inserted) (inserted : List Inserted) : Prop :=
  ∀ d ∈ inserted, ∃ i, d ∈ log i

/-- No document of a reply has the `_id` of a fresh one. -/
theorem sameId_eq_false {log : Bool → List Inserted} (hlog : FreshLog σ log)
    (hstart : UpToDate E σ) {inserted : List Inserted} (hin : Logged log inserted) {k : ℤ}
    {ob : Observer} (hob : σ.observers.lookup k = some ob) {o : QJsonObject} {id : QByteArray}
    (hname : ∃ sid, QJsonObject.value o (qs "_id") = .string sid ∧ toLatin1 sid = id)
    (hnone : visible σ.db σ.snapshotId id = none) (hfresh : ∀ j, ∀ d ∈ log j, d.id ≠ id) :
    ∀ v ∈ ob.reply ++ added E ob.query inserted, sameId o v = false := by
  obtain ⟨sid, hsid, hid⟩ := hname
  have hne : ∀ o' sid', QJsonObject.value o' (qs "_id") = .string sid' → toLatin1 sid' ≠ id →
      sameId o (.object o') = false := by
    intro o' sid' hsid' hid'
    by_contra hsame
    rw [sameId, Bool.not_eq_false, hsid, QJsonValue.toObject, hsid'] at hsame
    rw [QJsonValue.string.inj (QJsonValue.eq_of_eq_string hsame)] at hid'
    exact hid' hid
  intro v hv
  rcases List.mem_append.mp hv with hv | hv
  · obtain ⟨id', o', hvis, -, rfl⟩ := (hstart.reply k ob v hob).mp hv
    obtain ⟨sid', hsid', hid'⟩ := hstart.names id' o' hvis
    refine hne o' sid' hsid' fun heq => ?_
    rw [← hid', heq, hnone] at hvis
    cases hvis
  · obtain ⟨d, hd, -, -, rfl⟩ := mem_added.mp hv
    obtain ⟨j, hj⟩ := hin d hd
    obtain ⟨sid', hsid', hid'⟩ := hlog.named j d hj
    exact hne d.doc sid' hsid' (hid' ▸ hfresh j d hj)

/-- **An insertion** shows the document where it matches and its lookup met no other. -/
theorem Grown.inserted {ds : List Inserted} {ob₀ ob : Observer} (h : Grown E ds ob₀ ob)
    (hoptions : ob₀.queryOptions = []) (d : Inserted)
    (hnew : ∀ v ∈ ob.reply, sameId d.doc v = false) :
    Grown E (ds ++ [d]) ob₀ (ob.inserted E d.doc d.isOld) := by
  have hadded : added E ob₀.query [d] =
      if d.isOld = false ∧ Matches E ob₀.query (.object d.doc) then [.object d.doc] else [] := by
    by_cases hd : d.isOld = false ∧ Matches E ob₀.query (.object d.doc) <;> simp [added, hd]
  rw [Observer.inserted, h.query]
  by_cases hmatch : checkQuery E ob₀.query (.object d.doc) = some true
  · rw [if_pos hmatch]
    refine ⟨rfl, h.queryOptions, ?_⟩
    dsimp only
    rw [h.queryOptions, hoptions, applyOptionsReply_nil, added_append, ← List.append_assoc,
      ← h.reply, hadded]
    cases hold : d.isOld with
    | true => simp [replaceFirst_of_forall hnew]
    | false => simp [Matches, hmatch]
  · rw [if_neg hmatch]
    refine ⟨h.query, h.queryOptions, ?_⟩
    rw [added_append, ← List.append_assoc, ← h.reply, hadded,
      if_neg fun hd => hmatch hd.2, List.append_nil]

theorem Shows.inserted {observers : Observers} {ds : List Inserted}
    (h : Shows E σ observers ds) (hstart : UpToDate E σ) {log : Bool → List Inserted}
    (hlog : FreshLog σ log) (hin : Logged log ds) {d : Inserted}
    (hname : ∃ sid, QJsonObject.value d.doc (qs "_id") = .string sid ∧ toLatin1 sid = d.id)
    (hnone : visible σ.db σ.snapshotId d.id = none) (hfresh : ∀ j, ∀ d' ∈ log j, d'.id ≠ d.id) :
    Shows E σ (observers.update (.inserted E d.doc d.isOld)) (ds ++ [d]) := by
  intro k
  rw [Observers.lookup_update]
  refine rel_map_right (h k) fun ob₀ ob hob hgrown =>
    hgrown.inserted (hstart.options k ob₀ hob) d ?_
  rw [hgrown.reply]
  exact sameId_eq_false hlog hstart hin hob hname hnone hfresh

/-- What documents of a log add to a reply is determined by what `==` sees of it. -/
theorem added_eq_of_eqList {log : Bool → List Inserted} (hlog : FreshLog σ log)
    {query : QJsonObject} {ds ds' : List Inserted} (hin : Logged log ds) (hin' : Logged log ds')
    (heq : QJsonValue.eqList (added E query ds) (added E query ds') = true) :
    added E query ds = added E query ds' := by
  refine QJsonValue.eq_of_eqList heq fun v hv v' hv' h => ?_
  obtain ⟨d, hd, -, -, rfl⟩ := mem_added.mp hv
  obtain ⟨d', hd', -, -, rfl⟩ := mem_added.mp hv'
  obtain ⟨i, hi⟩ := hin d hd
  obtain ⟨j, hj⟩ := hin' d' hd'
  rw [(hlog.eq_of_eq hi hj h).2]

/-- **A commit** leaves the collection with the replies of the transaction. -/
theorem Shows.writeTransaction {τ : Collection} {tx : Transaction} {ds ds' : List Inserted}
    {log : Bool → List Inserted} (hlog : FreshLog σ log) (hτ : Shows E σ τ.observers ds)
    (htx : Shows E σ tx.observers ds') (hin : Logged log ds) (hin' : Logged log ds')
    (hr : (τ.writeTransaction E tx).1 = .success) :
    Shows E σ (τ.writeTransaction E tx).2.observers ds' := by
  intro k
  rw [Collection.lookup_writeTransaction hr]
  refine rel_map_right (r := Grown E ds') ?_ fun _ _ _ h => ⟨h.query, h.queryOptions, h.reply⟩
  cases hob₀ : σ.observers.lookup k with
  | none =>
    have hmem : k ∉ tx.observers := AList.lookup_eq_none.mp (htx.lookup_eq_none hob₀)
    rw [if_neg hmem, hτ.lookup_eq_none hob₀]
    exact .none
  | some ob₀ =>
    obtain ⟨ob, hob, hgrown⟩ := hτ.lookup_eq_some hob₀
    obtain ⟨ob', hob', hgrown'⟩ := htx.lookup_eq_some hob₀
    have hmem : k ∈ tx.observers := AList.lookup_isSome.mp (by rw [hob']; rfl)
    rw [if_pos hmem, Observers.reply, hob, hob']
    refine .some ⟨?_, ?_, ?_⟩
    · rw [← hgrown.query, Collection.copyReply]
      split <;> rfl
    · rw [← hgrown.queryOptions, Collection.copyReply]
      split <;> rfl
    · rw [Collection.reply_copyReply]
      simp only [Option.map_some, Option.getD_some]
      split
      · rename_i heq
        rw [hgrown.reply, hgrown'.reply] at heq
        rw [hgrown.reply,
          added_eq_of_eqList hlog hin hin' (QJsonValue.eqList_of_append heq)]
      · exact hgrown'.reply

/-! ## What the transactions write -/

/-- Calls that store inserted documents, and calls on index entries. -/
def InsertsOnly (inserted : List Inserted) (ws : List (WriteOp QByteArray Blob)) : Prop :=
  ∀ w ∈ ws, IndexWrite w ∨ ∃ d ∈ inserted, ∃ s, w ∈ Transaction.putJsonValue d.id s d.doc

/-- The calls of an open transaction. -/
def WroteInserts (E : Env) (inserted : List Inserted) (tx : Transaction) : Prop :=
  ∃ ws, tx.kvdb = KVTransaction.new.writes E.backend ws ∧ InsertsOnly inserted ws

theorem WroteInserts.store {inserted : List Inserted} {tx : Transaction}
    (h : WroteInserts E inserted tx) (db : Store) (d : Inserted) :
    WroteInserts E (inserted ++ [d]) (tx.store E db d.id d.doc d.isOld) := by
  obtain ⟨ws, hk, hws⟩ := h
  have hput := Transaction.wrote_writes (E := E) tx
    (Transaction.putJsonValue d.id tx.snapshotId d.doc)
  obtain ⟨iws, hiws, hi, -⟩ := Transaction.addIndexValues_sim (.of_writes db (hput.kvdb_eq hk))
    d.doc d.id ((tx.writes E (Transaction.putJsonValue d.id tx.snapshotId d.doc)).reader E
      db).getIndexes
  refine ⟨_, (hput.trans (hi.congr rfl rfl)).kvdb_eq hk, fun w hw => ?_⟩
  rcases List.mem_append.mp hw with hw | hw
  · refine (hws w hw).imp_right fun ⟨d', hd', s, hs⟩ => ⟨d', ?_, s, hs⟩
    exact List.mem_append_left _ hd'
  · rcases List.mem_append.mp hw with hw | hw
    · exact .inr ⟨d, List.mem_append_right _ (List.mem_singleton_self d), _, hw⟩
    · exact .inl (hiws w hw)

/-- **A commit of insertions** leaves a version as it was, or empties it, or puts an
inserted document there. -/
theorem history_commit_cases {inserted : List Inserted} {ws : List (WriteOp QByteArray Blob)}
    (h : InsertsOnly inserted ws) (B : Backend) (db : Store) (id : QByteArray) (t : ℕ) :
    history (commit B db ws).2 id t = history db id t ∨
      ∃ e, history (commit B db ws).2 id t = some e ∧
        ∀ o, e = some o → ∃ d ∈ inserted, d.doc = o := by
  rw [history, history]
  by_cases ht : t < 256
  · rw [version, version, dif_pos ht, dif_pos ht]
    rcases find?_commit_cases B db ws (constructDocumentLinkKey id ⟨t, ht⟩) with hk | ⟨w, hw, hwk, ho⟩
    · exact .inl (by rw [hk])
    · rw [ho]
      refine .inr ?_
      rcases h w hw with hindex | ⟨d, hd, s, hs⟩
      · exact absurd (isKeyOf_linkKey id _) (hwk ▸ hindex.isMetaKey).not_isKeyOf
      · rw [Transaction.putJsonValue, List.mem_cons, List.mem_singleton] at hs
        rcases hs with rfl | rfl
        · exact ⟨none, rfl, fun o ho => by cases ho⟩
        · exact ⟨some d.doc, rfl, fun o ho => ⟨d, hd, Option.some.inj ho⟩⟩
  · rw [version_of_le _ _ (by omega), version_of_le _ _ (by omega)]
    exact .inl rfl

/-! ## The invariant -/

/-- What a transaction knew of the other one when it was opened. -/
def seen (p : SessionPair) (i : Bool) : List Inserted :=
  if (p.session i).after then p.log !i else []

/-- What the replies of the collection show. -/
def shown (p : SessionPair) : List Inserted :=
  match p.last with
  | none => []
  | some i => p.seen i ++ p.log i

/-- In any run: who was committed before whom, and what the collection and the open
transactions hold of it. -/
structure Inv (E : Env) (σ : Collection) (p : SessionPair) : Prop where
  after : ∀ i, (p.session i).after = true → (p.session !i).isCommitted = true
  last : ∀ i, p.last = some i → (p.session i).isCommitted = true
  committed : ∀ i, (p.session i).isCommitted = true → p.last ≠ none
  log : FreshLog σ p.log
  replies : Shows E σ p.collection.observers p.shown
  opened : ∀ i tx inserted after, p.session i = .opened tx inserted after →
    Shows E σ tx.observers (p.seen i ++ inserted) ∧ WroteInserts E inserted tx
  snapshotId : p.collection.snapshotId = σ.snapshotId
  kept : ∀ id t, history p.collection.db id t = none → history σ.db id t = none
  new : ∀ id t o, history p.collection.db id t = some (some o) →
    history σ.db id t = some (some o) ∨
      ∃ i, (p.session i).isCommitted = true ∧ ∃ d ∈ p.log i, d.doc = o

theorem inv_start : Inv E σ (start σ) where
  after _ h := nomatch h
  last _ h := nomatch h
  committed _ h := nomatch h
  log := freshLog_nil
  replies := shows_nil
  opened _ _ _ _ h := nomatch h
  snapshotId := rfl
  kept _ _ h := h
  new _ _ _ h := .inl h

theorem log_set_of_ne {i j : Bool} (h : j ≠ i) (session : Session) :
    (p.set i session).log j = p.log j := by
  rw [log, session_set_of_ne h, log]

theorem seen_set_self (i : Bool) (session : Session) :
    (p.set i session).seen i = if session.after then p.log !i else [] := by
  rw [seen, session_set_self, log_set_of_ne (Bool.not_ne_self i)]

namespace Inv

variable (h : Inv E σ p) {i : Bool}

include h

/-- Nobody was opened after a transaction that is not committed. -/
theorem after_eq_false (hi : (p.session i).isCommitted = false) {j : Bool} (hj : j ≠ i) :
    (p.session j).after = false := by
  by_contra hafter
  have hc := h.after j (by simpa using hafter)
  rw [← Bool.eq_not_of_ne hj.symm, hi] at hc
  cases hc

/-- While a transaction is not committed, its steps change nothing for the other one. -/
theorem set (hi : (p.session i).isCommitted = false) {session : Session}
    (hs : session.isCommitted = false)
    (hafter : session.after = true → (p.session !i).isCommitted = true)
    (hlog : FreshLog σ (p.set i session).log)
    (hopened : ∀ tx inserted after, session = .opened tx inserted after →
      Shows E σ tx.observers ((p.set i session).seen i ++ inserted) ∧
        WroteInserts E inserted tx) :
    Inv E σ (p.set i session) := by
  have hne : ∀ {j}, (p.session j).isCommitted = true → j ≠ i := by
    rintro j hj rfl
    rw [hi] at hj
    cases hj
  have hseen : ∀ {j}, j ≠ i → (p.set i session).seen j = p.seen j := by
    intro j hj
    rw [seen, seen, session_set_of_ne hj, h.after_eq_false hi hj, if_neg Bool.false_ne_true,
      if_neg Bool.false_ne_true]
  have hcommitted : ∀ j, ((p.set i session).session j).isCommitted = (p.session j).isCommitted := by
    intro j
    by_cases hj : j = i
    · subst hj
      rw [session_set_self, hs, hi]
    · rw [session_set_of_ne hj]
  refine ⟨fun j hj => ?_, fun j hj => ?_, fun j hj => ?_, hlog, ?_, ?_, h.snapshotId, h.kept,
    fun id t o ho => ?_⟩
  · rw [hcommitted]
    by_cases hji : j = i
    · subst hji
      rw [session_set_self] at hj
      exact hafter hj
    · rw [session_set_of_ne hji] at hj
      exact h.after j hj
  · rw [hcommitted]
    exact h.last j hj
  · rw [hcommitted] at hj
    exact h.committed j hj
  · have hshown : (p.set i session).shown = p.shown := by
      rw [shown, shown]
      cases hlast : p.last with
      | none => rw [show (p.set i session).last = none from hlast]
      | some j =>
        have hj := hne (h.last j hlast)
        rw [show (p.set i session).last = some j from hlast]
        simp only [hseen hj, log_set_of_ne hj]
    rw [hshown]
    exact h.replies
  · intro j tx inserted after hj
    by_cases hji : j = i
    · subst hji
      rw [session_set_self] at hj
      exact hopened tx inserted after hj
    · rw [session_set_of_ne hji] at hj
      rw [hseen hji]
      exact h.opened j tx inserted after hj
  · refine (h.new id t o ho).imp_right fun ⟨j, hj, d, hd, hdo⟩ => ⟨j, ?_, d, ?_, hdo⟩
    · rw [hcommitted]
      exact hj
    · rw [log_set_of_ne (hne hj)]
      exact hd

omit h in
/-- What the replies show was inserted. -/
theorem logged_seen_append (j : Bool) {inserted : List Inserted} (hj : p.log j = inserted) :
    Logged p.log (p.seen j ++ inserted) := by
  intro d hd
  rcases List.mem_append.mp hd with hd | hd
  · rw [seen] at hd
    split at hd
    · exact ⟨_, hd⟩
    · cases hd
  · exact ⟨j, hj ▸ hd⟩

omit h in
theorem logged_shown : Logged p.log p.shown := by
  rw [shown]
  cases p.last with
  | none => exact fun _ hd => nomatch hd
  | some j => exact logged_seen_append j rfl

/-- When a transaction is opened the other one is committed, or the replies are those of
the start. -/
theorem newTransaction (hi : p.session i = .closed) :
    Inv E σ (p.set i (.opened p.collection.newTransaction [] (p.session !i).isCommitted)) := by
  have hnot : (p.session i).isCommitted = false := by rw [hi]; rfl
  have hempty : p.log i = [] := by rw [SessionPair.log, hi, Session.inserted]
  refine h.set hnot rfl id ?_ ?_
  · rw [log_set, Session.inserted, ← hempty, Function.update_eq_self]
    exact h.log
  · rintro tx inserted after ⟨⟩
    refine ⟨?_, [], rfl, fun w hw => nomatch hw⟩
    have hshown : (p.set i (.opened p.collection.newTransaction []
        (p.session !i).isCommitted)).seen i = p.shown := by
      rw [seen_set_self, Session.after, shown]
      cases hlast : p.last with
      | none =>
        rw [if_neg fun hc => h.committed _ hc hlast]
      | some j =>
        have hj := h.last j hlast
        have hji : j = !i := Bool.eq_not_of_ne fun hji => by
          rw [hji, hnot] at hj
          cases hj
        subst hji
        dsimp only
        rw [if_pos hj, seen, Bool.not_not, hempty, ite_self, List.nil_append]
    rw [hshown, List.append_nil]
    exact h.replies

theorem insert (hstart : UpToDate E σ) {tx : Transaction} {inserted : List Inserted} {after : Bool}
    (hi : p.session i = .opened tx inserted after) {doc : QJsonObject} {gen : Transaction.IdGen}
    {overwrite ignoreReadOnlyValue : Bool} {id : QByteArray} {o : QJsonObject} {isOld : Bool}
    (hacc : Transaction.accepted E p.collection.db tx.snapshotId doc gen overwrite
      ignoreReadOnlyValue = some (id, o, isOld)) (hfresh : Fresh σ p id) :
    Inv E σ (p.set i (.opened
      (tx.insert E p.collection.db doc gen overwrite ignoreReadOnlyValue).2.2
      (inserted ++ [⟨id, o, isOld⟩]) after)) := by
  have hlog : p.log i = inserted := by rw [SessionPair.log, hi, Session.inserted]
  have hname := Transaction.value_id_of_accepted hacc
  obtain ⟨hshows, hwrote⟩ := h.opened i tx inserted after hi
  refine h.set (by rw [hi]; rfl) rfl ?_ ?_ ?_
  · have := h.after i
    rwa [hi] at this
  · rw [log_set, Session.inserted, ← hlog]
    exact h.log.append i hname hfresh.1 hfresh.2
  · rintro tx' inserted' after' ⟨⟩
    rw [Transaction.insert_of_accepted hacc, seen_set_self, Session.after, ← List.append_assoc]
    refine ⟨?_, hwrote.store p.collection.db ⟨id, o, isOld⟩⟩
    rw [Transaction.observers_store]
    have hseen : (if after then p.log !i else []) = p.seen i := by rw [seen, hi, Session.after]
    rw [hseen]
    exact hshows.inserted hstart h.log (logged_seen_append i hlog) hname hfresh.1 hfresh.2

theorem insertRefused {tx : Transaction} {inserted : List Inserted} {after : Bool}
    (hi : p.session i = .opened tx inserted after) {doc : QJsonObject} {gen : Transaction.IdGen}
    {overwrite ignoreReadOnlyValue : Bool}
    (hacc : Transaction.accepted E p.collection.db tx.snapshotId doc gen overwrite
      ignoreReadOnlyValue = none) :
    Inv E σ (p.set i (.opened
      (tx.insert E p.collection.db doc gen overwrite ignoreReadOnlyValue).2.2 inserted after)) := by
  have hlog : p.log i = inserted := by rw [SessionPair.log, hi, Session.inserted]
  refine h.set (by rw [hi]; rfl) rfl ?_ ?_ ?_
  · have := h.after i
    rwa [hi] at this
  · rw [log_set, Session.inserted, ← hlog, Function.update_eq_self]
    exact h.log
  · rintro tx' inserted' after' ⟨⟩
    obtain ⟨r, id, lastError, -, hinsert⟩ := Transaction.insert_of_accepted_eq_none hacc
    rw [hinsert, seen_set_self, Session.after]
    have := h.opened i tx inserted after hi
    rwa [seen, hi] at this

/-- **A commit**: the collection has the replies of the transaction, and its documents. -/
theorem writeTransaction {tx : Transaction} {inserted : List Inserted} {after : Bool}
    {σ' : Collection} (hi : p.session i = .opened tx inserted after)
    (hr : p.collection.writeTransaction E tx = (.success, σ')) :
    Inv E σ { p.set i (.committed inserted after) with collection := σ', last := some i } := by
  have hlogi : p.log i = inserted := by rw [SessionPair.log, hi, Session.inserted]
  obtain ⟨hshows, ws, hk, hws⟩ := h.opened i tx inserted after hi
  have hlog : (p.set i (.committed inserted after)).log = p.log := by
    rw [log_set, Session.inserted, ← hlogi, Function.update_eq_self]
  have hseen : ∀ j, (p.set i (.committed inserted after)).seen j = p.seen j := by
    intro j
    rw [seen, seen, hlog]
    by_cases hj : j = i
    · subst hj
      rw [session_set_self, hi, Session.after, Session.after]
    · rw [session_set_of_ne hj]
  have hcommitted : ∀ j, (p.session j).isCommitted = true →
      ((p.set i (.committed inserted after)).session j).isCommitted = true := by
    intro j hj
    by_cases hji : j = i
    · subst hji
      rw [session_set_self, Session.isCommitted]
    · rw [session_set_of_ne hji]
      exact hj
  have hself : ((p.set i (.committed inserted after)).session i).isCommitted = true := by
    rw [session_set_self, Session.isCommitted]
  have hsuccess : (p.collection.writeTransaction E tx).1 = .success := by rw [hr]
  obtain ⟨hc, -⟩ := Collection.writeTransaction_spec (σ := p.collection) hk
  rw [hr] at hc
  have hcases := history_commit_cases hws E.backend p.collection.db
  rw [← hc.db] at hcases
  refine ⟨fun j hj => hcommitted _ (h.after j ?_), fun j hj => ?_, fun _ _ => Option.some_ne_none _,
    ?_, ?_, fun j tx' inserted' after' hj => ?_, hc.snapshotId.trans h.snapshotId,
    fun id t hnone => ?_, fun id t o ho => ?_⟩
  · by_cases hji : j = i
    · subst hji
      simp only [session_set_self] at hj
      rw [hi]
      exact hj
    · simpa only [session_set_of_ne hji] using hj
  · obtain rfl : i = j := Option.some.inj hj
    exact hself
  · exact hlog ▸ h.log
  · have hwrite := h.replies.writeTransaction h.log hshows logged_shown
      (logged_seen_append i hlogi) hsuccess
    rw [hr] at hwrite
    have hshown : shown { p.set i (.committed inserted after) with
        collection := σ', last := some i } = p.seen i ++ inserted := by
      calc _ = (p.set i (.committed inserted after)).seen i ++
            (p.set i (.committed inserted after)).log i := rfl
        _ = p.seen i ++ inserted := by rw [hseen, hlog, hlogi]
    rw [hshown]
    exact hwrite
  · have hji : j ≠ i := by
      rintro rfl
      simp only [session_set_self] at hj
      cases hj
    simp only [session_set_of_ne hji] at hj
    have hold := h.opened j tx' inserted' after' hj
    rw [← hseen j] at hold
    exact hold
  · rcases hcases id t with heq | ⟨e, he, -⟩
    · exact h.kept id t (heq ▸ hnone)
    · rw [he] at hnone
      cases hnone
  · rcases hcases id t with heq | ⟨e, he, hnew⟩
    · refine (h.new id t o (heq ▸ ho)).imp_right fun ⟨j, hj, d, hd, hdo⟩ =>
        ⟨j, hcommitted j hj, d, ?_, hdo⟩
      exact hlog ▸ hd
    · obtain ⟨d, hd, hdo⟩ := hnew o (Option.some.inj (he.symm.trans ho))
      refine .inr ⟨i, hself, d, ?_, hdo⟩
      have : d ∈ (p.set i (.committed inserted after)).log i := by
        rw [hlog, hlogi]
        exact hd
      exact this

theorem step (hstart : UpToDate E σ) (hs : Step E σ p p') : Inv E σ p' := by
  cases hs with
  | newTransaction hi => exact h.newTransaction hi
  | insert hi doc gen overwrite ignoreReadOnlyValue hacc hfresh =>
    exact h.insert hstart hi hacc hfresh
  | insertRefused hi doc gen overwrite ignoreReadOnlyValue hacc => exact h.insertRefused hi hacc
  | writeTransaction hi hr => exact h.writeTransaction hi hr

end Inv

/-- **Every run** keeps the invariant. -/
theorem Run.inv (hstart : UpToDate E σ) (h : Run E σ p) : Inv E σ p := by
  induction h with
  | start => exact inv_start
  | step _ hs ih => exact ih.step hstart hs

/-! ## The replies in the end -/

namespace Inv

variable (h : Inv E σ p)

include h

/-- A committed document was visible at first, or a transaction inserted it. -/
theorem visible_or_inserted {o : QJsonObject} (ho : p.Committed o) :
    (∃ id, visible σ.db σ.snapshotId id = some o) ∨
      ∃ i, (p.session i).isCommitted = true ∧ ∃ d ∈ p.log i, d.doc = o := by
  rcases ho with ⟨id, hvis⟩ | ho
  · rw [h.snapshotId] at hvis
    exact (History.view_eq_some_cases (h.kept id) (h.new id) hvis).imp_left fun hvis => ⟨id, hvis⟩
  · exact .inr ho

/-- An inserted document is in a reply when the reply shows it, and only then. -/
theorem object_mem_reply_iff (hstart : UpToDate E σ) {k : ℤ} {ob₀ ob : Observer}
    (hob₀ : σ.observers.lookup k = some ob₀) (hgrown : Grown E p.shown ob₀ ob) {i : Bool}
    {d : Inserted} (hd : d ∈ p.log i) (hmatch : Matches E ob.query (.object d.doc)) :
    .object d.doc ∈ ob.reply ↔ d ∈ p.shown ∧ d.isOld = false := by
  rw [hgrown.query] at hmatch
  rw [hgrown.reply, List.mem_append, mem_added]
  constructor
  · rintro (hold | ⟨d', hd', hnew, -, hdoc⟩)
    · -- nothing was visible under its id
      exfalso
      obtain ⟨id, o, hvis, -, ho⟩ := (hstart.reply k ob₀ _ hob₀).mp hold
      obtain ⟨sid, hsid, hid⟩ := hstart.names id o hvis
      obtain ⟨sid', hsid', hid'⟩ := h.log.named i d hd
      rw [QJsonValue.object.inj ho, hsid] at hsid'
      rw [QJsonValue.string.inj hsid', hid'] at hid
      rw [← hid, h.log.fresh i d hd] at hvis
      cases hvis
    · -- its id tells it from the other inserted documents
      obtain ⟨j, hj⟩ := logged_shown d' hd'
      obtain ⟨sid, hsid, hid⟩ := h.log.named i d hd
      obtain ⟨sid', hsid', hid'⟩ := h.log.named j d' hj
      rw [QJsonValue.object.inj hdoc, hsid] at hsid'
      rw [← QJsonValue.string.inj hsid', hid] at hid'
      obtain ⟨-, rfl⟩ := h.log.distinct j i d' hj d hd hid'.symm
      exact ⟨hd', hnew⟩
  · rintro ⟨hd, hnew⟩
    exact .inr ⟨d, hd, hnew, hmatch, rfl⟩

end Inv

/-- **Lost replies**: once both transactions are committed, every reply contains every
committed document that satisfies its query, if and only if no lookup of an observed document
met another one, and the last commit knew of the observed documents of the other
transaction. -/
theorem repliesComplete_iff (hstart : UpToDate E σ) (h : Run E σ p)
    (hboth : ∀ i, (p.session i).isCommitted = true) :
    p.RepliesComplete E ↔ p.NoneLost E := by
  have hinv := h.inv hstart
  obtain ⟨last, hlast⟩ := Option.ne_none_iff_exists'.mp (hinv.committed true (hboth true))
  have hshown : p.shown = p.seen last ++ p.log last := by
    rw [shown, hlast]
  constructor
  · intro hcomplete
    have hmem : ∀ i, ∀ d ∈ p.log i, p.Observed E d.doc → d ∈ p.shown ∧ d.isOld = false := by
      rintro i d hd ⟨k, ob, hob, hmatch⟩
      have hreply := hcomplete k ob hob d.doc (.inr ⟨i, hboth i, d, hd, rfl⟩) hmatch
      obtain ⟨ob₀, hob₀, hgrown⟩ := hinv.replies.exists_of_lookup_eq_some hob
      exact (hinv.object_mem_reply_iff hstart hob₀ hgrown hd hmatch).mp hreply
    refine ⟨fun i d hd hobs => (hmem i d hd hobs).2, fun i hi => ?_⟩
    obtain rfl : last = i := Option.some.inj (hlast.symm.trans hi)
    cases hafter : (p.session last).after with
    | true => exact .inl rfl
    | false =>
      refine .inr fun d hd hobs => ?_
      -- the reply shows nothing of the other transaction
      have hd' := (hmem _ d hd hobs).1
      rw [hshown, seen, hafter, if_neg Bool.false_ne_true, List.nil_append] at hd'
      exact Bool.not_ne_self last (hinv.log.distinct _ _ d hd d hd' rfl).1
  · rintro ⟨hnew, hafter⟩ k ob hob o ho hmatch
    obtain ⟨ob₀, hob₀, hgrown⟩ := hinv.replies.exists_of_lookup_eq_some hob
    rcases hinv.visible_or_inserted ho with ⟨id, hvis⟩ | ⟨i, -, d, hd, rfl⟩
    · rw [hgrown.reply]
      rw [hgrown.query] at hmatch
      exact List.mem_append_left _ ((hstart.reply k ob₀ _ hob₀).mpr ⟨id, o, hvis, hmatch, rfl⟩)
    · have hobs : p.Observed E d.doc := ⟨k, ob, hob, hmatch⟩
      refine (hinv.object_mem_reply_iff hstart hob₀ hgrown hd hmatch).mpr
        ⟨?_, hnew i d hd hobs⟩
      rw [hshown]
      by_cases hi : i = last
      · subst hi
        exact List.mem_append_right _ hd
      · obtain rfl : i = !last := Bool.eq_not_of_ne hi
        rcases hafter last hlast with hafter | hnone
        · rw [seen, if_pos hafter]
          exact List.mem_append_left _ hd
        · exact absurd hobs (hnone d hd)

/-- Nothing is lost when all lookups were right and the last transaction was opened after the
other one was committed. -/
theorem noneLost_of_after (hnew : ∀ i, ∀ d ∈ (p.session i).inserted, d.isOld = false)
    (hafter : ∀ i, p.last = some i → (p.session i).after = true) : p.NoneLost E :=
  ⟨fun i d hd _ => hnew i d hd, fun i hi => .inl (hafter i hi)⟩

/-! ## Two insertions -/

/-- An empty collection with an observer of all documents. -/
def observedEmpty : Collection :=
  { Collection.open (Env.plain .levelDB) .empty with
    observers := AList.insert 1 ⟨[], [], [], false⟩ ∅ }

theorem visible_observedEmpty (s : Byte) (id : QByteArray) :
    visible observedEmpty.db s id = none :=
  visible_eq_none_of_forall fun t _ => by
    have hdb : observedEmpty.db = SortedMap.empty.insert snapshotsKey (.snapshots [currentName]) :=
      (Collection.open_empty (E := Env.plain .levelDB)).1
    rw [hdb, SortedMap.find?_insert_of_ne _ _ (isKeyOf_linkKey id t).ne_snapshotsKey,
      SortedMap.find?_empty]

theorem upToDate_observedEmpty : UpToDate (Env.plain .levelDB) observedEmpty where
  options k ob hob := by
    by_cases hk : k = 1
    · subst hk
      cases hob
      rfl
    · rw [observedEmpty, AList.lookup_insert_ne hk] at hob
      cases hob
  reply k ob v hob := by
    by_cases hk : k = 1
    · subst hk
      cases hob
      simp [visible_observedEmpty]
    · rw [observedEmpty, AList.lookup_insert_ne hk] at hob
      cases hob
  names id o hvis := by
    rw [visible_observedEmpty] at hvis
    cases hvis

/-- The document with the given `_id` and nothing else. -/
def docOf (id : String) : QJsonObject := [(qs "_id", .string (qs id))]

/-- The first transaction inserts `a`. -/
theorem accepted_docOf_a : Transaction.accepted (Env.plain .levelDB) observedEmpty.db
    observedEmpty.snapshotId (docOf "a") ⟨[], []⟩ false false =
      some (bytes "a", docOf "a", false) := by decide

/-- When the second transaction is opened after the first one is committed, the reply has
the documents of both. -/
theorem repliesComplete_insertCommitTwice :
    ∃ p, Run (Env.plain .levelDB) observedEmpty p ∧ (p.session true).inserted ≠ [] ∧
      p.RepliesComplete (Env.plain .levelDB) := by
  have hopen := (Run.start (E := Env.plain .levelDB) (σ := observedEmpty)).step
    (.newTransaction (i := false) rfl)
  have hinsert := hopen.step (.insert (i := false) rfl (docOf "a") ⟨[], []⟩ false false
    accepted_docOf_a ⟨visible_observedEmpty _ _, by decide⟩)
  have hcommit := hinsert.step (.writeTransaction (i := false) rfl rfl)
  have hopen' := hcommit.step (.newTransaction (i := true) rfl)
  have hinsert' := hopen'.step (.insert (i := true) rfl (docOf "b") ⟨[], []⟩ false false
    (show _ = some (bytes "b", docOf "b", false) by decide) ⟨visible_observedEmpty _ _, by decide⟩)
  have hcommit' := hinsert'.step (.writeTransaction (i := true) rfl rfl)
  exact ⟨_, hcommit', by decide, (repliesComplete_iff upToDate_observedEmpty hcommit'
    (by decide)).mpr (noneLost_of_after (by decide) (by decide))⟩

/-- When both are opened first, the second commit takes the document of the first one out of
the reply. -/
theorem not_repliesComplete :
    ¬ ∀ (E : Env) (σ : Collection) (p : SessionPair), UpToDate E σ → Run E σ p →
      (∀ i, (p.session i).isCommitted = true) → p.RepliesComplete E := by
  intro h
  have hopen := ((Run.start (E := Env.plain .levelDB) (σ := observedEmpty)).step
    (.newTransaction (i := false) rfl)).step (.newTransaction (i := true) rfl)
  have hinsert := hopen.step (.insert (i := false) rfl (docOf "a") ⟨[], []⟩ false false
    accepted_docOf_a ⟨visible_observedEmpty _ _, by decide⟩)
  have hinsert' := hinsert.step (.insert (i := true) rfl (docOf "b") ⟨[], []⟩ false false
    (show _ = some (bytes "b", docOf "b", false) by decide) ⟨visible_observedEmpty _ _, by decide⟩)
  have hcommit := hinsert'.step (.writeTransaction (i := false) rfl rfl)
  have hcommit' := hcommit.step (.writeTransaction (i := true) rfl rfl)
  have hmem := h _ _ _ upToDate_observedEmpty hcommit' (by decide) 1 _ rfl (docOf "a")
    (.inr ⟨false, rfl, _, List.mem_singleton_self _, rfl⟩) (by decide +kernel)
  revert hmem
  decide +kernel

end SessionPair

end Qdocdb
