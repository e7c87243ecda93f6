import Qdocdb.Client
import Qdocdb.FailedRequests

/-!
# What a failure tells the client

An operation reports its failure twice: by what it returns, and by an error text that it
leaves on its collection or transaction. The server only looks at the first to decide
whether something went wrong, and sends the second. Not every exit sets the text, so a
request can fail and be answered by the text of an older failure, or by none.

`Outcome` keeps the three ways apart in which an operation ends: it goes through, it fails
and leaves the text as it was (`FailsSilently`), or it fails and sets the text. Which of
them it is only depends on the state in which the operation starts (`run_outcome`).
-/

namespace Qdocdb

/-- How an operation ends that found the text `before`: it succeeds, it fails without a
word, which is what `silent` says, or it fails and sets the text. -/
inductive Outcome (silent : Prop) (before : String) (r : ResultEnum) (after : String) : Prop
  | success (h : ¬ silent) (hr : r = .success) (htext : after = before)
  | silent (h : silent) (hr : r ≠ .success) (htext : after = before)
  | spoken (h : ¬ silent) (hr : r ≠ .success) (htext : after ≠ "")

namespace Outcome

variable {silent silent' : Prop} {before after : String} {r : ResultEnum}

theorem congr (h : Outcome silent before r after) (hiff : silent' ↔ silent) :
    Outcome silent' before r after := by
  rwa [propext hiff]

/-- A failure is silent if and only if an empty text stays empty. -/
theorem fails_iff (h : Outcome silent "" r after) :
    r ≠ .success ∧ after = "" ↔ silent := by
  cases h with
  | success hnot hr => simp [hnot, hr]
  | silent hs hr htext => simp [hs, hr, htext]
  | spoken hnot hr htext => simp [hnot, htext]

/-- A failure leaves an empty text behind when it is silent and found one. -/
theorem text_eq_nil_iff (h : Outcome silent before r after) (hr : r ≠ .success) :
    after = "" ↔ silent ∧ before = "" := by
  cases h with
  | success _ hr' => exact absurd hr' hr
  | silent hs _ htext => simp [hs, htext]
  | spoken hnot _ htext => simp [hnot, htext]

/-- What can not fail silently goes on in the same way with what was there before. -/
theorem of_false (h : Outcome False before r after) (hnot : ¬ silent) :
    Outcome silent before r after := by
  cases h with
  | success _ hr htext => exact .success hnot hr htext
  | silent hs => exact hs.elim
  | spoken _ hr htext => exact .spoken hnot hr htext

end Outcome

theorem notFoundError_ne_nil (B : Backend) : B.notFoundError ≠ "" := by
  cases B <;> decide

/-- The key/value layer sets a text whenever it finds nothing. -/
theorem kvGetValue_error_ne_nil {K V : Type} [LinearOrder K] {B : Backend} {db : SortedMap K V}
    {k : K} {e : String} (h : kvGetValue B db k = .error e) : e ≠ "" := by
  rw [kvGetValue] at h
  split at h
  · cases h
  · cases h
    exact notFoundError_ne_nil B

theorem KVTransaction.getValue_error_ne_nil {K V : Type} [LinearOrder K] {B : Backend}
    {db : SortedMap K V} {tx : KVTransaction K V} {k : K} {e : String}
    (h : tx.getValue B db k = .error e) : e ≠ "" := by
  rw [getValue] at h
  split at h
  · cases h
    decide
  · split at h
    · cases h
    · exact kvGetValue_error_ne_nil h

namespace Transaction

variable {E : Env} {db : Store} {tx : Transaction}

/-! ## The index loop of removeById -/

@[simp] theorem lastError_writes (ws : List (WriteOp QByteArray Blob)) :
    (tx.writes E ws).lastError = tx.lastError := rfl

theorem removeIndexValue_outcome (n : QString) (v : QJsonValue) (linkKey : QByteArray) :
    Outcome False tx.lastError (tx.removeIndexValue E db n v linkKey).1
      (tx.removeIndexValue E db n v linkKey).2.lastError := by
  rw [removeIndexValue]
  dsimp only
  split
  · rename_i lastError hget
    exact .spoken not_false (by simp) (KVTransaction.getValue_error_ne_nil hget)
  · split
    · exact .success not_false rfl rfl
    · exact .success not_false rfl rfl

theorem removeIndexValues_outcome (n : QString) (linkKey : QByteArray) (values : List QJsonValue) :
    Outcome False tx.lastError (removeIndexValues E db n linkKey values tx).1
      (removeIndexValues E db n linkKey values tx).2.lastError := by
  induction values generalizing tx with
  | nil => exact .success not_false rfl rfl
  | cons v values ih =>
    have hfirst := @removeIndexValue_outcome E db tx n v linkKey
    rw [removeIndexValues]
    split
    · rename_i tx' heq
      rw [heq] at hfirst
      cases hfirst with
      | success _ _ htext => exact htext ▸ ih
      | silent hs => exact hs.elim
      | spoken _ hr => exact absurd rfl hr
    · rename_i r tx' hr heq
      rw [heq] at hfirst
      cases hfirst with
      | success _ hsuccess => exact (hr hsuccess).elim
      | silent hs => exact hs.elim
      | spoken _ _ htext => exact .spoken not_false (by simp) htext

theorem removeFromIndexes_outcome (doc : QJsonObject) (linkKey : QByteArray)
    (indexes : List (QString × QString)) :
    Outcome False tx.lastError (removeFromIndexes E db doc linkKey indexes tx).1
      (removeFromIndexes E db doc linkKey indexes tx).2.lastError := by
  induction indexes generalizing tx with
  | nil => exact .success not_false rfl rfl
  | cons index indexes ih =>
    have hfirst := @removeIndexValues_outcome E db tx index.2 linkKey
      (indexedValues (getJsonValueByPath (.object doc) index.1))
    rw [removeFromIndexes]
    split
    · rename_i tx' heq
      rw [heq] at hfirst
      cases hfirst with
      | success _ _ htext => exact htext ▸ ih
      | silent hs => exact hs.elim
      | spoken _ hr => exact absurd rfl hr
    · rename_i r tx' _ heq
      rw [heq] at hfirst
      exact hfirst

/-! ## Operations -/

/-- The removal of an id finds a document, which may not be removed. -/
def FindsProtected (E : Env) (db : Store) (s : Byte) (id : QByteArray)
    (ignoreReadOnlyValue : Bool) : Prop :=
  ∃ doc, ((seekValue E.backend db s id).getD .init).jsonValue = .object doc ∧
    isProtected E (.object doc) ignoreReadOnlyValue = true

theorem removeById_outcome (id : QByteArray) (ignoreReadOnlyValue : Bool) :
    Outcome (FindsProtected E db tx.snapshotId id ignoreReadOnlyValue) tx.lastError
      (tx.removeById E db id ignoreReadOnlyValue).1
      (tx.removeById E db id ignoreReadOnlyValue).2.lastError := by
  rw [removeById, FindsProtected]
  dsimp only
  generalize (seekValue E.backend db tx.snapshotId id).getD .init = scan
  cases hjson : scan.jsonValue with
  | object doc =>
    dsimp only
    cases hp : isProtected E (.object doc) ignoreReadOnlyValue with
    | true => exact .silent ⟨doc, rfl, hp⟩ (by simp) rfl
    | false =>
      have hnot : ¬ ∃ d, QJsonValue.object doc = .object d ∧
          isProtected E (.object d) ignoreReadOnlyValue = true := by
        rintro ⟨d, hd, hd'⟩
        rw [← hd, hp] at hd'
        cases hd'
      have hloop := @removeFromIndexes_outcome E db (tx.writes E (removeVersion id tx.snapshotId scan))
        doc (constructDocumentLinkKey id (scan.snapshotId.getD 0))
        ((tx.writes E (removeVersion id tx.snapshotId scan)).reader E db).getIndexes
      rw [if_neg Bool.false_ne_true]
      split
      · rename_i tx' heq
        rw [heq] at hloop
        exact hloop.of_false hnot
      · rename_i r tx' _ heq
        rw [heq] at hloop
        exact hloop.of_false hnot
  | _ => exact .spoken (by simp) (by simp) (by simp)

/-- The removals go through up to a document that may not be removed. -/
def ComesToProtected (E : Env) (db : Store) (s : Byte) (indexes : List (QString × QString))
    (t : LinkTable QByteArray QByteArray) (ids : List QByteArray) : Prop :=
  ∃ before id after, ids = before ++ id :: after ∧ AllRemovable E db s indexes t before ∧
    FindsProtected E db s id false

/-- The same from where a transaction stands. -/
abbrev MeetsProtected (E : Env) (db : Store) (tx : Transaction) (ids : List QByteArray) : Prop :=
  ComesToProtected E db tx.snapshotId (tx.reader E db).getIndexes (tx.links E db) ids

theorem not_meetsProtected_nil : ¬ MeetsProtected E db tx [] := by
  rintro ⟨before, id, after, h, -⟩
  simp at h

/-- After a removal that goes through, the others decide. -/
theorem meetsProtected_cons {id : QByteArray} {ids : List QByteArray} {tx' : Transaction}
    (h : tx.removeById E db id false = (.success, tx')) :
    MeetsProtected E db tx (id :: ids) ↔ MeetsProtected E db tx' ids := by
  have hextends := @extends_removeById E db tx id false
  rw [h] at hextends
  -- the removals in front are judged by running them
  have hall : ∀ before, AllRemovable E db tx.snapshotId (tx.reader E db).getIndexes
      (tx.links E db) (id :: before) ↔ AllRemovable E db tx'.snapshotId
      (tx'.reader E db).getIndexes (tx'.links E db) before := by
    intro before
    rw [← removeByIds_success_iff, ← removeByIds_success_iff, removeByIds, h]
  have hfirst : ¬ FindsProtected E db tx.snapshotId id false := by
    have hout := @removeById_outcome E db tx id false
    rw [h] at hout
    cases hout with
    | success hnot => exact hnot
    | silent _ hr => exact absurd rfl hr
    | spoken hnot => exact hnot
  constructor
  · rintro ⟨before, id', after, heq, hbefore, hfound⟩
    cases before with
    | nil =>
      obtain ⟨rfl, rfl⟩ := List.cons_eq_cons.mp heq
      exact absurd hfound hfirst
    | cons id'' before =>
      obtain ⟨rfl, rfl⟩ := List.cons_eq_cons.mp heq
      exact ⟨before, id', after, rfl, (hall before).mp hbefore, hextends.snapshotId ▸ hfound⟩
  · rintro ⟨before, id', after, rfl, hbefore, hfound⟩
    exact ⟨id :: before, id', after, rfl, (hall before).mpr hbefore, hextends.snapshotId ▸ hfound⟩

/-- A removal that fails decides for the others. -/
theorem meetsProtected_cons_of_fails {id : QByteArray} {ids : List QByteArray}
    (h : (tx.removeById E db id false).1 ≠ .success) :
    MeetsProtected E db tx (id :: ids) ↔ FindsProtected E db tx.snapshotId id false := by
  constructor
  · rintro ⟨before, id', after, heq, hbefore, hfound⟩
    cases before with
    | nil =>
      obtain ⟨rfl, rfl⟩ := List.cons_eq_cons.mp heq
      exact hfound
    | cons id'' before =>
      obtain ⟨rfl, rfl⟩ := List.cons_eq_cons.mp heq
      rw [← removeByIds_success_iff, removeByIds] at hbefore
      generalize tx.removeById E db id false = result at h hbefore
      obtain ⟨r, tx'⟩ := result
      cases r with
      | success => exact absurd rfl h
      | _ => cases hbefore
  · intro hfound
    exact ⟨[], id, ids, rfl, removeByIds_success_iff [] |>.mp rfl, hfound⟩

theorem removeByIds_outcome (ids : List QByteArray) :
    Outcome (MeetsProtected E db tx ids) tx.lastError (removeByIds E db ids tx).1
      (removeByIds E db ids tx).2.lastError := by
  induction ids generalizing tx with
  | nil => exact .success not_meetsProtected_nil rfl rfl
  | cons id ids ih =>
    have hfirst := @removeById_outcome E db tx id false
    rw [removeByIds]
    split
    · rename_i tx' heq
      rw [heq] at hfirst
      cases hfirst with
      | success _ _ htext => exact htext ▸ ih.congr (meetsProtected_cons heq)
      | silent _ hr => exact absurd rfl hr
      | spoken _ hr => exact absurd rfl hr
    · rename_i r tx' hr heq
      have hne : (tx.removeById E db id false).1 ≠ .success := by
        rw [heq]
        exact hr
      rw [heq] at hfirst
      exact hfirst.congr (meetsProtected_cons_of_fails hne)

/-- `insert` refuses a document with a proper id: it is there already, or protected. -/
def RefusesDocument (E : Env) (db : Store) (s : Byte) (doc : QJsonObject) (gen : IdGen)
    (overwrite ignoreReadOnlyValue : Bool) : Prop :=
  (documentId doc gen).isSome = true ∧
    accepted E db s doc gen overwrite ignoreReadOnlyValue = none

theorem lastError_addIndexValues (doc : QJsonObject) (id : QByteArray)
    (indexes : List (QString × QString)) :
    (addIndexValues E db doc id indexes tx).lastError = tx.lastError := by
  induction indexes generalizing tx with
  | nil => rfl
  | cons index indexes ih =>
    rw [addIndexValues, ih, addIndexValue_eq]
    split <;> rfl

theorem lastError_store (id : QByteArray) (o : QJsonObject) (isOld : Bool) :
    (tx.store E db id o isOld).lastError = tx.lastError := by
  rw [store]
  dsimp only
  rw [lastError_addIndexValues]
  rfl

theorem insert_outcome (doc : QJsonObject) (gen : IdGen) (overwrite ignoreReadOnlyValue : Bool) :
    Outcome (RefusesDocument E db tx.snapshotId doc gen overwrite ignoreReadOnlyValue) tx.lastError
      (tx.insert E db doc gen overwrite ignoreReadOnlyValue).1
      (tx.insert E db doc gen overwrite ignoreReadOnlyValue).2.2.lastError := by
  cases hacc : accepted E db tx.snapshotId doc gen overwrite ignoreReadOnlyValue with
  | some p =>
    obtain ⟨id, o, isOld⟩ := p
    rw [insert_of_accepted hacc]
    exact .success (fun h => by cases hacc.symm.trans h.2) rfl (lastError_store id o isOld)
  | none =>
    rw [insert]
    cases hid : documentId doc gen with
    | none =>
      refine .spoken (fun h => ?_) (by simp) (by simp)
      rw [RefusesDocument, hid] at h
      cases h.1
    | some p =>
      obtain ⟨id, d⟩ := p
      have hrefuses : RefusesDocument E db tx.snapshotId doc gen overwrite ignoreReadOnlyValue :=
        ⟨by rw [hid]; rfl, hacc⟩
      rw [accepted, hid, Option.bind_some] at hacc
      have hold : (tx.reader E db).getJsonValue E id =
          Qdocdb.getJsonValue E.backend db tx.snapshotId id := rfl
      dsimp only at hacc ⊢
      rw [hold]
      generalize Qdocdb.getJsonValue E.backend db tx.snapshotId id = docOld at hacc ⊢
      cases hu : docOld.isUndefined with
      | true => simp [hu] at hacc
      | false =>
        cases overwrite with
        | false => exact .silent hrefuses (by simp) (by simp)
        | true =>
          cases hp : isProtected E docOld ignoreReadOnlyValue with
          | false => simp [hu, hp] at hacc
          | true => exact .silent hrefuses (by simp) (by simp)

/-- The document loop of `set` stops at a malformed query, or at a protected document. -/
def stopsSilently (E : Env) (db : Store) (s : Byte) (query : QJsonObject)
    (reply : List QJsonValue) : List (QJsonValue × IdGen) → Bool
  | [] => false
  | (.object doc, gen) :: docs =>
    match reply.find? fun v => v.eq (.object doc) with
    | some _ => stopsSilently E db s query reply docs
    | none =>
      match checkQuery E query (.object doc) with
      | none => true
      | some false => stopsSilently E db s query reply docs
      | some true =>
        match accepted E db s doc gen true false with
        | none => (documentId doc gen).isSome
        | some _ => stopsSilently E db s query reply docs
  | _ :: docs => stopsSilently E db s query reply docs

theorem setDocuments_outcome (query : QJsonObject) (reply : List QJsonValue)
    (docs : List (QJsonValue × IdGen)) (ids : List QByteArray) :
    Outcome (stopsSilently E db tx.snapshotId query reply docs = true) tx.lastError
      (setDocuments E db query reply docs ids tx).1
      (setDocuments E db query reply docs ids tx).2.2.lastError := by
  induction docs generalizing tx ids with
  | nil => exact .success (by simp [stopsSilently]) rfl rfl
  | cons p docs ih =>
    obtain ⟨v, gen⟩ := p
    cases v with
    | object doc =>
      rw [setDocuments, stopsSilently]
      cases reply.find? fun v => v.eq (.object doc) with
      | some v => exact ih _
      | none =>
        dsimp only
        cases checkQuery E query (.object doc) with
        | none => exact .silent rfl (by simp) rfl
        | some valid =>
          cases valid with
          | false => exact ih _
          | true =>
            have hinsert := @insert_outcome E db tx doc gen true false
            rw [RefusesDocument] at hinsert
            dsimp only
            cases hacc : accepted E db tx.snapshotId doc gen true false with
            | none =>
              rw [hacc] at hinsert
              obtain ⟨r, id, lastError, hr, heq⟩ := @insert_of_accepted_eq_none E db tx doc gen
                true false hacc
              rw [heq] at hinsert ⊢
              cases r with
              | success => exact absurd rfl hr
              | _ => exact hinsert.congr (by simp)
            | some p =>
              obtain ⟨id, o, isOld⟩ := p
              rw [insert_of_accepted hacc]
              have hrest := @ih (tx.store E db id o isOld) (ids.filter (· ≠ id))
              rw [(extends_store id o isOld).snapshotId, lastError_store] at hrest
              exact hrest
    | _ => exact ih _

theorem lastError_indexDocuments (fieldName indexName : QString)
    (docs : List (QJsonValue × QByteArray)) :
    (indexDocuments E db fieldName indexName docs tx).lastError = tx.lastError := by
  induction docs generalizing tx with
  | nil => rfl
  | cons p docs ih =>
    obtain ⟨v, id⟩ := p
    rw [indexDocuments, ih]
    split
    · rw [addIndexValue_eq]
      split <;> rfl
    · rfl

/-- The operation fails and leaves the error text of its transaction as it was. -/
def FailsSilently (E : Env) (db : Store) (tx : Transaction) : TxOp → Prop
  | .insert doc gen overwrite ignoreReadOnlyValue =>
    RefusesDocument E db tx.snapshotId doc gen overwrite ignoreReadOnlyValue
  | .removeById id ignoreReadOnlyValue =>
    FindsProtected E db tx.snapshotId id ignoreReadOnlyValue
  | .remove query =>
    let result := find E (tx.reader E db) query []
    result.1 ≠ .success ∨ MeetsProtected E db tx (result.2.map Prod.snd)
  | .set query docs =>
    let reply := (find E (tx.reader E db) query []).2
    let plan := setPlan E db tx.snapshotId query (reply.map Prod.fst) docs (reply.map Prod.snd)
    let indexes := (tx.reader E db).getIndexes
    stopsSilently E db tx.snapshotId query (reply.map Prod.fst) docs = true ∨
      plan.failed = false ∧ ComesToProtected E db tx.snapshotId indexes
        ((tx.links E db).addAll (plan.links E tx.snapshotId indexes)) plan.ids
  | .createIndex _ _ => False

/-- **How an operation ends** is settled by the state in which it starts. -/
theorem run_outcome (op : TxOp) :
    Outcome (FailsSilently E db tx op) tx.lastError (op.run E db tx).1
      (op.run E db tx).2.lastError := by
  cases op with
  | insert doc gen overwrite ignoreReadOnlyValue =>
    exact insert_outcome doc gen overwrite ignoreReadOnlyValue
  | removeById id ignoreReadOnlyValue => exact removeById_outcome id ignoreReadOnlyValue
  | remove query =>
    rw [TxOp.run, remove, FailsSilently]
    generalize find E (tx.reader E db) query [] = result
    obtain ⟨r, reply⟩ := result
    cases r with
    | success => exact (removeByIds_outcome _).congr (by simp)
    | _ => exact .silent (.inl (by simp)) (by simp) rfl
  | set query docs =>
    rw [TxOp.run, set, FailsSilently]
    generalize (find E (tx.reader E db) query []).2 = reply
    have hloop := @setDocuments_outcome E db tx query (reply.map Prod.fst) docs
      (reply.map Prod.snd)
    have hplan := @setDocuments_carriesOut E db tx query (reply.map Prod.fst) docs
      (reply.map Prod.snd)
    generalize setPlan E db tx.snapshotId query (reply.map Prod.fst) docs (reply.map Prod.snd) =
      plan at hplan ⊢
    generalize setDocuments E db query (reply.map Prod.fst) docs (reply.map Prod.snd) tx = loop
      at hloop hplan ⊢
    obtain ⟨r, ids, tx'⟩ := loop
    -- the removals start where the document loop has carried out its plan
    by_cases hr : r = .success
    · subst hr
      cases hloop with
      | success hnot _ htext =>
        have hremove := @removeByIds_outcome E db tx' ids
        have hids : ids = plan.ids := hplan.ids rfl
        rw [MeetsProtected, hplan.extends'.snapshotId, hplan.extends'.indexes, hplan.links, hids,
          htext] at hremove
        subst hids
        exact hremove.congr (by simp [hnot, hplan.success_iff.mp rfl])
      | silent _ hr => exact absurd rfl hr
      | spoken _ hr => exact absurd rfl hr
    · have hfailed : plan.failed = true := by simpa using mt hplan.success_iff.mpr hr
      cases r with
      | success => exact absurd rfl hr
      | _ => exact hloop.congr (by simp [hfailed])
  | createIndex fieldName indexName =>
    rw [TxOp.run, createIndex]
    dsimp only
    split
    · exact .success not_false rfl rfl
    · refine .success not_false rfl ?_
      rw [lastError_writes]
      exact (lastError_indexDocuments fieldName indexName _).trans rfl

end Transaction

/-! ## The reply -/

theorem qs_eq_nil_iff {s : String} : qs s = [] ↔ s = "" := by
  rw [qs, List.map_eq_nil_iff, String.toList_eq_nil_iff]

/-- The snapshot that a request is about. -/
def QDocdbLinkObject.snapshotName (o : QDocdbLinkObject) : QString :=
  if o.snapshot = [] then currentName else o.snapshot

namespace QDocdbServer

variable {E : ServerEnv} {s : QDocdbServer} {client : ClientId} {o : QDocdbLinkObject}
  {c : OpenCollection}

/-- The name stands for no snapshot: it is not the current one's, and not in the list. -/
def NamesUnknown (E : ServerEnv) (c : OpenCollection) (snapshotName : QString) : Prop :=
  snapshotName ≠ currentName ∧
    ∀ i, c.coll.getSnapshotId (E.env.on c.backend) snapshotName ≠ .ok i

/-- What the collection returns to a reading request. -/
def readResult (E : ServerEnv) (c : OpenCollection) (snapshotName : QString) :
    LinkObjectType → Option ResultEnum
  | .find query queryOptions =>
    some (find (E.env.on c.backend) (readerOf E c snapshotName) query queryOptions).1
  | .findOne query queryOptions =>
    some (findOne (E.env.on c.backend) (readerOf E c snapshotName) query queryOptions).1
  | .count query queryOptions =>
    some (count (E.env.on c.backend) (readerOf E c snapshotName) query queryOptions).1
  | .getModified => some .success
  | _ => none

/-- What the collection returns to a request for a snapshot operation, if it returns. -/
def snapshotResult (E : ServerEnv) (c : OpenCollection) (snapshotName : QString) :
    LinkObjectType → Option ResultEnum
  | .newSnapshot => some (c.coll.newSnapshot (E.env.on c.backend) snapshotName).1
  | .revertToSnapshot => some (c.coll.revertToSnapshot (E.env.on c.backend) snapshotName).1
  | .removeSnapshot =>
    (c.coll.removeSnapshot (E.env.on c.backend) snapshotName).map Prod.fst
  | _ => none

/-- The operation of the request cannot be performed: the collection returns something
other than success, or the request is about a snapshot that is not in the list. -/
def RequestFails (E : ServerEnv) (s : QDocdbServer) (o : QDocdbLinkObject)
    (c : OpenCollection) : Prop :=
  match o.type.document? with
  | some (txId, op) =>
    if txId = -1 then (c.coll.transact (E.env.on c.backend) op).1 ≠ .success
    else ∃ t c', s.transactions.lookup txId = some t ∧ s.collection? t.place = some c' ∧
      (op.run (E.env.on c'.backend) c'.coll.db t.tx).1 ≠ .success
  | none =>
    (∃ f n, o.type = .createIndex f n ∧
        (c.coll.transact (E.env.on c.backend) (.createIndex f n)).1 ≠ .success) ∨
      (∃ r, readResult E c o.snapshotName o.type = some r ∧
        (NamesUnknown E c o.snapshotName ∨ r ≠ .success)) ∨
      ∃ r, snapshotResult E c o.snapshotName o.type = some r ∧ r ≠ .success

/-- Whenever the operation of the request cannot be performed, the reply carries an error,
and the client's call does not return success. -/
def FailureReported (E : ServerEnv) (s : QDocdbServer) (client : ClientId)
    (o : QDocdbLinkObject) : Prop :=
  ∀ c p, GetsTo E s o c → RequestFails E (s.openCollectionOf E o) o c →
    s.serve E client o = some p →
    p.2.error ≠ [] ∧ QDocdbClient.sendAndWaitReply (some p.2) ≠ .success

/-- An error text is there when the request is served: an older one, or the one that the
lookup of a snapshot leaves when the list cannot be read. -/
def HasText (E : ServerEnv) (c : OpenCollection) (snapshotName : QString) : Prop :=
  c.coll.lastError ≠ "" ∨
    snapshotName ≠ currentName ∧ ∃ e, c.coll.getSnapshotsValue (E.env.on c.backend) = .error e

/-- The request does not run into a silent failure, or finds an older error text. -/
def Reports (E : ServerEnv) (s : QDocdbServer) (o : QDocdbLinkObject) (c : OpenCollection) :
    Prop :=
  match o.type.document? with
  | some (txId, op) =>
    if txId = -1 then
      Transaction.FailsSilently (E.env.on c.backend) c.coll.db c.coll.newTransaction op →
        (c.coll.writeTransaction (E.env.on c.backend)
          (op.run (E.env.on c.backend) c.coll.db c.coll.newTransaction).2).1 ≠ .success
    else ∀ t c', s.transactions.lookup txId = some t → s.collection? t.place = some c' →
      Transaction.FailsSilently (E.env.on c'.backend) c'.coll.db t.tx op → t.tx.lastError ≠ ""
  | none =>
    (∀ r, readResult E c o.snapshotName o.type = some r →
        if r = .success then ¬ NamesUnknown E c o.snapshotName else HasText E c o.snapshotName) ∧
      (o.type = .revertToSnapshot → NamesUnknown E c o.snapshotName →
        HasText E c o.snapshotName) ∧
      (o.type = .removeSnapshot → o.snapshotName ≠ currentName →
        (∃ p, c.coll.removeSnapshot (E.env.on c.backend) o.snapshotName = some p ∧
          p.1 ≠ .success) → HasText E c o.snapshotName)

/-! ### Error texts of the collection -/

theorem lastError_noteSnapshotsError_eq_nil_iff {E : Env} {σ : Collection} :
    (σ.noteSnapshotsError E).lastError = "" ↔
      σ.lastError = "" ∧ ∀ e, σ.getSnapshotsValue E ≠ .error e := by
  rw [Collection.noteSnapshotsError]
  cases hl : σ.getSnapshotsValue E with
  | ok l => simp
  | error e =>
    have hne : e ≠ "" := by
      rw [Collection.getSnapshotsValue] at hl
      split at hl
      · cases hl
      · rename_i e' hget
        cases hl
        exact kvGetValue_error_ne_nil hget
    simp [hne]

theorem lastError_afterReaderOf_ne_nil_iff (snapshotName : QString) :
    (afterReaderOf E c snapshotName).coll.lastError ≠ "" ↔ HasText E c snapshotName := by
  rw [afterReaderOf, HasText]
  split
  · rename_i h
    simp [h]
  · rename_i h
    rw [Ne, lastError_noteSnapshotsError_eq_nil_iff]
    by_cases hlast : c.coll.lastError = "" <;> simp [h, hlast]

@[simp] theorem lastError_writeTransaction (E : Env) (σ : Collection) (tx : Transaction) :
    (σ.writeTransaction E tx).2.lastError = σ.lastError := by
  rw [Collection.writeTransaction]
  split <;> rfl

/-- A new snapshot fails with a text. -/
theorem newSnapshot_text {E : Env} {σ : Collection} {snapshotName : QString}
    (h : (σ.newSnapshot E snapshotName).1 ≠ .success) :
    (σ.newSnapshot E snapshotName).2.lastError ≠ "" := by
  cases hl : σ.getSnapshotsValue E with
  | error e =>
    rw [Collection.newSnapshot, Collection.getSnapshotId, hl]
    rw [Collection.getSnapshotsValue] at hl
    split at hl
    · cases hl
    · rename_i e' hget
      cases hl
      exact kvGetValue_error_ne_nil hget
  | ok l =>
    by_cases hmem : snapshotName ∈ l
    · rw [Collection.newSnapshot, Collection.getSnapshotId, hl]
      simp [hmem]
    · exact absurd (Collection.newSnapshot_of_notMem hl hmem).1 h

/-- A revert fails at the lookup of the name only, and leaves the text of that lookup. -/
theorem revertToSnapshot_text {E : Env} {σ : Collection} {snapshotName : QString}
    (h : (σ.revertToSnapshot E snapshotName).1 ≠ .success) :
    (∀ i, σ.getSnapshotId E snapshotName ≠ .ok i) ∧
      (σ.revertToSnapshot E snapshotName).2 = σ.noteSnapshotsError E := by
  rcases Collection.revertToSnapshot_spec (E := E) (σ := σ) snapshotName with
    ⟨hnot, -⟩ | ⟨l, -, -, hr, -⟩
  · have hid : ∀ i, σ.getSnapshotId E snapshotName ≠ .ok i := by
      intro i
      rw [Collection.getSnapshotId]
      cases hl : σ.getSnapshotsValue E with
      | error e => simp
      | ok l => simp [hnot l hl]
    refine ⟨hid, ?_⟩
    rw [Collection.revertToSnapshot]
    cases hsid : σ.getSnapshotId E snapshotName with
    | error r => rfl
    | ok i => exact absurd hsid (hid i)
  · exact absurd hr h

theorem revertToSnapshot_of_unknown {E : Env} {σ : Collection} {snapshotName : QString}
    (h : ∀ i, σ.getSnapshotId E snapshotName ≠ .ok i) :
    (σ.revertToSnapshot E snapshotName).1 ≠ .success := by
  rw [Collection.revertToSnapshot]
  rw [Collection.getSnapshotId] at h ⊢
  cases hl : σ.getSnapshotsValue E with
  | error e => simp
  | ok l =>
    rw [hl] at h
    by_cases hmem : snapshotName ∈ l
    · simp [hmem] at h
    · simp [hmem]

/-- Removing a snapshot fails with the text that was there after the lookup of the name. -/
theorem removeSnapshot_text {E : Env} {σ : Collection} {snapshotName : QString}
    {p : ResultEnum × Collection} (h : σ.removeSnapshot E snapshotName = some p)
    (hr : p.1 ≠ .success) : p.2.lastError = (σ.noteSnapshotsError E).lastError := by
  rw [Collection.removeSnapshot, Collection.getSnapshotId] at h
  rw [Collection.noteSnapshotsError] at h ⊢
  cases hl : σ.getSnapshotsValue E with
  | error e =>
    rw [hl] at h
    obtain rfl := Option.some.inj h
    rfl
  | ok l =>
    rw [hl] at h
    by_cases hmem : snapshotName ∈ l
    · simp only [hmem, if_true] at h
      obtain ⟨sIds, -, rfl⟩ := Option.map_eq_some_iff.mp h
      dsimp only at hr ⊢
      split
      · rename_i heq
        rw [heq] at hr
        exact absurd rfl hr
      · rename_i r σ' _ heq
        rw [← lastError_writeTransaction E σ _, heq]
    · simp only [hmem, if_false] at h
      obtain rfl := Option.some.inj h
      rfl

/-! ### Requests -/

theorem errorText_eq_nil_iff {r : ResultEnum} {lastError : String} :
    errorText r lastError = [] ↔ r = .success ∨ lastError = "" := by
  rw [errorText]
  split
  · rename_i h
    simp [h]
  · rename_i h
    simp [h, qs_eq_nil_iff]

theorem notFound_ne_nil : qs "Not found" ≠ [] := by decide

theorem ofError_error (e : QString) : (Reply.ofError e).error = e := rfl

/-- A request without a transaction is answered with an error unless its operation fails
silently and the commit goes through. -/
theorem autoCommit_error_iff {place : Place} {op : TxOp} :
    ((c.coll.transact (E.env.on c.backend) op).1 ≠ .success →
        (s.autoCommit E place c op).2.error ≠ []) ↔
      (Transaction.FailsSilently (E.env.on c.backend) c.coll.db c.coll.newTransaction op →
        (c.coll.writeTransaction (E.env.on c.backend)
          (op.run (E.env.on c.backend) c.coll.db c.coll.newTransaction).2).1 ≠ .success) := by
  have hout :=
    (@Transaction.run_outcome (E.env.on c.backend) c.coll.db c.coll.newTransaction op).fails_iff
  rw [autoCommit, Collection.transact]
  generalize op.run (E.env.on c.backend) c.coll.db c.coll.newTransaction = result at hout ⊢
  obtain ⟨r, tx⟩ := result
  dsimp only at hout ⊢
  generalize c.coll.writeTransaction (E.env.on c.backend) tx = commit
  obtain ⟨r', coll⟩ := commit
  rw [← hout]
  by_cases hr' : r' = .success
  · by_cases hr : r = .success <;> simp [hr, hr', errorText, qs_eq_nil_iff]
  · simp [hr', notFound_ne_nil]

/-- A request with a transaction is answered with an error unless its operation fails
silently and the transaction has no older text. -/
theorem operation_error_iff {txId : ℤ} {op : TxOp} :
    ((∃ t c', s.transactions.lookup txId = some t ∧ s.collection? t.place = some c' ∧
        (op.run (E.env.on c'.backend) c'.coll.db t.tx).1 ≠ .success) →
        (s.operation E txId op).2.error ≠ []) ↔
      ∀ t c', s.transactions.lookup txId = some t → s.collection? t.place = some c' →
        Transaction.FailsSilently (E.env.on c'.backend) c'.coll.db t.tx op →
          t.tx.lastError ≠ "" := by
  rw [operation]
  cases ht : s.transactions.lookup txId with
  | none => simp
  | some t =>
    dsimp only
    cases hc' : s.collection? t.place with
    | none =>
      refine iff_of_true ?_ ?_
      · rintro ⟨t', c', ht', hc'', -⟩
        obtain rfl := Option.some.inj ht'
        cases hc'.symm.trans hc''
      · rintro t' c' ht' hc''
        obtain rfl := Option.some.inj ht'
        cases hc'.symm.trans hc''
    | some c' =>
      have hout := @Transaction.run_outcome (E.env.on c'.backend) c'.coll.db t.tx op
      dsimp only
      constructor
      · intro h t' c'' ht' hc'' hsilent htext
        obtain rfl := Option.some.inj ht'
        obtain rfl := Option.some.inj (hc'.symm.trans hc'')
        cases hout with
        | success hnot => exact hnot hsilent
        | silent _ hr hafter =>
          refine h ⟨t, c', rfl, hc', hr⟩ (errorText_eq_nil_iff.mpr (.inr ?_))
          rw [hafter, htext]
        | spoken hnot => exact hnot hsilent
      · rintro h ⟨t', c'', ht', hc'', hr⟩ herror
        obtain rfl := Option.some.inj ht'
        obtain rfl := Option.some.inj (hc'.symm.trans hc'')
        rcases errorText_eq_nil_iff.mp herror with hsuccess | hnil
        · exact hr hsuccess
        · obtain ⟨hsilent, hbefore⟩ := (hout.text_eq_nil_iff hr).mp hnil
          exact h t c' rfl hc' hsilent hbefore

/-- The reply to a reading request. -/
theorem readReply_error_iff {r : ResultEnum} {value : ReplyValue} (snapshotName : QString) :
    (NamesUnknown E c snapshotName ∨ r ≠ .success →
        (readReply (afterReaderOf E c snapshotName) r value).error ≠ []) ↔
      if r = .success then ¬ NamesUnknown E c snapshotName else HasText E c snapshotName := by
  rw [readReply, ← lastError_afterReaderOf_ne_nil_iff]
  by_cases hr : r = .success <;> simp [hr, ofError_error, qs_eq_nil_iff]

theorem forall_some_error_iff {q : QDocdbServer × Reply} {P : Prop} :
    (∀ p : QDocdbServer × Reply, P → some q = some p → p.2.error ≠ []) ↔
      (P → q.2.error ≠ []) := by
  constructor
  · intro h hP
    exact h q hP rfl
  · rintro h p hP heq
    obtain rfl := Option.some.inj heq
    exact h hP

variable (client) in
/-- A request that concerns nothing but its collection. -/
theorem serve_of_onCollection (hc : GetsTo E s o c) (hdoc : o.type.document? = none)
    (hresult : (∃ f n, o.type = .createIndex f n) ∨
      (readResult E c o.snapshotName o.type).isSome = true ∨
        o.type = .newSnapshot ∨ o.type = .revertToSnapshot ∨ o.type = .removeSnapshot) :
    s.serve E client o = (onCollection E c o.snapshotName o.type).map fun p =>
      ((s.openCollectionOf E o).setCollection o.place p.1, p.2) := by
  rw [serve_of_getsTo hc, serveCollection, hdoc]
  · dsimp only
    cases htype : o.type with
    | newTransaction => simp [htype, readResult] at hresult
    | observe => simp [htype, readResult] at hresult
    | _ => rfl
  all_goals
    intros
    intro htype
    simp [htype, readResult] at hresult

/-- A reading request is answered with its value or with the text of the collection. -/
theorem onCollection_of_readResult {snapshotName : QString} {type : LinkObjectType}
    {r : ResultEnum} (h : readResult E c snapshotName type = some r) :
    ∃ value, onCollection E c snapshotName type = some (afterReaderOf E c snapshotName,
      readReply (afterReaderOf E c snapshotName) r value) := by
  cases type <;> cases h
  all_goals exact ⟨_, rfl⟩

variable (client) in
theorem reports_read (hc : GetsTo E s o c) (hdoc : o.type.document? = none) {r : ResultEnum}
    (hread : readResult E c o.snapshotName o.type = some r) :
    (∀ p, NamesUnknown E c o.snapshotName ∨ r ≠ .success → s.serve E client o = some p →
        p.2.error ≠ []) ↔
      if r = .success then ¬ NamesUnknown E c o.snapshotName else HasText E c o.snapshotName := by
  obtain ⟨value, heq⟩ := onCollection_of_readResult hread
  rw [serve_of_onCollection client hc hdoc (.inr (.inl (by rw [hread]; rfl))), heq, Option.map_some]
  exact forall_some_error_iff.trans (readReply_error_iff _)

/-- Making an index fails with a text. -/
theorem reports_createIndex (hc : GetsTo E s o c) {fieldName indexName : QString}
    (htype : o.type = .createIndex fieldName indexName) {p : QDocdbServer × Reply}
    (hr : (c.coll.transact (E.env.on c.backend) (.createIndex fieldName indexName)).1 ≠ .success)
    (hp : s.serve E client o = some p) : p.2.error ≠ [] := by
  have hsuccess : (c.coll.newTransaction.createIndex (E.env.on c.backend) c.coll.db fieldName
      indexName).1 = .success := by
    rw [Transaction.createIndex]
    dsimp only
    split <;> rfl
  rw [serve_of_onCollection client hc (by rw [htype]; rfl) (.inl ⟨_, _, htype⟩), htype,
    onCollection] at hp
  rw [Collection.transact, TxOp.run] at hr
  generalize c.coll.newTransaction.createIndex (E.env.on c.backend) c.coll.db fieldName
    indexName = result at hsuccess hr hp
  obtain ⟨r, tx⟩ := result
  obtain rfl : r = .success := hsuccess
  dsimp only at hr hp
  rw [if_pos rfl] at hr hp
  obtain rfl := Option.some.inj hp
  exact fun h => notFound_ne_nil (qs_eq_nil_iff.mpr
    ((errorText_eq_nil_iff.mp h).resolve_left hr))

/-- The reply to a snapshot operation of a proper name. -/
theorem serve_of_snapshot (hc : GetsTo E s o c)
    (htype : o.type = .newSnapshot ∨ o.type = .revertToSnapshot ∨ o.type = .removeSnapshot)
    {p : QDocdbServer × Reply} (hp : s.serve E client o = some p) :
    (o.snapshotName = currentName ∧ p.2.error ≠ []) ∨
      o.snapshotName ≠ currentName ∧ ∃ q : ResultEnum × Collection,
        (o.type = .newSnapshot →
          q = c.coll.newSnapshot (E.env.on c.backend) o.snapshotName) ∧
        (o.type = .revertToSnapshot →
          q = c.coll.revertToSnapshot (E.env.on c.backend) o.snapshotName) ∧
        (o.type = .removeSnapshot →
          c.coll.removeSnapshot (E.env.on c.backend) o.snapshotName = some q) ∧
        p.2.error = errorText q.1 q.2.lastError := by
  have hdoc : o.type.document? = none := by
    rcases htype with h | h | h <;> rw [h] <;> rfl
  have hinvalid : ∀ n, (qs "Invalid snapshot name: " ++ n : QString) ≠ [] := by
    intro n h
    exact absurd (List.append_eq_nil_iff.mp h).1 (by decide)
  rw [serve_of_onCollection client hc hdoc (.inr (.inr htype))] at hp
  by_cases hname : o.snapshotName = currentName
  · refine .inl ⟨hname, ?_⟩
    rcases htype with h | h | h <;> rw [h, onCollection, if_pos hname] at hp <;>
      obtain rfl := Option.some.inj hp <;> exact hinvalid _
  · refine .inr ⟨hname, ?_⟩
    rcases htype with h | h | h <;>
      rw [h, onCollection, if_neg hname, snapshotReply, Option.map_map] at hp <;>
      obtain ⟨q, hq, rfl⟩ := Option.map_eq_some_iff.mp hp
    · exact ⟨q, fun _ => (Option.some.inj hq).symm, by simp [h], by simp [h], rfl⟩
    · exact ⟨q, by simp [h], fun _ => (Option.some.inj hq).symm, by simp [h], rfl⟩
    · exact ⟨q, by simp [h], by simp [h], fun _ => hq, rfl⟩

theorem removeSnapshot_reported {n : QString} {q : ResultEnum × Collection}
    (hq : c.coll.removeSnapshot (E.env.on c.backend) n = some q) (hname : n ≠ currentName)
    (hr : q.1 ≠ .success) : errorText q.1 q.2.lastError ≠ [] ↔ HasText E c n := by
  rw [Ne, errorText_eq_nil_iff, removeSnapshot_text hq hr, ← lastError_afterReaderOf_ne_nil_iff,
    afterReaderOf, if_neg hname]
  simp [hr]

theorem revertToSnapshot_reported {n : QString} (hname : n ≠ currentName)
    (hr : (c.coll.revertToSnapshot (E.env.on c.backend) n).1 ≠ .success) :
    errorText (c.coll.revertToSnapshot (E.env.on c.backend) n).1
      (c.coll.revertToSnapshot (E.env.on c.backend) n).2.lastError ≠ [] ↔ HasText E c n := by
  rw [Ne, errorText_eq_nil_iff, (revertToSnapshot_text hr).2,
    ← lastError_afterReaderOf_ne_nil_iff, afterReaderOf, if_neg hname]
  simp [hr]

variable (client) in
/-- A request that reads nothing: the failures of an index, and of a snapshot operation. -/
theorem reports_snapshot (hc : GetsTo E s o c) (hdoc : o.type.document? = none) :
    (∀ p, (∃ f n, o.type = .createIndex f n ∧
          (c.coll.transact (E.env.on c.backend) (.createIndex f n)).1 ≠ .success) ∨
        (∃ r, snapshotResult E c o.snapshotName o.type = some r ∧ r ≠ .success) →
      s.serve E client o = some p → p.2.error ≠ []) ↔
      (o.type = .revertToSnapshot → NamesUnknown E c o.snapshotName →
        HasText E c o.snapshotName) ∧
      (o.type = .removeSnapshot → o.snapshotName ≠ currentName →
        (∃ p, c.coll.removeSnapshot (E.env.on c.backend) o.snapshotName = some p ∧
          p.1 ≠ .success) → HasText E c o.snapshotName) := by
  constructor
  · refine fun h => ⟨fun hrevert hunknown => ?_, fun hremove hname hfails => ?_⟩
    · have hr := revertToSnapshot_of_unknown hunknown.2
      have hserve := serve_of_onCollection client hc hdoc
        (.inr (.inr (.inr (.inl hrevert))))
      rw [hrevert, onCollection, if_neg hunknown.1] at hserve
      rw [← revertToSnapshot_reported hunknown.1 hr]
      exact h _ (.inr ⟨_, by rw [hrevert]; rfl, hr⟩) hserve
    · obtain ⟨q, hq, hr⟩ := hfails
      have hserve := serve_of_onCollection client hc hdoc
        (.inr (.inr (.inr (.inr hremove))))
      rw [hremove, onCollection, if_neg hname, hq] at hserve
      rw [← removeSnapshot_reported hq hname hr]
      exact h _ (.inr ⟨q.1, by rw [hremove, snapshotResult, hq]; rfl, hr⟩) hserve
  · rintro ⟨hrevert, hremove⟩ p (⟨f, n, htype, hr⟩ | ⟨r, hresult, hr⟩) hp
    · exact reports_createIndex hc htype hr hp
    · have htype : o.type = .newSnapshot ∨ o.type = .revertToSnapshot ∨
          o.type = .removeSnapshot := by
        cases htype : o.type <;> simp [htype, snapshotResult] at hresult ⊢
      rcases serve_of_snapshot hc htype hp with ⟨-, herror⟩ | ⟨hname, q, hnew, hrev, hrem, herror⟩
      · exact herror
      rw [herror]
      rcases htype with htype | htype | htype <;> rw [htype] at hresult
      · obtain rfl := Option.some.inj hresult
        rw [hnew htype, Ne, errorText_eq_nil_iff]
        exact not_or.mpr ⟨hr, newSnapshot_text hr⟩
      · obtain rfl := Option.some.inj hresult
        rw [hrev htype, revertToSnapshot_reported hname hr]
        exact hrevert htype ⟨hname, (revertToSnapshot_text hr).1⟩
      · obtain ⟨q', hq', rfl⟩ := Option.map_eq_some_iff.mp hresult
        obtain rfl := Option.some.inj (hq'.symm.trans (hrem htype))
        rw [removeSnapshot_reported hq' hname hr]
        exact hremove htype hname ⟨q', hq', hr⟩

variable (client) in
/-- **One request**: the failures of a request that gets to a collection are reported if and
only if it does not run into a silent one. -/
theorem reports_iff (hc : GetsTo E s o c) :
    (∀ p, RequestFails E (s.openCollectionOf E o) o c → s.serve E client o = some p →
        p.2.error ≠ []) ↔ Reports E (s.openCollectionOf E o) o c := by
  rw [RequestFails, Reports]
  cases hdoc : o.type.document? with
  | some q =>
    obtain ⟨txId, op⟩ := q
    rw [serve_of_getsTo hc, serveCollection, hdoc]
    · dsimp only
      split
      · exact forall_some_error_iff.trans autoCommit_error_iff
      · exact forall_some_error_iff.trans operation_error_iff
    all_goals
      intros
      intro htype
      simp [htype, LinkObjectType.document?] at hdoc
  | none =>
    dsimp only
    cases hread : readResult E c o.snapshotName o.type with
    | some r =>
      -- a reading request makes no index and is no snapshot operation
      have hother : (∀ f n, o.type ≠ .createIndex f n) ∧ o.type ≠ .revertToSnapshot ∧
          o.type ≠ .removeSnapshot ∧ snapshotResult E c o.snapshotName o.type = none := by
        cases htype : o.type <;> rw [htype] at hread <;> cases hread
        all_goals simp [snapshotResult]
      obtain ⟨hindex, hrevert, hremove, hsnapshot⟩ := hother
      rw [hsnapshot]
      simpa [hindex, hrevert, hremove] using reports_read client hc hdoc hread
    | none =>
      have h := reports_snapshot client hc hdoc
      simpa using h

/-- **Failures are reported** for a request if and only if, where it gets to a collection,
it does not run into a failure that sets no text, or an older text is there. -/
theorem failureReported_iff : FailureReported E s client o ↔
    ∀ c, GetsTo E s o c → Reports E (s.openCollectionOf E o) o c := by
  constructor
  · intro h c hc
    exact (reports_iff client hc).mp fun p hfails hp => (h c p hc hfails hp).1
  · intro h c p hc hfails hp
    have herror := (reports_iff client hc).mpr (h c hc) p hfails hp
    exact ⟨herror, mt QDocdbClient.sendAndWaitReply_eq_success_iff.mp herror⟩

/-- Inserting a document a second time is refused, and the reply says nothing. -/
theorem not_failureReported :
    ¬ ∀ (E : ServerEnv) (s : QDocdbServer) (client : ClientId) (o : QDocdbLinkObject),
      ServerReachable E (fun _ _ => True) s → FailureReported E s client o := by
  intro h
  let o := requestD 1 arrayA
  let op := TxOp.insert
    (QJsonObject.insert [(qs "_id", .string (qs "a"))] (qs "f") (.array [.string (qs "x")]))
    ⟨[], []⟩ false false
  let silent : QDocdbServer → Bool := fun s => (s.databases o.url.dbName).isSome &&
    ((s.openCollectionOf emptyServerEnv o).collection? o.place).any fun c =>
      decide ((c.coll.transact (emptyServerEnv.env.on c.backend) op).1 ≠ .success) &&
      (s.serve emptyServerEnv 1 o).any fun p => decide (p.2.error = [])
  let es : List Event := [.connected 1, .received 1 (requestD 0 arrayA)]
  obtain ⟨s, hs, hp⟩ := exists_of_handleAll (E := emptyServerEnv) (p := silent)
    (fun _ e (_ : e ∈ es) => trivial) (by decide)
  simp only [Bool.and_eq_true, Option.any_eq_true, decide_eq_true_eq, silent] at hp
  obtain ⟨hdb, c, hc, hr, p, hserve, herror⟩ := hp
  exact (h emptyServerEnv s 1 o hs c p ⟨hdb, by decide, hc⟩ (by
    rw [RequestFails]
    exact hr) hserve).1 herror

end QDocdbServer

end Qdocdb
