import Qdocdb.Batches
import Qdocdb.IndexCompleteness
import Qdocdb.LostReplies
import Qdocdb.Patches
import Qdocdb.Reload

/-!
# Observers as views

A reply should stay what a fresh `find` of the observer's query could return, while serial
transactions insert, overwrite and remove documents and the reply is only patched. It stays so
through each transaction whose patches are right, which commits its calls in order and whose
replies are copied back (`upToDate_of_run`).
-/

namespace Qdocdb

/-! ## What find could return -/

namespace Observer

/-- The documents that `find` returns when no options are applied. -/
def found (E : Env) (R : Reader) (ob : Observer) : List QJsonValue :=
  (find E R ob.query []).2.map Prod.fst

/-- A fresh `find` returns and succeeds, and the reply is what the options that it applies make
of the documents that it finds, taken in some order. -/
structure UpToDate (E : Env) (R : Reader) (ob : Observer) : Prop where
  returns : (find? E R ob.query ob.queryOptions).isSome
  success : (find E R ob.query ob.queryOptions).1 = .success
  reply : ∃ l, l.Perm (ob.found E R) ∧
    ob.reply = applyOptionsReply l (ob.findOptions R.getIndexes)

/-- `find` finds the documents that match, each of them once. -/
structure FindsMatching (E : Env) (R : Reader) (ob : Observer) : Prop where
  returns : (find? E R ob.query ob.queryOptions).isSome
  success : (find E R ob.query []).1 = .success
  nodup : (ob.found E R).Nodup
  mem_iff : ∀ v, v ∈ ob.found E R ↔ v ∈ ob.matching E (visible R.db R.snapshotId)

variable {E : Env} {R : Reader} {ob : Observer}

/-- `find` succeeds with or without the options. -/
theorem find_success_iff : (find E R ob.query ob.queryOptions).1 = .success ↔
    (find E R ob.query []).1 = .success := by
  by_cases hindexed : Indexed R.getIndexes ob.query
  · rw [find_of_indexed_congr hindexed]
  · rw [find_eq_fullSearch hindexed, find_eq_fullSearch hindexed, fullSearch, fullSearch]
    generalize collectValid E ob.query _ = result
    obtain ⟨r, reply⟩ := result
    cases r <;> exact Iff.rfl

/-- **A fresh find** returns what its options make of the documents that it finds. -/
theorem reply_find (h : (find E R ob.query []).1 = .success) :
    (find E R ob.query ob.queryOptions).2.map Prod.fst =
      applyOptionsReply (ob.found E R) (ob.findOptions R.getIndexes) := by
  rw [found, findOptions]
  by_cases hindexed : Indexed R.getIndexes ob.query
  · rw [find_of_indexed_congr hindexed, if_pos hindexed, applyOptionsReply_nil]
  · rw [find_eq_fullSearch hindexed, fullSearch] at h
    rw [find_eq_fullSearch hindexed, find_eq_fullSearch hindexed, fullSearch, fullSearch,
      if_neg hindexed]
    generalize collectValid E ob.query _ = result at h ⊢
    obtain ⟨r, reply⟩ := result
    cases r <;> try cases h
    show List.map Prod.fst (applyOptions reply ob.queryOptions) =
      applyOptionsReply (List.map Prod.fst reply) ob.queryOptions
    rw [map_applyOptions, applyOptionsReply_eq, List.length_map]

/-- An observer with the reply of a fresh `find` is up to date. -/
theorem upToDate_of_reply_eq (hreturns : (find? E R ob.query ob.queryOptions).isSome)
    (h : (find E R ob.query ob.queryOptions).1 = .success)
    (hreply : ob.reply = (find E R ob.query ob.queryOptions).2.map Prod.fst) :
    ob.UpToDate E R :=
  ⟨hreturns, h, _, .refl _, hreply.trans (reply_find (find_success_iff.mp h))⟩

/-- Without a limit the reply has the documents of a fresh `find`, each as often as there. -/
theorem UpToDate.perm_find (h : ob.UpToDate E R) (hlimit : limitOf ob.queryOptions = none) :
    ob.reply.Perm ((find E R ob.query ob.queryOptions).2.map Prod.fst) := by
  obtain ⟨l, hperm, hreply⟩ := h.reply
  have hall : ∀ l : List QJsonValue,
      (applyOptionsReply l (ob.findOptions R.getIndexes)).Perm l := by
    intro l
    rw [findOptions]
    split
    · rw [applyOptionsReply_nil]
    · rw [applyOptionsReply_eq, hlimit]
      exact perm_bubbleSort _ _
  rw [hreply, reply_find (find_success_iff.mp h.success)]
  exact (hall l).trans (hperm.trans (hall _).symm)

/-- **A selection of the documents that match** is what `find` could return. -/
theorem Shows.upToDate
    (h : ob.Shows E R.getIndexes (visible R.db R.snapshotId) ob.reply)
    (hfinds : ob.FindsMatching E R) (hV : View.Named (visible R.db R.snapshotId)) :
    ob.UpToDate E R := by
  refine ⟨hfinds.returns, find_success_iff.mpr hfinds.success, ?_⟩
  obtain ⟨L, hnodup, hmem, hordered, hcut⟩ :=
    Selection.arranged h outOfOrder_asymm hfinds.mem_iff
  refine ⟨L, (List.perm_ext_iff_of_nodup hnodup hfinds.nodup).mpr fun v => ?_, ?_⟩
  · rw [hmem, hfinds.mem_iff]
  · rw [← hcut]
    exact (applyOptionsReply_of_ordered
      (namesApart_of_forall hV fun v hv => (hmem v).mp hv) hordered).symm

/-- What is left out does not come before what is shown. -/
def ShowsFirst (E : Env) (R : Reader) (ob : Observer) : Prop :=
  ∀ v ∈ ob.reply, ∀ w ∈ ob.matching E (visible R.db R.snapshotId), w ∉ ob.reply →
    ob.late R.getIndexes v w = false

/-- **An observer that is up to date** shows a selection, if that comes first. -/
theorem UpToDate.shows (h : ob.UpToDate E R) (hfinds : ob.FindsMatching E R)
    (hV : View.Named (visible R.db R.snapshotId)) (hfirst : ob.ShowsFirst E R) :
    ob.Shows E R.getIndexes (visible R.db R.snapshotId) ob.reply := by
  obtain ⟨l, hperm, hreply⟩ := h.reply
  have hmem : ∀ v, v ∈ l ↔ v ∈ ob.matching E (visible R.db R.snapshotId) := fun v => by
    rw [hperm.mem_iff, hfinds.mem_iff]
  obtain ⟨l', hperm', hordered, heq⟩ := exists_applyOptionsReply
    (namesApart_of_forall hV fun v hv => (hmem v).mp hv) (ob.findOptions R.getIndexes)
  refine Arranged.selection ⟨l', ?_, fun v => ?_, hordered, ?_⟩ hfirst
  · exact (hperm'.trans hperm).nodup_iff.mpr hfinds.nodup
  · rw [hperm'.mem_iff, hmem]
  · rw [hreply, heq]
    rfl

/-- When the documents can be compared, what is up to date comes first. -/
theorem UpToDate.showsFirst (h : ob.UpToDate E R) (hfinds : ob.FindsMatching E R)
    (hV : View.Named (visible R.db R.snapshotId))
    (hcomparable : Comparable (ob.late R.getIndexes)
      (ob.matching E (visible R.db R.snapshotId))) : ob.ShowsFirst E R := by
  obtain ⟨l, hperm, hreply⟩ := h.reply
  have hmem : ∀ v, v ∈ l ↔ v ∈ ob.matching E (visible R.db R.snapshotId) := fun v => by
    rw [hperm.mem_iff, hfinds.mem_iff]
  obtain ⟨l', hperm', hordered, heq⟩ := exists_applyOptionsReply
    (namesApart_of_forall hV fun v hv => (hmem v).mp hv) (ob.findOptions R.getIndexes)
  have hmem' : ∀ v, v ∈ l' ↔ v ∈ ob.matching E (visible R.db R.snapshotId) := fun v => by
    rw [hperm'.mem_iff, hmem]
  have hsorted : l'.Pairwise fun v w => ob.late R.getIndexes v w = false :=
    Ordered.pairwise hordered hcomparable fun v hv => (hmem' v).mp hv
  obtain ⟨rest, hrest⟩ := prefix_cut (limitOf (ob.findOptions R.getIndexes)) l'
  rw [← hrest, List.pairwise_append] at hsorted
  intro v hv w hw hwn
  rw [hreply, heq] at hv hwn
  refine hsorted.2.2 v hv w ?_
  rw [← hmem', ← hrest, List.mem_append] at hw
  exact hw.resolve_left hwn

/-! ## The loop over the documents -/

/-- The candidates that a query is evaluated on: the documents that its link keys name, or all
that the loop goes over. -/
def candidates (E : Env) (R : Reader) (ob : Observer) : List (QJsonValue × QByteArray) :=
  if Indexed R.getIndexes ob.query then Qdocdb.candidates E R ob.query
  else enumerate E.backend R.db R.snapshotId

/-- The link keys that answer the query are right: each index consulted has an entry, `multiply`
stays in its lists, and of the documents that are named those that satisfy the query are the ones
that match, each once. -/
structure Linked (E : Env) (R : Reader) (ob : Observer) : Prop where
  there : EntriesThere E R R.getIndexes ob.query
  ends : IntersectionsEnd E R ob.query none
  nodup : (((Qdocdb.candidates E R ob.query).filter (selects E ob.query)).map Prod.fst).Nodup
  mem_iff : ∀ v, v ∈ ((Qdocdb.candidates E R ob.query).filter (selects E ob.query)).map Prod.fst ↔
    v ∈ ob.matching E (visible R.db R.snapshotId)

/-- The query comes to one value on each candidate, whatever the unset flags hold, and the link
keys that answer it, if there are such, are right. -/
structure Findable (E : Env) (R : Reader) (ob : Observer) : Prop where
  certain : ∀ e ∈ ob.candidates E R, Certain ob.query e.1
  linked : Indexed R.getIndexes ob.query → ob.Linked E R

/-- A query that is certain on the candidates is answered alike by all loops. -/
theorem collectValid_of_certain {query : QJsonObject} {l : List (QJsonValue × QByteArray)}
    (h : ∀ e ∈ l, Certain query e.1) (flags : QJsonValue → List ℕ → Bool) :
    collectValid (E.withFlags flags) query l = (.success, l.filter (selects E query)) := by
  rw [collectValid_of_all (List.all_eq_true.mpr fun e he => (h e he).evaluable flags)]
  exact congrArg _ (List.filter_congr fun e he => (h e he).selects_eq flags E.uninitialized)

section Loop

variable {F : Set QByteArray} {s : Byte}

theorem named_visible (h : DocumentStore F s R.db) :
    View.Named (visible R.db R.snapshotId) :=
  fun _ _ ho => h.good.id_of_visible ho

theorem mem_enumerate_iff (hF : PlainIds F) (hstore : DocumentStore F s R.db) {o : QJsonObject}
    {id : QByteArray} : (.object o, id) ∈ enumerate E.backend R.db R.snapshotId ↔
      id ∈ F ∧ visible R.db R.snapshotId id = some o :=
  mem_documents_iff_enumerate.symm.trans (hstore.mem_documents_iff (E := E) hF.separated)

/-- The loop selects each document once. -/
theorem nodup_selected (E : Env) (ob : Observer) (hF : PlainIds F)
    (hstore : DocumentStore F s R.db) :
    (((enumerate E.backend R.db R.snapshotId).filter (selects E ob.query)).map Prod.fst).Nodup := by
  rw [List.nodup_iff_pairwise_ne, List.pairwise_map]
  refine ((pairwise_enumerate hF.separated hstore.good.shape E.backend R.snapshotId).filter
    _).imp_of_mem fun {e e'} he he' hne heq => ?_
  obtain ⟨v, id⟩ := e
  obtain ⟨v', id'⟩ := e'
  obtain rfl : v = v' := heq
  obtain ⟨he, hs⟩ := List.mem_filter.mp he
  obtain ⟨o, rfl⟩ := exists_object_of_selects hs
  have hid := (named_visible hstore _ _ ((mem_enumerate_iff hF hstore).mp he).2).eq
    (named_visible hstore _ _ ((mem_enumerate_iff hF hstore).mp (List.mem_filter.mp he').1).2)
  exact hne rfl rfl hid

/-- The loop selects the documents that match. -/
theorem mem_selected (E : Env) (ob : Observer) (hF : PlainIds F) (hstore : DocumentStore F s R.db)
    (v : QJsonValue) :
    v ∈ ((enumerate E.backend R.db R.snapshotId).filter (selects E ob.query)).map Prod.fst ↔
      v ∈ ob.matching E (visible R.db R.snapshotId) := by
  rw [List.mem_map]
  constructor
  · rintro ⟨⟨v, id⟩, he, rfl⟩
    obtain ⟨he, hs⟩ := List.mem_filter.mp he
    obtain ⟨o, rfl⟩ := exists_object_of_selects hs
    exact ⟨id, o, ((mem_enumerate_iff hF hstore).mp he).2, rfl, by
      simpa [selects, QJsonValue.isObject, Matches] using hs⟩
  · rintro ⟨id, o, ho, rfl, hmatch⟩
    have hid : id ∈ F := hstore.good.shape.mem_of_visible hF.colonFree ho
    have he := (mem_enumerate_iff (E := E) hF hstore).mpr ⟨hid, ho⟩
    exact ⟨(.object o, id), List.mem_filter.mpr ⟨he, by
      simpa [selects, QJsonValue.isObject, Matches] using hmatch⟩, rfl⟩

/-- What `find` selects its reply from is evaluated alike, whatever the flags hold. -/
theorem Findable.find_withFlags (h : ob.Findable E R) (flags : QJsonValue → List ℕ → Bool)
    (options : QJsonObject) :
    find (E.withFlags flags) R ob.query options = find E R ob.query options := by
  have hcertain := h.certain
  rw [candidates] at hcertain
  by_cases hindexed : Indexed R.getIndexes ob.query
  · rw [if_pos hindexed] at hcertain
    have hthere := (h.linked hindexed).there
    have hfind := find_eq_collectValid (E := E.withFlags flags) hindexed hthere options
    have hsame := collectValid_of_certain (E := E) hcertain E.uninitialized
    rw [find_eq_collectValid hindexed hthere, hfind]
    exact (collectValid_of_certain hcertain flags).trans hsame.symm
  · rw [if_neg hindexed] at hcertain
    have hplain : collectValid E ob.query (enumerate E.backend R.db R.snapshotId) = _ :=
      collectValid_of_certain hcertain E.uninitialized
    have hflags : collectValid (E.withFlags flags) ob.query
        (enumerate (E.withFlags flags).backend R.db R.snapshotId) = _ :=
      collectValid_of_certain hcertain flags
    rw [find_eq_fullSearch hindexed, find_eq_fullSearch hindexed, fullSearch, fullSearch, hplain,
      hflags]

/-- `find` returns. -/
theorem Findable.returns (h : ob.Findable E R) (flags : QJsonValue → List ℕ → Bool)
    (options : QJsonObject) : (find? (E.withFlags flags) R ob.query options).isSome := by
  have hends : IntersectionsEnd E R ob.query none := by
    by_cases hindexed : Indexed R.getIndexes ob.query
    · exact (h.linked hindexed).ends
    · exact intersectionsEnd_of_not_indexed hindexed none
  have hfind := (@find?_eq_some_iff (E.withFlags flags) _ _ options _).mpr
    ⟨(intersectionsEnd_withFlags flags none).mpr hends, rfl⟩
  rw [hfind, Option.isSome_some]

/-- **A query that is certain** on all candidates finds the documents that match. -/
theorem Findable.findsMatching (h : ob.Findable E R) (hF : PlainIds F)
    (hstore : DocumentStore F s R.db) : ob.FindsMatching E R := by
  have hcollect : collectValid E ob.query (ob.candidates E R) = _ :=
    collectValid_of_certain h.certain E.uninitialized
  rw [candidates] at hcollect
  have hreturns := h.returns E.uninitialized ob.queryOptions
  by_cases hindexed : Indexed R.getIndexes ob.query
  · obtain ⟨hthere, -, hnodup, hmem⟩ := h.linked hindexed
    rw [if_pos hindexed] at hcollect
    have hfind := (find_eq_collectValid hindexed hthere []).trans hcollect
    refine ⟨hreturns, by rw [hfind], ?_, ?_⟩ <;> rw [found, hfind]
    · exact hnodup
    · exact hmem
  · rw [if_neg hindexed] at hcollect
    have hfind : find E R ob.query [] =
        (.success, (enumerate E.backend R.db R.snapshotId).filter (selects E ob.query)) := by
      rw [find_eq_fullSearch hindexed, fullSearch, hcollect]
      rfl
    refine ⟨hreturns, by rw [hfind], ?_, ?_⟩ <;> rw [found, hfind]
    · exact nodup_selected E ob hF hstore
    · exact mem_selected E ob hF hstore

/-- An observer that is up to date for some contents of the flags is so for all. -/
theorem UpToDate.withFlags (h : ob.UpToDate E R) (hfindable : ob.Findable E R)
    (flags : QJsonValue → List ℕ → Bool) : ob.UpToDate (E.withFlags flags) R where
  returns := hfindable.returns flags ob.queryOptions
  success := by
    rw [hfindable.find_withFlags]
    exact h.success
  reply := by
    rw [found, hfindable.find_withFlags]
    exact h.reply

end Loop

end Observer

/-! ## Transactions -/

section Views

variable {F : Set QByteArray} {s : Byte} {db : Store} {id : QByteArray}

/-- Calls for one id change nothing of what is seen under others. -/
theorem visible_applyLog_of_ne (hF : PlainIds F) (hid : id ∈ F) (hS : Shape F db)
    {ws : List (WriteOp QByteArray Blob)} (hS' : Shape F (db.applyLog ws))
    (hws : ∀ w ∈ ws, IsKeyOf id w.key) {I : QByteArray} (hI : I ≠ id) :
    visible (db.applyLog ws) s I = visible db s I := by
  by_cases hIF : I ∈ F
  · refine visible_congr fun t _ => SortedMap.find?_applyLog_of_forall_ne db fun w hw heq => hI ?_
    exact hF.separated.eq_of_isKeyOf hid hIF (heq ▸ hws w hw) (isKeyOf_linkKey I t)
  · rw [Option.eq_none_iff_forall_ne_some.mpr fun o ho =>
        hIF (hS'.mem_of_visible hF.colonFree ho),
      Option.eq_none_iff_forall_ne_some.mpr fun o ho =>
        hIF (hS.mem_of_visible hF.colonFree ho)]

/-- What is seen after a document was stored. -/
theorem visible_putJsonValue (hF : PlainIds F) (hid : id ∈ F) (hdb : DocumentStore F s db)
    {o : QJsonObject} (ho : NamesId o id) :
    visible (db.applyLog (Transaction.putJsonValue id s o)) s =
      Function.update (visible db s) id (some o) := by
  obtain ⟨sid, hsid, hlatin⟩ := ho
  have hstep : DocumentStep F s db (db.applyLog (Transaction.putJsonValue id s o)) :=
    ⟨_, .stored hid hsid hlatin, rfl⟩
  funext I
  by_cases hI : I = id
  · subst hI
    rw [Function.update_self]
    refine visible_of_document ?_
    rw [find?_putJsonValue_linkKey hF.separated hid hid, if_pos ⟨rfl, rfl⟩]
  · rw [Function.update_of_ne hI]
    exact visible_applyLog_of_ne hF hid hdb.good.shape (hstep.goodStore hdb.good).shape
      (fun w hw => Transaction.putJsonValue_key hw) hI

/-- What is seen after a version was removed. -/
theorem visible_removeVersion (hF : PlainIds F) (hid : id ∈ F) (hdb : DocumentStore F s db)
    {scan : ValueScan} (hws : DocumentWrites F s db (Transaction.removeVersion id s scan)) :
    visible (db.applyLog (Transaction.removeVersion id s scan)) s =
      Function.update (visible db s) id none := by
  have hstep : DocumentStep F s db (db.applyLog (Transaction.removeVersion id s scan)) :=
    ⟨_, hws, rfl⟩
  funext I
  by_cases hI : I = id
  · subst hI
    rw [Function.update_self, Option.eq_none_iff_forall_ne_some]
    intro o ho
    obtain ⟨t, ht⟩ := visible_eq_some_iff.mp ho
    exact lt_irrefl s ((ht.of_removeVersion hF.separated hws hdb hid hid).2 rfl)
  · rw [Function.update_of_ne hI]
    exact visible_applyLog_of_ne hF hid hdb.good.shape (hstep.goodStore hdb.good).shape
      (fun w hw => Transaction.removeVersion_key hw) hI

end Views

/-- What an operation comes to, read off the committed store and the index entries that the
transaction reads. -/
inductive TxOp.ComesTo (E : Env) (db : Store) (tx : Transaction) : TxOp → Change → Prop
  | stored {doc : QJsonObject} {gen : Transaction.IdGen} {overwrite ignoreReadOnlyValue : Bool}
    {id : QByteArray} {o : QJsonObject} {isOld : Bool}
    (h : Transaction.accepted E db tx.snapshotId doc gen overwrite ignoreReadOnlyValue =
      some (id, o, isOld)) :
    ComesTo E db tx (.insert doc gen overwrite ignoreReadOnlyValue) (.stored id o isOld)
  | insertRefused {doc : QJsonObject} {gen : Transaction.IdGen}
    {overwrite ignoreReadOnlyValue : Bool}
    (h : Transaction.accepted E db tx.snapshotId doc gen overwrite ignoreReadOnlyValue = none) :
    ComesTo E db tx (.insert doc gen overwrite ignoreReadOnlyValue) .refused
  | removed {id : QByteArray} {ignoreReadOnlyValue : Bool} {doc : QJsonObject} {scan : ValueScan}
    (h : Transaction.removable E db tx.snapshotId id ignoreReadOnlyValue = some (doc, scan))
    (hlinks : (tx.links E db).Removable (Transaction.removalLinks E db tx.snapshotId
      (tx.reader E db).getIndexes ignoreReadOnlyValue id)) :
    ComesTo E db tx (.removeById id ignoreReadOnlyValue) (.removed id doc)
  | brokenOff {id : QByteArray} {ignoreReadOnlyValue : Bool} {doc : QJsonObject}
    {scan : ValueScan}
    (h : Transaction.removable E db tx.snapshotId id ignoreReadOnlyValue = some (doc, scan))
    (hlinks : ¬ (tx.links E db).Removable (Transaction.removalLinks E db tx.snapshotId
      (tx.reader E db).getIndexes ignoreReadOnlyValue id)) :
    ComesTo E db tx (.removeById id ignoreReadOnlyValue) (.brokenOff id)
  | removeRefused {id : QByteArray} {ignoreReadOnlyValue : Bool}
    (h : Transaction.removable E db tx.snapshotId id ignoreReadOnlyValue = none) :
    ComesTo E db tx (.removeById id ignoreReadOnlyValue) .refused

/-- The query of the observer comes to one value on the document of the change, whatever the unset
flags hold. -/
def Change.CertainFor (ob : Observer) : Change → Prop
  | .stored _ o _ => Certain ob.query (.object o)
  | .removed _ doc => Certain ob.query (.object doc)
  | _ => True

/-- The patches of the operations are certain and right, one after the other, from the documents
`V` on. -/
def PatchesKept (E : Env) (indexes : List (QString × QString)) (db : Store) :
    List TxOp → Transaction → View → Prop
  | [], _, _ => True
  | op :: ops, tx, V => ∃ c, op.ComesTo E db tx c ∧
      (∀ k ob, tx.observers.lookup k = some ob → c.CertainFor ob ∧ c.Keeps E indexes V ob) ∧
      PatchesKept E indexes db ops (op.run E db tx).2 (c.view V)

/-! ### One operation -/

section Step

variable {E : Env} {F : Set QByteArray} {s : Byte} {db : Store} {tx tx' : Transaction}
  {V V' : View}

/-- An open transaction over `db` that has stored and removed documents so that `V` would be
seen after it. -/
structure InTransaction (E : Env) (F : Set QByteArray) (s : Byte) (db : Store) (tx : Transaction)
    (V : View) : Prop where
  snapshotId : tx.snapshotId = s
  documents : ∃ ws db', tx.kvdb = KVTransaction.new.writes E.backend ws ∧
    DocumentSteps F s db db' ∧ DocumentStore F s db' ∧
    (∀ I k, IsKeyOf I k → (db.applyLog ws).find? k = db'.find? k) ∧ visible db' s = V

theorem inTransaction_newTransaction {σ : Collection} (h : DocumentStore F σ.snapshotId σ.db) :
    InTransaction E F σ.snapshotId σ.db σ.newTransaction (visible σ.db σ.snapshotId) :=
  ⟨rfl, [], σ.db, rfl, .refl, h, fun _ _ _ => rfl, rfl⟩

theorem InTransaction.congr (h : InTransaction E F s db tx V) (hk : tx'.kvdb = tx.kvdb)
    (hs : tx'.snapshotId = tx.snapshotId) : InTransaction E F s db tx' V :=
  ⟨hs.trans h.snapshotId, hk ▸ h.documents⟩

/-- After the calls for a document, and others that are not about documents. -/
theorem InTransaction.wrote (h : InTransaction E F s db tx V) (hF : PlainIds F)
    {dws iws : List (WriteOp QByteArray Blob)} (hw : Transaction.Wrote E (dws ++ iws) tx tx')
    (hdws : DocumentWrites F s db dws) (hiws : ∀ w ∈ iws, IsMetaKey w.key)
    (hV : ∀ db', DocumentStore F s db' → DocumentWrites F s db' dws → visible db' s = V →
      visible (db'.applyLog dws) s = V') : InTransaction E F s db tx' V' := by
  obtain ⟨ws, db', hk, hsteps, hstore, hsame, hvis⟩ := h.documents
  have hdws' : DocumentWrites F s db' dws := hdws.documentSteps hF.separated hsteps
  have hstep : DocumentStep F s db' (db'.applyLog dws) := ⟨dws, hdws', rfl⟩
  refine ⟨hw.snapshotId.trans h.snapshotId, ws ++ (dws ++ iws), db'.applyLog dws, hw.kvdb_eq hk,
    hsteps.tail hstep, hstore.documentStep hF.separated hstep, fun I k hkey => ?_,
    hV db' hstore hdws' hvis⟩
  rw [SortedMap.applyLog_append, SortedMap.applyLog_append,
    SortedMap.find?_applyLog_of_forall_ne _ fun w hw heq =>
      (heq ▸ hiws w hw).not_isKeyOf hkey,
    SortedMap.find?_applyLog (db.applyLog ws), SortedMap.find?_applyLog db', hsame I k hkey]

/-- **removeById** of a document that it finds writes to its version first. -/
theorem wrote_removeById {ws : List (WriteOp QByteArray Blob)}
    (hk : tx.kvdb = KVTransaction.new.writes E.backend ws) {id : QByteArray}
    {ignoreReadOnlyValue : Bool} {doc : QJsonObject} {scan : ValueScan}
    (h : Transaction.removable E db tx.snapshotId id ignoreReadOnlyValue = some (doc, scan)) :
    ∃ iws, Transaction.IndexWrites iws ∧
      Transaction.Wrote E (Transaction.removeVersion id tx.snapshotId scan ++ iws) tx
        (tx.removeById E db id ignoreReadOnlyValue).2 := by
  have hversion := Transaction.wrote_writes (E := E) tx
    (Transaction.removeVersion id tx.snapshotId scan)
  obtain ⟨-, iws, hiws, hw, -⟩ := Transaction.removeFromIndexes_sim
    (.of_writes db (hversion.kvdb_eq hk)) doc
    (constructDocumentLinkKey id (scan.snapshotId.getD 0)) (tx.reader E db).getIndexes
  refine ⟨iws, hiws, ?_⟩
  rw [Transaction.removeById_eq h]
  generalize Transaction.removeFromIndexes E db doc _ _ _ = result at hw ⊢
  obtain ⟨r, tx'⟩ := result
  cases r with
  | success => exact hversion.trans (hw.congr rfl rfl)
  | _ => exact hversion.trans hw

/-- After a removal nothing is seen under the id, also when its index loop breaks off. -/
theorem InTransaction.removeById (h : InTransaction E F s db tx V) (hF : PlainIds F)
    (hdb : DocumentStore F s db) {id : QByteArray} (hid : id ∈ F) {ignoreReadOnlyValue : Bool}
    {doc : QJsonObject} {scan : ValueScan}
    (hrem : Transaction.removable E db tx.snapshotId id ignoreReadOnlyValue = some (doc, scan)) :
    InTransaction E F s db (tx.removeById E db id ignoreReadOnlyValue).2
      (Function.update V id none) := by
  obtain ⟨ws, -, hk, -⟩ := h.documents
  obtain ⟨iws, hiws, hw⟩ := wrote_removeById hk hrem
  obtain ⟨hscan, hdoc, -⟩ := Transaction.removable_eq_some hrem
  rw [h.snapshotId] at hscan hw
  have hlook : seekValue E.backend db s id = some scan := by
    cases hseek : seekValue E.backend db s id with
    | none =>
      rw [hseek] at hscan
      subst hscan
      cases hdoc
    | some scan' =>
      rw [hseek] at hscan
      exact congrArg some hscan
  refine h.wrote hF hw (hdb.documentWrites_removeVersion hF hid hlook).1
    (fun w hw => (hiws w hw).isMetaKey) fun db' hstore hdws hvis => ?_
  rw [visible_removeVersion hF hid hstore hdws, hvis]

/-- A removal that breaks off leaves the observers alone. -/
theorem observers_removeById {id : QByteArray} {ignoreReadOnlyValue : Bool} {doc : QJsonObject}
    {scan : ValueScan}
    (h : Transaction.removable E db tx.snapshotId id ignoreReadOnlyValue = some (doc, scan))
    (hr : (tx.removeById E db id ignoreReadOnlyValue).1 ≠ .success) :
    (tx.removeById E db id ignoreReadOnlyValue).2.observers = tx.observers := by
  have hobservers := @Transaction.observers_removeFromIndexes E db
    (tx.writes E (Transaction.removeVersion id tx.snapshotId scan)) doc
    (constructDocumentLinkKey id (scan.snapshotId.getD 0)) (tx.reader E db).getIndexes
  rw [Transaction.removeById_eq h] at hr ⊢
  generalize Transaction.removeFromIndexes E db doc _ _ _ = result at hobservers hr ⊢
  obtain ⟨r, tx'⟩ := result
  cases r with
  | success => exact absurd rfl hr
  | _ => exact hobservers

/-- **One operation** changes the documents and patches the observers as it comes to. -/
theorem InTransaction.run (h : InTransaction E F s db tx V) (hF : PlainIds F)
    (hdb : DocumentStore F s db) {op : TxOp} (hids : TxIds F op) {c : Change}
    (hc : op.ComesTo E db tx c) :
    InTransaction E F s db (op.run E db tx).2 (c.view V) ∧ c.NamesIds ∧
      ∀ k, (op.run E db tx).2.observers.lookup k = (tx.observers.lookup k).map (c.patch E) := by
  cases hc with
  | @stored doc gen overwrite ignoreReadOnlyValue id o isOld hacc =>
    have hrun : ((TxOp.insert doc gen overwrite ignoreReadOnlyValue).run E db tx).2 =
        tx.store E db id o isOld := by
      rw [TxOp.run, Transaction.insert_of_accepted hacc]
    obtain ⟨d, hid, -⟩ := Transaction.documentId_of_accepted hacc
    have hname : NamesId o id := Transaction.value_id_of_accepted hacc
    obtain ⟨sid, hsid, hlatin⟩ := hname
    have hidF : id ∈ F := hids id d hid
    obtain ⟨iws, hiws, hw⟩ := @Transaction.store_lists E db tx id o isOld
    rw [h.snapshotId] at hw
    refine ⟨?_, ⟨sid, hsid, hlatin⟩, fun k => ?_⟩
    · rw [hrun]
      refine h.wrote hF hw (.stored hidF hsid hlatin) (fun w hw => (hiws w hw).indexPut.isMetaKey)
        fun db' hstore _ hvis => ?_
      rw [visible_putJsonValue hF hidF hstore ⟨sid, hsid, hlatin⟩, hvis]
      rfl
    · rw [hrun, Transaction.observers_store, Observers.lookup_update]
      rfl
  | @insertRefused doc gen overwrite ignoreReadOnlyValue hacc =>
    obtain ⟨r, id, lastError, -, heq⟩ := Transaction.insert_of_accepted_eq_none hacc
    have hrun : ((TxOp.insert doc gen overwrite ignoreReadOnlyValue).run E db tx).2 =
        { tx with lastError := lastError } := by
      rw [TxOp.run, heq]
    rw [hrun]
    exact ⟨h.congr rfl rfl, trivial, fun k => Option.map_id'.symm⟩
  | @removed id ignoreReadOnlyValue doc scan hrem hlinks =>
    obtain ⟨-, hremoves, hobservers⟩ := Transaction.removeById_of_removable hrem
    refine ⟨h.removeById hF hdb hids hrem, trivial, fun k => ?_⟩
    rw [TxOp.run, hobservers (hremoves.success_iff.mpr hlinks), Observers.lookup_update]
    rfl
  | @brokenOff id ignoreReadOnlyValue doc scan hrem hlinks =>
    have hr := mt (Transaction.removeById_of_removable hrem).2.1.success_iff.mp hlinks
    refine ⟨h.removeById hF hdb hids hrem, trivial, fun k => ?_⟩
    rw [TxOp.run, observers_removeById hrem hr]
    exact Option.map_id'.symm
  | @removeRefused id ignoreReadOnlyValue hrem =>
    obtain ⟨r, lastError, -, heq⟩ := Transaction.removeById_of_removable_eq_none hrem
    have hrun : ((TxOp.removeById id ignoreReadOnlyValue).run E db tx).2 =
        { tx with lastError := lastError } := by
      rw [TxOp.run, heq]
    rw [hrun]
    exact ⟨h.congr rfl rfl, trivial, fun k => Option.map_id'.symm⟩

/-! ### Unset flags -/

section Flags

variable {ob : Observer} {o : QJsonObject} (flags : QJsonValue → List ℕ → Bool)

theorem checkQuery_withFlags_of_certain (h : Certain ob.query (.object o)) :
    checkQuery (E.withFlags flags) ob.query (.object o) = checkQuery E ob.query (.object o) := by
  obtain ⟨b, hb⟩ := h rfl
  rw [checkQuery_withFlags, checkQuery, hb _ ⟨rfl, flags _, rfl⟩, hb _ ⟨rfl, E.uninitialized _, rfl⟩]

theorem Observer.inserted_withFlags (h : Certain ob.query (.object o)) (isOld : Bool) :
    ob.inserted (E.withFlags flags) o isOld = ob.inserted E o isOld := by
  rw [inserted, inserted, checkQuery_withFlags_of_certain flags h]

theorem Observer.removed_withFlags (h : Certain ob.query (.object o)) :
    ob.removed (E.withFlags flags) o = ob.removed E o := by
  rw [removed, removed, checkQuery_withFlags_of_certain flags h]

namespace Transaction

@[simp] theorem reader_withFlags (tx : Transaction) (db : Store) :
    tx.reader (E.withFlags flags) db = tx.reader E db := rfl

@[simp] theorem writes_withFlags (tx : Transaction) (ws : List (WriteOp QByteArray Blob)) :
    tx.writes (E.withFlags flags) ws = tx.writes E ws := rfl

@[simp] theorem isProtected_withFlags (v : QJsonValue) (ignoreReadOnlyValue : Bool) :
    isProtected (E.withFlags flags) v ignoreReadOnlyValue =
      isProtected E v ignoreReadOnlyValue := rfl

@[simp] theorem addIndexValues_withFlags (doc : QJsonObject) (id : QByteArray)
    (indexes : List (QString × QString)) (tx : Transaction) :
    addIndexValues (E.withFlags flags) db doc id indexes tx =
      addIndexValues E db doc id indexes tx := by
  induction indexes generalizing tx with
  | nil => rfl
  | cons index indexes ih => exact ih _

@[simp] theorem removeIndexValues_withFlags (indexName : QString) (linkKey : QByteArray)
    (values : List QJsonValue) (tx : Transaction) :
    removeIndexValues (E.withFlags flags) db indexName linkKey values tx =
      removeIndexValues E db indexName linkKey values tx := by
  induction values generalizing tx with
  | nil => rfl
  | cons value values ih =>
    rw [removeIndexValues, removeIndexValues]
    simp only [ih]
    rfl

@[simp] theorem removeFromIndexes_withFlags (doc : QJsonObject) (linkKey : QByteArray)
    (indexes : List (QString × QString)) (tx : Transaction) :
    removeFromIndexes (E.withFlags flags) db doc linkKey indexes tx =
      removeFromIndexes E db doc linkKey indexes tx := by
  induction indexes generalizing tx with
  | nil => rfl
  | cons index indexes ih =>
    rw [removeFromIndexes, removeFromIndexes]
    simp only [ih, removeIndexValues_withFlags]

variable {id : QByteArray} {ignoreReadOnlyValue : Bool} {doc : QJsonObject} {scan : ValueScan}

theorem store_withFlags {isOld : Bool}
    (h : ∀ k ob, tx.observers.lookup k = some ob → Certain ob.query (.object o)) :
    tx.store (E.withFlags flags) db id o isOld = tx.store E db id o isOld := by
  have hobservers : tx.observers.update (.inserted (E.withFlags flags) o isOld) =
      tx.observers.update (.inserted E o isOld) :=
    Observers.update_congr fun k ob hob => Observer.inserted_withFlags flags (h k ob hob) isOld
  rw [store, store]
  simp only [reader_withFlags, writes_withFlags, addIndexValues_withFlags,
    observers_addIndexValues]
  exact congrArg (fun observers => { addIndexValues E db o id
    ((tx.writes E (putJsonValue id tx.snapshotId o)).reader E db).getIndexes
    (tx.writes E (putJsonValue id tx.snapshotId o)) with observers := observers }) hobservers

theorem insert_withFlags_of_refused {gen : IdGen} {overwrite : Bool}
    (h : accepted E db tx.snapshotId doc gen overwrite ignoreReadOnlyValue = none) :
    tx.insert (E.withFlags flags) db doc gen overwrite ignoreReadOnlyValue =
      tx.insert E db doc gen overwrite ignoreReadOnlyValue := by
  rw [insert, insert]
  rw [accepted] at h
  cases hid : documentId doc gen with
  | none => rfl
  | some p =>
    obtain ⟨id, d⟩ := p
    have hold : ∀ E' : Env, E'.backend = E.backend → (tx.reader E' db).getJsonValue E' id =
        Qdocdb.getJsonValue E.backend db tx.snapshotId id := fun E' hE' => by
      rw [← hE']
      rfl
    rw [hid, Option.bind_some] at h
    dsimp only at h ⊢
    rw [hold E rfl, hold (E.withFlags flags) rfl]
    generalize Qdocdb.getJsonValue E.backend db tx.snapshotId id = docOld at h ⊢
    cases hu : docOld.isUndefined with
    | true => simp [hu] at h
    | false =>
      cases overwrite with
      | false => rfl
      | true =>
        cases hp : isProtected E docOld ignoreReadOnlyValue with
        | false => simp [hu, hp] at h
        | true => simp [hp]

theorem removeById_withFlags
    (h : removable E db tx.snapshotId id ignoreReadOnlyValue = some (doc, scan))
    (hcertain : (tx.removeById E db id ignoreReadOnlyValue).1 = .success →
      ∀ k ob, tx.observers.lookup k = some ob → Certain ob.query (.object doc)) :
    tx.removeById (E.withFlags flags) db id ignoreReadOnlyValue =
      tx.removeById E db id ignoreReadOnlyValue := by
  have h' : removable (E.withFlags flags) db tx.snapshotId id ignoreReadOnlyValue =
      some (doc, scan) := h
  have hsame := @observers_removeFromIndexes E db
    (tx.writes E (removeVersion id tx.snapshotId scan)) doc
    (constructDocumentLinkKey id (scan.snapshotId.getD 0)) (tx.reader E db).getIndexes
  rw [removeById_eq h] at hcertain ⊢
  rw [removeById_eq h']
  simp only [reader_withFlags, writes_withFlags, removeFromIndexes_withFlags]
  generalize removeFromIndexes E db doc _ _ _ = result at hsame hcertain ⊢
  obtain ⟨r, tx'⟩ := result
  obtain hsame : tx'.observers = tx.observers := hsame
  cases r with
  | success =>
    have hobservers : tx.observers.update (.removed (E.withFlags flags) doc) =
        tx.observers.update (.removed E doc) :=
      Observers.update_congr fun k ob hob => Observer.removed_withFlags flags (hcertain rfl k ob hob)
    dsimp only
    rw [hsame, hobservers]
  | _ => rfl

theorem removeById_withFlags_of_refused
    (h : removable E db tx.snapshotId id ignoreReadOnlyValue = none) :
    tx.removeById (E.withFlags flags) db id ignoreReadOnlyValue =
      tx.removeById E db id ignoreReadOnlyValue := by
  have hscan : ∀ E' : Env, E'.backend = E.backend →
      (seekValue E'.backend db tx.snapshotId id).getD .init =
        (seekValue E.backend db tx.snapshotId id).getD .init := fun E' hE' => by rw [hE']
  rw [removeById, removeById, hscan (E.withFlags flags) rfl]
  rw [removable] at h
  dsimp only at h ⊢
  generalize (seekValue E.backend db tx.snapshotId id).getD .init = scan at h ⊢
  cases hdoc : scan.jsonValue with
  | object doc =>
    rw [hdoc] at h
    dsimp only at h ⊢
    cases hp : isProtected E (.object doc) ignoreReadOnlyValue with
    | true => simp [hp]
    | false => simp [hp] at h
  | _ => rfl

end Transaction

/-- **One operation** does the same whatever the unset flags hold, when the queries of the
observers are certain on its document. -/
theorem run_withFlags {op : TxOp} {c : Change} (hc : op.ComesTo E db tx c)
    (hcertain : ∀ k ob, tx.observers.lookup k = some ob → c.CertainFor ob) :
    op.run (E.withFlags flags) db tx = op.run E db tx := by
  cases hc with
  | @stored doc gen overwrite ignoreReadOnlyValue id o isOld hacc =>
    have hacc' : Transaction.accepted (E.withFlags flags) db tx.snapshotId doc gen overwrite
        ignoreReadOnlyValue = some (id, o, isOld) := hacc
    rw [TxOp.run, TxOp.run, Transaction.insert_of_accepted hacc,
      Transaction.insert_of_accepted hacc', Transaction.store_withFlags flags hcertain]
  | insertRefused hacc =>
    rw [TxOp.run, TxOp.run, Transaction.insert_withFlags_of_refused flags hacc]
  | removed hrem hlinks => exact Transaction.removeById_withFlags flags hrem fun _ => hcertain
  | brokenOff hrem hlinks =>
    have hr := mt (Transaction.removeById_of_removable hrem).2.1.success_iff.mp hlinks
    exact Transaction.removeById_withFlags flags hrem fun hsuccess => absurd hsuccess hr
  | removeRefused hrem => exact Transaction.removeById_withFlags_of_refused flags hrem

end Flags

/-! ### A transaction -/

/-- A patch leaves what the observer asks for. -/
theorem Change.asks_patch (c : Change) (ob : Observer) :
    (c.patch E ob).query = ob.query ∧ (c.patch E ob).queryOptions = ob.queryOptions := by
  cases c with
  | stored id o isOld =>
    rw [patch, Observer.inserted]
    split <;> exact ⟨rfl, rfl⟩
  | removed id doc =>
    rw [patch, Observer.removed]
    split <;> exact ⟨rfl, rfl⟩
  | _ => exact ⟨rfl, rfl⟩

/-- What is shown depends on the reply and on what the observer asks for. -/
theorem Observer.shows_congr {indexes : List (QString × QString)} {ob ob' : Observer}
    (hquery : ob'.query = ob.query) (hoptions : ob'.queryOptions = ob.queryOptions)
    {reply : List QJsonValue} :
    ob'.Shows E indexes V reply ↔ ob.Shows E indexes V reply := by
  simp only [Shows, late, limit, findOptions, matching, Matches, hquery, hoptions]

/-- The observers show the documents of `V`. -/
def ShowAll (E : Env) (indexes : List (QString × QString)) (V : View) (observers : Observers) :
    Prop :=
  ∀ k ob, observers.lookup k = some ob → ob.Shows E indexes V ob.reply

/-- **The operations of a transaction**, by induction: after each of them the observers show
the documents that would be seen. -/
theorem InTransaction.runAll {indexes : List (QString × QString)} (hF : PlainIds F)
    (hdb : DocumentStore F s db) {ops : List TxOp} (hids : ∀ op ∈ ops, TxIds F op)
    (h : InTransaction E F s db tx V) (hV : V.Named) (hshow : ShowAll E indexes V tx.observers)
    (hkept : PatchesKept E indexes db ops tx V) :
    ∃ V', InTransaction E F s db (TxOp.runAll E db ops tx) V' ∧
      ShowAll E indexes V' (TxOp.runAll E db ops tx).observers ∧
      ∀ k, (TxOp.runAll E db ops tx).observers.asked k = tx.observers.asked k := by
  induction ops generalizing tx V with
  | nil => exact ⟨V, h, hshow, fun k => rfl⟩
  | cons op ops ih =>
    obtain ⟨c, hc, hkeeps, hrest⟩ := hkept
    obtain ⟨h', hnames, hlookup⟩ := h.run hF hdb (hids op List.mem_cons_self) hc
    have hshow' : ShowAll E indexes (c.view V) (op.run E db tx).2.observers := by
      intro k ob' hob'
      rw [hlookup] at hob'
      obtain ⟨ob, hob, rfl⟩ := Option.map_eq_some_iff.mp hob'
      obtain ⟨hquery, hoptions⟩ := c.asks_patch (E := E) ob
      exact (Observer.shows_congr hquery hoptions).mpr
        ((hkeeps k ob hob).2.shows hV hnames (hshow k ob hob))
    obtain ⟨V', hin, hall, hasked⟩ := ih (fun op' hop' => hids op' (List.mem_cons_of_mem op hop'))
      h' (c.named_view hV hnames) hshow' hrest
    refine ⟨V', hin, hall, fun k => (hasked k).trans ?_⟩
    rw [Observers.asked, Observers.asked, hlookup, Option.map_map]
    refine congrFun (congrArg Option.map (funext fun ob => ?_)) _
    obtain ⟨hquery, hoptions⟩ := c.asks_patch (E := E) ob
    rw [Function.comp_apply, hquery, hoptions]

end Step

/-! ### The commit -/

/-- A transaction keeps the views: its patches are right, it is committed in order, and replies
that are equal for `==` are the same. -/
structure KeepsViews (E : Env) (σ : Collection) (ops : List TxOp) : Prop where
  patches : PatchesKept E (storedIndexes σ.db) σ.db ops σ.newTransaction
    (visible σ.db σ.snapshotId)
  inOrder : CommitsInOrder E σ.db (TxOp.runAll E σ.db ops σ.newTransaction)
  copied : ∀ k reply reply', σ.observers.reply k = some reply →
    (TxOp.runAll E σ.db ops σ.newTransaction).observers.reply k = some reply' →
      QJsonValue.eqList reply reply' = true → reply = reply'

/-- A collection in serial use whose observers show what matches. -/
structure InView (E : Env) (F : Set QByteArray) (σ : Collection) : Prop where
  store : DocumentStore F σ.snapshotId σ.db
  shows : ShowAll E (storedIndexes σ.db) (visible σ.db σ.snapshotId) σ.observers

section Commit

variable {E : Env} {F : Set QByteArray} {σ : Collection}

/-- **In view, up to date.** -/
theorem InView.upToDate (h : InView E F σ) (hF : PlainIds F) {k : ℤ} {ob : Observer}
    (hob : σ.observers.lookup k = some ob) (hfindable : ob.Findable E (σ.reader E)) :
    ob.UpToDate E (σ.reader E) := by
  have hstore : DocumentStore F σ.snapshotId (σ.reader E).db := h.store
  refine Observer.Shows.upToDate ?_ (hfindable.findsMatching hF hstore)
    (Observer.named_visible hstore)
  rw [Collection.getIndexes_reader]
  exact h.shows k ob hob

/-- Operations on documents leave the table of indexes alone. -/
theorem storedIndexes_transactAll {ops : List TxOp}
    (hops : ∀ op ∈ ops, Transaction.OnDocuments op) :
    storedIndexes (σ.transactAll E ops).2.db = storedIndexes σ.db := by
  obtain ⟨wss, hwss, hc⟩ := Collection.transactAll_spec (E := E) (σ := σ) hops
  rw [storedIndexes, storedIndexes, hc.find?_of_forall_ne fun w hw => ?_]
  obtain ⟨ws, hws, hw⟩ := List.mem_flatten.mp hw
  obtain ⟨op, -, hwrites⟩ := hwss ws hws
  exact hwrites.key_ne_indexesKey hw

/-- **Copying back**: after a commit each observer has the reply of the transaction, when those
that are equal are the same. -/
theorem exists_observer_of_writeTransaction {tx : Transaction}
    (h : (σ.writeTransaction E tx).1 = .success)
    (hasked : ∀ k, tx.observers.asked k = σ.observers.asked k)
    (hcopied : ∀ k reply reply', σ.observers.reply k = some reply →
      tx.observers.reply k = some reply' → QJsonValue.eqList reply reply' = true → reply = reply')
    {k : ℤ} {ob : Observer} (hob : (σ.writeTransaction E tx).2.observers.lookup k = some ob) :
    ∃ ob', tx.observers.lookup k = some ob' ∧ ob.query = ob'.query ∧
      ob.queryOptions = ob'.queryOptions ∧ ob.reply = ob'.reply := by
  have hask := hasked k
  rw [Collection.lookup_writeTransaction h] at hob
  cases hσ : σ.observers.lookup k with
  | none =>
    rw [Observers.asked, Observers.asked, hσ, Option.map_none, Option.map_eq_none_iff] at hask
    rw [if_neg (AList.lookup_eq_none.mp hask), hσ] at hob
    cases hob
  | some ob₀ =>
    rw [Observers.asked, Observers.asked, hσ, Option.map_some] at hask
    obtain ⟨ob', hob', heq⟩ := Option.map_eq_some_iff.mp hask
    obtain ⟨hquery, hoptions⟩ := Prod.mk.inj heq
    have hreply' : tx.observers.reply k = some ob'.reply := by rw [Observers.reply, hob']; rfl
    have hmem : k ∈ tx.observers := AList.lookup_isSome.mp (by rw [hob']; rfl)
    rw [if_pos hmem, hσ, hreply', Option.getD_some, Option.getD_some, Option.map_some] at hob
    obtain rfl := Option.some.inj hob
    refine ⟨ob', hob', ?_, ?_, ?_⟩
    · rw [hquery, Collection.copyReply]
      split <;> rfl
    · rw [hoptions, Collection.copyReply]
      split <;> rfl
    · dsimp only
      rw [Collection.reply_copyReply]
      split
      · rename_i hsame
        exact hcopied k _ _ (by rw [Observers.reply, hσ]; rfl) hreply' hsame
      · rfl

/-- **Step**: a transaction under its conditions keeps the observers in view. -/
theorem InView.transactAll (h : InView E F σ) (hF : PlainIds F) {ops : List TxOp}
    (hids : ∀ op ∈ ops, TxIds F op) (hkeeps : KeepsViews E σ ops) :
    InView E F (σ.transactAll E ops).2 := by
  have hops : ∀ op ∈ ops, Transaction.OnDocuments op := fun op hop => (hids op hop).onDocuments
  have hstore : DocumentStore F σ.snapshotId (σ.reader E).db := h.store
  obtain ⟨V, hin, hshow, hasked⟩ := (inTransaction_newTransaction (E := E) h.store).runAll hF
    h.store hids (Observer.named_visible hstore) h.shows hkeeps.patches
  obtain ⟨ws, db', hk, hsteps, hstore', hsame, hvis⟩ := hin.documents
  have hdb : (σ.transactAll E ops).2.db = σ.db.applyLog ws :=
    hkeeps.inOrder.db_writeTransaction hk
  have hsuccess : (σ.transactAll E ops).1 = .success :=
    (Collection.writeTransaction_spec hk).2.mpr (hkeeps.inOrder.commitInOrder hk).succeeds
  have hs : (σ.transactAll E ops).2.snapshotId = σ.snapshotId :=
    (Collection.writeTransaction_spec hk).1.snapshotId
  have hvisible : visible (σ.transactAll E ops).2.db σ.snapshotId = V := by
    rw [← hvis, hdb]
    exact funext fun id => visible_congr fun t _ => hsame id _ (isKeyOf_linkKey id t)
  refine ⟨?_, ?_⟩
  · rw [hs]
    refine hstore'.congr (goodStore_transactAll ops hids h.store.good) (fun I k hkey => ?_) ?_
    · rw [hdb, hsame I k hkey]
    · rw [Collection.find?_snapshotsKey_transactAll hops]
      exact (hsteps.find?_of_isMetaKey isMetaKey_snapshotsKey).symm
  · rw [hs, hvisible, storedIndexes_transactAll hops]
    intro k ob hob
    obtain ⟨ob', hob', hquery, hoptions, hreply⟩ :=
      exists_observer_of_writeTransaction hsuccess hasked hkeeps.copied hob
    rw [hreply, Observer.shows_congr hquery hoptions]
    exact hshow k ob' hob'

/-! ## Runs -/

/-- The operations of a transaction, each beside what the unset flags hold while it runs. -/
def TxOp.runEach (E : Env) (db : Store) (ops : List (TxOp × (QJsonValue → List ℕ → Bool)))
    (tx : Transaction) : Transaction :=
  ops.foldl (fun tx p => (p.1.run (E.withFlags p.2) db tx).2) tx

/-- Patches that are right do not depend on the unset flags. -/
theorem PatchesKept.runEach_eq {indexes : List (QString × QString)} {db : Store} {V : View}
    {tx : Transaction} {ops : List (TxOp × (QJsonValue → List ℕ → Bool))}
    (h : PatchesKept E indexes db (ops.map Prod.fst) tx V) :
    TxOp.runEach E db ops tx = TxOp.runAll E db (ops.map Prod.fst) tx := by
  induction ops generalizing tx V with
  | nil => rfl
  | cons p ops ih =>
    obtain ⟨c, hc, hkeeps, hrest⟩ := h
    have hrun := run_withFlags p.2 hc fun k ob hob => (hkeeps k ob hob).1
    show TxOp.runEach E db ops (p.1.run (E.withFlags p.2) db tx).2 = _
    rw [hrun, ih hrest]
    rfl

/-- What serial transactions lead to, each of them committed and allowed by `ok` where it is
opened. -/
inductive TransactionRun (E : Env) (F : Set QByteArray) (ok : Collection → List TxOp → Prop)
    (σ₀ : Collection) : Collection → Prop
  | start : TransactionRun E F ok σ₀ σ₀
  | commit {σ : Collection} {ops : List (TxOp × (QJsonValue → List ℕ → Bool))} :
    TransactionRun E F ok σ₀ σ → (∀ op ∈ ops.map Prod.fst, TxIds F op) →
      ok σ (ops.map Prod.fst) →
      (σ.writeTransaction E (TxOp.runEach E σ.db ops σ.newTransaction)).1 = .success →
      TransactionRun E F ok σ₀
        (σ.writeTransaction E (TxOp.runEach E σ.db ops σ.newTransaction)).2

/-- **Observers are views**: through transactions that keep the views, every observer stays up
to date as long as its query can be evaluated, if it is at first and shows what comes first,
whatever the unset flags hold while an operation runs or `find` is asked. -/
theorem upToDate_of_run {σ₀ : Collection} (hF : PlainIds F)
    (hstore : DocumentStore F σ₀.snapshotId σ₀.db)
    (hstart : ∀ k ob, σ₀.observers.lookup k = some ob → ob.UpToDate E (σ₀.reader E))
    (hfirst : ∀ k ob, σ₀.observers.lookup k = some ob →
      ob.Findable E (σ₀.reader E) ∧ ob.ShowsFirst E (σ₀.reader E))
    (h : TransactionRun E F (fun σ ops => KeepsViews E σ ops) σ₀ σ) {k : ℤ} {ob : Observer}
    (hob : σ.observers.lookup k = some ob) (hfindable : ob.Findable E (σ.reader E))
    (flags : QJsonValue → List ℕ → Bool) : ob.UpToDate (E.withFlags flags) (σ.reader E) := by
  have hreader : DocumentStore F σ₀.snapshotId (σ₀.reader E).db := hstore
  have hin : InView E F σ := by
    clear hob hfindable
    induction h with
    | start =>
      refine ⟨hstore, fun k ob hob => ?_⟩
      have hfinds := (hfirst k ob hob).1.findsMatching hF hreader
      rw [← Collection.getIndexes_reader (E := E)]
      exact (hstart k ob hob).shows hfinds (Observer.named_visible hreader) (hfirst k ob hob).2
    | commit _ hids hkeeps _ ih =>
      rw [hkeeps.patches.runEach_eq]
      exact ih.transactAll hF hids hkeeps
  exact (hin.upToDate hF hob hfindable).withFlags hfindable flags

end Commit

/-! ## Small runs -/

/-- The empty query matches every document. -/
theorem checkQuery_nil (E : Env) (doc : QJsonValue) : checkQuery E [] doc = some true := by
  rw [checkQuery, checkValidR, checkFields]

theorem certain_nil (doc : QJsonValue) : Certain [] doc := fun _ =>
  ⟨true, fun r ⟨_, junk, hr⟩ => by rw [← hr, checkValidR, checkFields]⟩

theorem Observer.findable_of_query_nil {E : Env} {R : Reader} {ob : Observer}
    (h : ob.query = []) : ob.Findable E R where
  certain e _ := h ▸ certain_nil e.1
  linked := by
    rintro ⟨f, hf, -⟩
    rw [h] at hf
    cases hf

/-- The insertion of the document `a`. -/
def insertDocA : TxOp := .insert (SessionPair.docOf "a") ⟨[], []⟩ false false

theorem keepsViews_insertDocA :
    KeepsViews (Env.plain .levelDB) SessionPair.observedEmpty [insertDocA] where
  patches := by
    refine ⟨_, .stored SessionPair.accepted_docOf_a, fun k ob hob => ?_, trivial⟩
    have hempty : ∀ e ∈ SessionPair.observedEmpty.observers.entries,
        e.2.query = [] ∧ e.2.queryOptions = [] ∧ e.2.reply = [] := by decide
    obtain ⟨hquery, hoptions, hreply⟩ := hempty ⟨k, ob⟩ (AList.mem_lookup_iff.mp hob)
    have hmatch : Matches (Env.plain .levelDB) ob.query (.object (SessionPair.docOf "a")) := by
      rw [Matches, hquery]
      exact checkQuery_nil _ _
    rw [Change.Keeps, if_pos hmatch]
    have hcertain : Certain ob.query (.object (SessionPair.docOf "a")) := by
      rw [hquery]
      exact certain_nil _
    refine ⟨hcertain, ?_, ?_, .inl fun n hn => ?_⟩
    · rintro ⟨o, ho, -⟩
      rw [SessionPair.visible_observedEmpty] at ho
      cases ho
    · rintro ⟨f, hf, -⟩
      rw [hquery] at hf
      cases hf
    · rw [Observer.limit, Observer.findOptions, hoptions, ite_self] at hn
      cases hn
  inOrder := fun hB => by cases hB
  copied := by
    intro k reply reply' hreply hreply' heq
    obtain ⟨ob, hob, rfl⟩ := Option.map_eq_some_iff.mp hreply
    obtain ⟨ob', hob', rfl⟩ := Option.map_eq_some_iff.mp hreply'
    have hbefore : ∀ e ∈ SessionPair.observedEmpty.observers.entries, e.2.reply = [] := by decide
    have hafter : ∀ e ∈ (TxOp.runAll (Env.plain .levelDB) SessionPair.observedEmpty.db
        [insertDocA] SessionPair.observedEmpty.newTransaction).observers.entries,
        e.2.reply = [.object (SessionPair.docOf "a")] := by decide +kernel
    rw [hbefore ⟨k, ob⟩ (AList.mem_lookup_iff.mp hob),
      hafter ⟨k, ob'⟩ (AList.mem_lookup_iff.mp hob')] at heq
    cases heq

/-- The collection after that, when every unset flag was found true. -/
def observedDocA : Collection :=
  (SessionPair.observedEmpty.writeTransaction (Env.plain .levelDB)
    (TxOp.runEach (Env.plain .levelDB) SessionPair.observedEmpty.db
      [(insertDocA, fun _ _ => true)] SessionPair.observedEmpty.newTransaction)).2

/-- The reply of an observer of all documents after the first one was inserted. -/
theorem upToDate_insertDocA :
    ∃ ob, observedDocA.observers.lookup 1 = some ob ∧
      ob.reply = [.object (SessionPair.docOf "a")] ∧
      ∀ flags, ob.UpToDate ((Env.plain .levelDB).withFlags flags)
        (observedDocA.reader (Env.plain .levelDB)) := by
  have hstart : ∀ e ∈ SessionPair.observedEmpty.observers.entries, e.2.query = [] ∧
      (find? (Env.plain .levelDB) (SessionPair.observedEmpty.reader (Env.plain .levelDB)) e.2.query
        e.2.queryOptions).isSome ∧
      (find (Env.plain .levelDB) (SessionPair.observedEmpty.reader (Env.plain .levelDB)) e.2.query
        e.2.queryOptions).1 = .success ∧
      e.2.reply = (find (Env.plain .levelDB)
        (SessionPair.observedEmpty.reader (Env.plain .levelDB)) e.2.query
        e.2.queryOptions).2.map Prod.fst := by decide +kernel
  have hids : TxIds oneByteIds insertDocA := by
    intro id d hd
    have hid : Transaction.documentId (SessionPair.docOf "a") ⟨[], []⟩ =
        some (bytes "a", SessionPair.docOf "a") := by decide
    rw [hid] at hd
    cases hd
    show bytes "a" ∈ oneByteIds
    decide
  have hrun : TransactionRun (Env.plain .levelDB) oneByteIds
      (fun σ ops => KeepsViews (Env.plain .levelDB) σ ops) SessionPair.observedEmpty
      observedDocA :=
    @TransactionRun.commit _ _ _ _ _ [(insertDocA, fun _ _ => true)] .start
      (List.forall_mem_singleton.mpr hids) keepsViews_insertDocA (by decide +kernel)
  have hlookup : (observedDocA.observers.lookup 1).map (fun ob => (ob.query, ob.reply)) =
      some ([], [.object (SessionPair.docOf "a")]) := by decide +kernel
  obtain ⟨ob, hob, heq⟩ := Option.map_eq_some_iff.mp hlookup
  obtain ⟨hquery, hreply⟩ := Prod.mk.inj heq
  have hstore : DocumentStore oneByteIds SessionPair.observedEmpty.snapshotId
      SessionPair.observedEmpty.db :=
    (serialInv_open (E := Env.plain .levelDB) (F := oneByteIds)).documentStore
  refine ⟨ob, hob, hreply, upToDate_of_run safeIds_oneByteIds.plain hstore (fun k ob hob => ?_)
    (fun k ob hob => ?_) hrun hob (Observer.findable_of_query_nil hquery)⟩
  · obtain ⟨-, hreturns, hfind, hreply⟩ := hstart ⟨k, ob⟩ (AList.mem_lookup_iff.mp hob)
    exact Observer.upToDate_of_reply_eq hreturns hfind hreply
  · obtain ⟨hquery, -, -, -⟩ := hstart ⟨k, ob⟩ (AList.mem_lookup_iff.mp hob)
    refine ⟨Observer.findable_of_query_nil hquery, fun v _ w hw => ?_⟩
    obtain ⟨id, o, ho, -⟩ := hw
    have hnone : visible (SessionPair.observedEmpty.reader (Env.plain .levelDB)).db
        (SessionPair.observedEmpty.reader (Env.plain .levelDB)).snapshotId id = none :=
      SessionPair.visible_observedEmpty _ id
    rw [hnone] at ho
    cases ho

/-- An empty collection with an observer of the documents that have null for `n`. -/
def observedNullN : Collection :=
  { Collection.open (Env.plain .levelDB) .empty with
    observers := AList.insert 1 ⟨[(qs "n", .null)], [], [], false⟩ ∅ }

/-- The document `a` gets null for `n`, and then another value. -/
def insertNullN : TxOp := .insert (Collection.documentN .null) ⟨[], []⟩ false false

def overwriteNullN : TxOp := .insert (Collection.documentN (.bool true)) ⟨[], []⟩ true false

def storedNullN : Collection :=
  (observedNullN.transactAll (Env.plain .levelDB) [insertNullN]).2

def overwrittenNullN : Collection :=
  (storedNullN.transactAll (Env.plain .levelDB) [overwriteNullN]).2

/-- A document that no longer matches when it is overwritten stays in the reply. -/
theorem not_upToDate :
    ¬ ∀ (E : Env) (F : Set QByteArray) (σ₀ σ : Collection), PlainIds F →
      DocumentStore F σ₀.snapshotId σ₀.db →
      (∀ k ob, σ₀.observers.lookup k = some ob → ob.UpToDate E (σ₀.reader E)) →
      TransactionRun E F (fun _ _ => True) σ₀ σ →
      ∀ k ob, σ.observers.lookup k = some ob → ob.UpToDate E (σ.reader E) := by
  intro h
  have hstart : ∀ e ∈ observedNullN.observers.entries,
      (find? (Env.plain .levelDB) (observedNullN.reader (Env.plain .levelDB)) e.2.query
        e.2.queryOptions).isSome ∧
      (find (Env.plain .levelDB) (observedNullN.reader (Env.plain .levelDB)) e.2.query
        e.2.queryOptions).1 = .success ∧
      e.2.reply = (find (Env.plain .levelDB) (observedNullN.reader (Env.plain .levelDB)) e.2.query
        e.2.queryOptions).2.map Prod.fst := by decide +kernel
  have hid : ∀ v, ∀ id d, Transaction.documentId (Collection.documentN v) ⟨[], []⟩ = some (id, d) →
      id ∈ oneByteIds := by
    intro v id d hd
    have hid : Transaction.documentId (Collection.documentN v) ⟨[], []⟩ =
        some (bytes "a", Collection.documentN v) := rfl
    rw [hid] at hd
    cases hd
    show bytes "a" ∈ oneByteIds
    decide
  have hstored : TransactionRun (Env.plain .levelDB) oneByteIds (fun _ _ => True) observedNullN
      storedNullN :=
    @TransactionRun.commit _ _ _ _ _ [(insertNullN, (Env.plain .levelDB).uninitialized)] .start
      (List.forall_mem_singleton.mpr (hid .null)) trivial (by decide +kernel)
  have hoverwritten : TransactionRun (Env.plain .levelDB) oneByteIds (fun _ _ => True)
      observedNullN overwrittenNullN :=
    @TransactionRun.commit _ _ _ _ _ [(overwriteNullN, (Env.plain .levelDB).uninitialized)]
      hstored (List.forall_mem_singleton.mpr (hid (.bool true))) trivial (by decide +kernel)
  have hstore : DocumentStore oneByteIds observedNullN.snapshotId observedNullN.db :=
    (serialInv_open (E := Env.plain .levelDB) (F := oneByteIds)).documentStore
  have hall := h _ _ _ _ safeIds_oneByteIds.plain hstore (fun k ob hob => by
    obtain ⟨hreturns, hfind, hreply⟩ := hstart ⟨k, ob⟩ (AList.mem_lookup_iff.mp hob)
    exact Observer.upToDate_of_reply_eq hreturns hfind hreply) hoverwritten
  have hlookup : (overwrittenNullN.observers.lookup 1).map
      (fun ob => (ob.query, ob.queryOptions, ob.reply)) =
        some ([(qs "n", .null)], [], [.object (Collection.documentN .null)]) := by decide +kernel
  have hfind : (find (Env.plain .levelDB) (overwrittenNullN.reader (Env.plain .levelDB))
      [(qs "n", .null)] []).2 = [] := by decide +kernel
  obtain ⟨ob, hob, heq⟩ := Option.map_eq_some_iff.mp hlookup
  obtain ⟨hquery, hrest⟩ := Prod.mk.inj heq
  obtain ⟨hoptions, hreply⟩ := Prod.mk.inj hrest
  have hup : ob.UpToDate (Env.plain .levelDB) (overwrittenNullN.reader (Env.plain .levelDB)) :=
    hall 1 ob hob
  have hlength := (hup.perm_find (by rw [hoptions]; rfl)).length_eq
  rw [hreply, hquery, hoptions, hfind] at hlength
  cases hlength

end Qdocdb
