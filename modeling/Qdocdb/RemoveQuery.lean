import Qdocdb.Candidates
import Qdocdb.FailedRequests
import Qdocdb.FlatStore
import Qdocdb.Undo

/-!
# Removing by a query

`remove` hands the ids that `find` returns to `removeById`. From the loop over the documents
these are document ids, and the documents are removed when `removeById` goes through for each
of them. From the link keys of an `_id` or of an index they are the link keys themselves,
which are no ids of the documents, so that `remove` does its work only when there is nothing
to remove (`removesMatches_iff`).
-/

namespace Qdocdb

open Transaction

/-- `remove` returns, as the `find` that it starts with does, succeeds, and takes away exactly
the visible documents that satisfy the query. -/
def RemovesMatches (E : Env) (σ : Collection) (query : QJsonObject) : Prop :=
  let σ' := (σ.transact E (.remove query)).2
  (find? E (σ.newTransaction.reader E σ.db) query []).isSome ∧
    (σ.transact E (.remove query)).1 = .success ∧
    ∀ id o, visible σ'.db σ'.snapshotId id = some o ↔
      visible σ.db σ.snapshotId id = some o ∧ ¬ Sat (.object query) (.object o)

/-- The stored documents that satisfy the query, in key order. -/
def matchingDocuments (E : Env) (db : Store) (query : QJsonObject) :
    List (QByteArray × QJsonObject) :=
  (storedDocuments db).filter fun p => checkQuery E query (.object p.2) = some true

/-- When `remove` does what it should: a query with an `_id` or a value for an indexed field
has the entries it needs, `multiply` stays in its lists, and there is nothing to remove; for any
other query no document that is to be removed is hidden by another one, and the links of the
documents can be taken away one after the other. -/
structure RemovalFits (E : Env) (σ : Collection) (query : QJsonObject) : Prop where
  indexed : Indexed (storedIndexes σ.db) query →
    EntriesThere E (σ.reader E) (storedIndexes σ.db) query ∧
      IntersectionsEnd E (σ.reader E) query none ∧
      ∀ id o, visible σ.db σ.snapshotId id = some o → ¬ Sat (.object query) (.object o)
  searched : ¬ Indexed (storedIndexes σ.db) query →
    (∀ p ∈ matchingDocuments E σ.db query, ∀ q ∈ storedDocuments σ.db, ¬ Hides q.1 p.1) ∧
      (storedLinks σ.db).Removable ((matchingDocuments E σ.db query).flatMap fun p =>
        removedLinks E σ.snapshotId (storedIndexes σ.db) p.2
          (constructDocumentLinkKey p.1 σ.snapshotId))

/-! ## The writes of the removals -/

section Writes

variable {E : Env} {db : Store} {tx : Transaction}

/-- Removals write what takes versions of the ids away, and index entries. -/
theorem removeByIds_wrote (ids : List QByteArray) {ws₀ : List (WriteOp QByteArray Blob)}
    (hk : tx.kvdb = KVTransaction.new.writes E.backend ws₀) :
    ∃ ws, (∀ w ∈ ws, (∃ id ∈ ids, ∃ s scan, w ∈ removeVersion id s scan) ∨ IndexWrite w) ∧
      Wrote E ws tx (removeByIds E db ids tx).2 := by
  induction ids generalizing tx ws₀ with
  | nil => exact ⟨[], by simp, wrote_nil rfl rfl⟩
  | cons id ids ih =>
    obtain ⟨ws, ⟨r, hws⟩, hw⟩ :=
      @run_wrote E db tx ws₀ hk (.removeById id false) trivial
    have hfirst : ∀ w ∈ ws,
        (∃ id' ∈ id :: ids, ∃ s scan, w ∈ removeVersion id' s scan) ∨ IndexWrite w := by
      cases hws with
      | refused => simp
      | removed _ _ hiws =>
        intro w hw
        rcases List.mem_append.mp hw with hw | hw
        · exact .inl ⟨id, List.mem_cons_self, _, _, hw⟩
        · exact .inr (hiws w hw)
    rw [removeByIds]
    rw [TxOp.run] at hw
    split
    · rename_i tx' heq
      rw [heq] at hw
      obtain ⟨ws', hws', hw'⟩ := ih (hw.kvdb_eq hk)
      refine ⟨ws ++ ws', fun w hmem => ?_, hw.trans hw'⟩
      rcases List.mem_append.mp hmem with hmem | hmem
      · exact hfirst w hmem
      · rcases hws' w hmem with ⟨id', hid', h⟩ | h
        · exact .inl ⟨id', List.mem_cons_of_mem _ hid', h⟩
        · exact .inr h
    · rename_i heq
      rw [heq] at hw
      exact ⟨ws, hfirst, hw⟩

/-- The calls `ws` delete the keys of the ids, and write lists that had links. -/
structure Deletes (E : Env) (db : Store) (ids : List QByteArray)
    (ws : List (WriteOp QByteArray Blob)) (tx tx' : Transaction) : Prop where
  wrote : Wrote E ws tx tx'
  keys : ∀ w ∈ ws, (∃ id ∈ ids, w = .delete (constructDocumentLinkKey id 0) ∨
      w = .delete (constructDocumentStartKey id)) ∨
    ListWrite w ∧ ∃ l, (tx.links E db).Linked w.key l
  deleted : ∀ id ∈ ids, .delete (constructDocumentLinkKey id 0) ∈ ws
  links : ∀ k l, (tx'.links E db).Linked k l → (tx.links E db).Linked k l

theorem Deletes.cons {tx' tx'' : Transaction} {id : QByteArray} {ids : List QByteArray}
    {ws ws' : List (WriteOp QByteArray Blob)} (h : Deletes E db [id] ws tx tx')
    (h' : Deletes E db ids ws' tx' tx'') : Deletes E db (id :: ids) (ws ++ ws') tx tx'' where
  wrote := h.wrote.trans h'.wrote
  keys := by
    intro w hw
    rcases List.mem_append.mp hw with hw | hw
    · refine (h.keys w hw).imp ?_ fun h => h
      rintro ⟨id', hid', hw⟩
      exact ⟨id', List.mem_cons.mpr (.inl (List.mem_singleton.mp hid')), hw⟩
    · rcases h'.keys w hw with ⟨id', hid', hw⟩ | ⟨hlist, l, hlinked⟩
      · exact .inl ⟨id', List.mem_cons_of_mem _ hid', hw⟩
      · exact .inr ⟨hlist, l, h.links _ _ hlinked⟩
  deleted := by
    intro id' hid'
    rcases List.mem_cons.mp hid' with rfl | hid'
    · exact List.mem_append_left _ (h.deleted id' List.mem_cons_self)
    · exact List.mem_append_right _ (h'.deleted id' hid')
  links := fun k l hl => h.links k l (h'.links k l hl)

/-- **removeById** of an id whose lookup finds its only version. -/
theorem removeById_deletes (hs : tx.snapshotId = 0) {id : QByteArray} {o : QJsonObject}
    {scan : ValueScan} (hfound : removable E db tx.snapshotId id false = some (o, scan))
    (hscan : scan.snapshotId = some 0) (hnaked : scan.isNaked = true) :
    ∃ ws, Deletes E db [id] ws tx (tx.removeById E db id false).2 := by
  obtain ⟨iws, hwrote, -, hiws, hfewer⟩ := @removeById_unlinks E db tx id false o scan hfound
  have hversion : removeVersion id tx.snapshotId scan =
      [.delete (constructDocumentLinkKey id 0), .delete (constructDocumentStartKey id)] := by
    rw [removeVersion, if_neg (by simp [hs, hscan, hnaked]), hs]
  refine ⟨_, hwrote, fun w hw => ?_, fun id' hid' => ?_, fun k l hl => ?_⟩
  · rw [hversion] at hw
    simp only [List.mem_append, List.mem_cons, List.not_mem_nil, or_false] at hw
    rcases hw with hw | hw
    · exact .inl ⟨id, List.mem_cons_self, hw⟩
    · exact .inr ⟨(hiws w hw).1, _, (hiws w hw).2⟩
  · rw [List.mem_singleton.mp hid', hversion]
    simp
  · exact hfewer k l hl

/-- **Removing several documents**, each found by its only version. -/
theorem removeByIds_deletes (hs : tx.snapshotId = 0) {ids : List QByteArray}
    (hfound : ∀ id ∈ ids, ∃ o scan, removable E db 0 id false = some (o, scan) ∧
      scan.snapshotId = some 0 ∧ scan.isNaked = true)
    (hsuccess : (removeByIds E db ids tx).1 = .success) :
    ∃ ws, Deletes E db ids ws tx (removeByIds E db ids tx).2 := by
  induction ids generalizing tx with
  | nil => exact ⟨[], wrote_nil rfl rfl, by simp, by simp, fun k l hl => hl⟩
  | cons id ids ih =>
    obtain ⟨o, scan, ho, hscan, hnaked⟩ := hfound id List.mem_cons_self
    rw [removeByIds] at hsuccess ⊢
    rcases hfirst : tx.removeById E db id false with ⟨r, tx'⟩
    rw [hfirst] at hsuccess
    cases r with
    | success =>
      obtain ⟨ws, hws⟩ := @removeById_deletes E db tx hs id o scan (hs ▸ ho) hscan hnaked
      rw [hfirst] at hws
      obtain ⟨ws', hws'⟩ := ih (hws.wrote.snapshotId.trans hs)
        (fun id hid => hfound id (List.mem_cons_of_mem _ hid)) hsuccess
      exact ⟨ws ++ ws', hws.cons hws'⟩
    | _ => cases hsuccess

end Writes

/-- A document read by its link key is stored under it. -/
theorem find?_of_getJsonValueByLinkKey {E : Env} {σ : Collection} {t : Byte} {k : QByteArray}
    {o : QJsonObject} (h : (σ.getSnapshot E t).getJsonValueByLinkKey k = .object o) :
    σ.db.find? k = some (.document o) := by
  have hget := @Collection.getValue_reader E σ k
  rw [← hget]
  rw [Reader.getJsonValueByLinkKey, Collection.getSnapshot] at h
  cases hval : (σ.reader E).getValue k with
  | error e => simp [hval] at h
  | ok b =>
    rw [hval] at h
    cases b <;> simp_all [Blob.unmarshal, Except.toOption]

/-! ## The request -/

section Request

variable {E : Env} {σ : Collection} {query : QJsonObject}

/-- What the removals make of the reply of `find`. -/
theorem run_remove {reply : List (QJsonValue × QByteArray)}
    (hfind : find E (σ.reader E) query [] = (.success, reply)) :
    (TxOp.remove query).run E σ.db σ.newTransaction =
      removeByIds E σ.db (reply.map Prod.snd) σ.newTransaction := by
  have hreader : σ.newTransaction.reader E σ.db = σ.reader E := rfl
  rw [TxOp.run, Transaction.remove, hreader, hfind]

/-- `remove` returns when the intersections end. -/
theorem find?_isSome_iff : (find? E (σ.newTransaction.reader E σ.db) query []).isSome ↔
    IntersectionsEnd E (σ.reader E) query none := by
  have hreader : σ.newTransaction.reader E σ.db = σ.reader E := rfl
  rw [hreader, Option.isSome_iff_exists]
  exact ⟨fun ⟨_, hr⟩ => (find?_eq_some_iff.mp hr).1,
    fun hends => ⟨_, find?_eq_some_iff.mpr ⟨hends, rfl⟩⟩⟩

theorem not_removesMatches_of_error {r : ResultEnum} (hr : r ≠ .success)
    (hfind : find E (σ.reader E) query [] = (r, [])) : ¬ RemovesMatches E σ query := by
  rintro ⟨-, hsuccess, -⟩
  have hrun := Collection.run_of_transact_success hsuccess
  have hreader : σ.newTransaction.reader E σ.db = σ.reader E := rfl
  rw [TxOp.run, Transaction.remove, hreader, hfind] at hrun
  cases r with
  | success => exact hr rfl
  | _ => cases hrun

/-- **Untouched**: a document whose id is not removed stays visible. -/
theorem visible_of_notMem (hs : σ.snapshotId = 0) {reply : List (QJsonValue × QByteArray)}
    (hfind : find E (σ.reader E) query [] = (.success, reply)) {id : QByteArray}
    (hid : id ∉ reply.map Prod.snd) :
    visible (σ.transact E (.remove query)).2.db (σ.transact E (.remove query)).2.snapshotId id =
      visible σ.db σ.snapshotId id := by
  obtain ⟨ws, hws, hw⟩ := @removeByIds_wrote E σ.db σ.newTransaction (reply.map Prod.snd) []
    Collection.kvdb_newTransaction
  rw [← run_remove hfind] at hw
  obtain ⟨hc, -⟩ := Collection.transact_spec (.remove query) hw
  have hlink : (σ.transact E (.remove query)).2.db.find? (constructDocumentLinkKey id 0) =
      σ.db.find? (constructDocumentLinkKey id 0) := by
    rw [hc.db]
    refine find?_commit_of_forall_ne fun w hw heq => ?_
    rcases hws w hw with ⟨id', hid', s, scan, hversion⟩ | hindex
    · rcases heq ▸ removeVersion_key hversion with hkey | ⟨t, hkey⟩
      · exact linkKey_zero_ne_startKey id id' hkey
      · obtain ⟨rfl, -⟩ := constructDocumentLinkKey_inj.mp hkey
        exact hid hid'
    · exact hindex.isMetaKey.not_isKeyOf (heq ▸ isKeyOf_linkKey id 0)
  apply Option.ext
  intro o
  rw [hc.snapshotId, hs]
  exact FlatStore.visible_iff.trans (hlink ▸ FlatStore.visible_iff.symm)

variable (hflat : FlatStore σ.db) (hgood : GoodStore Set.univ σ.db) (hs : σ.snapshotId = 0)
  (hq : WellFormed (.object query))
include hflat hgood hs hq

/-! ### From link keys -/

omit hs in
/-- What is found under a link key is a visible document that satisfies the query. -/
theorem of_mem_selected {linkKeys : List QByteArray} {e : QJsonValue × QByteArray}
    (he : e ∈ (linkKeys.map fun k => ((σ.reader E).getJsonValueByLinkKey k, k)).filter
      (selects E query)) :
    ∃ id o, e.2 = constructDocumentLinkKey id 0 ∧ visible σ.db 0 id = some o ∧
      Sat (.object query) (.object o) := by
  obtain ⟨hmem, hsel⟩ := List.mem_filter.mp he
  obtain ⟨k, -, rfl⟩ := List.mem_map.mp hmem
  obtain ⟨⟨o, ho⟩, hsat⟩ := (selects_iff hq).mp hsel
  rw [ho] at hsat
  have hk : σ.db.find? k = some (.document o) :=
    @find?_of_getJsonValueByLinkKey E σ σ.snapshotId k o ho
  obtain ⟨id, rfl⟩ := hflat.exists_linkKey hgood hk
  exact ⟨id, o, rfl, FlatStore.visible_iff.mpr hk, hsat⟩

/-- **From link keys** `remove` is right only when there is nothing to remove. A removed
document would be named by the link key of another one that is found, hence a shorter one. -/
theorem removesMatches_iff_of_indexed (hindexed : Indexed (storedIndexes σ.db) query)
    (hthere : EntriesThere E (σ.reader E) (storedIndexes σ.db) query) :
    RemovesMatches E σ query ↔ IntersectionsEnd E (σ.reader E) query none ∧
      ∀ id o, visible σ.db σ.snapshotId id = some o → ¬ Sat (.object query) (.object o) := by
  rw [RemovesMatches, find?_isSome_iff]
  refine and_congr_right fun _ => ?_
  rw [← @Collection.getIndexes_reader E] at hindexed hthere
  obtain ⟨linkKeys, hfind⟩ := find_of_indexed hq [] hindexed hthere
  constructor
  · rintro ⟨-, hvisible⟩ id
    -- by induction on the length of the id
    induction hn : id.length using Nat.strong_induction_on generalizing id with
    | _ n ih =>
      intro o ho hsat
      have hnot : id ∉ ((linkKeys.map fun k => ((σ.reader E).getJsonValueByLinkKey k, k)).filter
          (selects E query)).map Prod.snd := by
        intro hmem
        obtain ⟨e, he, rfl⟩ := List.mem_map.mp hmem
        obtain ⟨id', o', hid', ho', hsat'⟩ := of_mem_selected hflat hgood hq he
        have hlen : id'.length < n := by
          rw [← hn, hid']
          simp
        exact ih _ hlen id' rfl o' (hs ▸ ho') hsat'
      have hstill := visible_of_notMem hs hfind hnot
      exact ((hvisible id o).mp (hstill.trans ho)).2 hsat
  · intro hnone
    have hempty : (linkKeys.map fun k => ((σ.reader E).getJsonValueByLinkKey k, k)).filter
        (selects E query) = [] := by
      rw [List.eq_nil_iff_forall_not_mem]
      intro e he
      obtain ⟨id, o, -, ho, hsat⟩ := of_mem_selected hflat hgood hq he
      exact hnone id o (hs ▸ ho) hsat
    rw [hempty] at hfind
    have hrun := run_remove hfind
    have hw : Wrote E [] σ.newTransaction
        ((TxOp.remove query).run E σ.db σ.newTransaction).2 := by
      rw [hrun]
      exact wrote_nil rfl rfl
    obtain ⟨-, hsuccess⟩ := Collection.transact_spec (.remove query) hw
    refine ⟨?_, fun id o => ?_⟩
    · rw [hsuccess (by simp [commit_of_disjoint]), hrun]
      rfl
    · rw [visible_of_notMem hs hfind (by simp)]
      exact ⟨fun ho => ⟨ho, hnone id o ho⟩, fun h => h.1⟩

/-! ### From the loop over the documents -/

omit hflat hgood hs in
theorem mem_matchingDocuments_iff {p : QByteArray × QJsonObject} :
    p ∈ matchingDocuments E σ.db query ↔
      p ∈ storedDocuments σ.db ∧ Sat (.object query) (.object p.2) := by
  obtain ⟨b, hcheck, hb⟩ := @checkQuery_of_wellFormed E query hq (.object p.2)
  rw [matchingDocuments, List.mem_filter, hcheck, ← hb]
  simp

/-- The documents that the loop of `find` selects. -/
def foundDocuments (E : Env) (db : Store) (query : QJsonObject) :
    List (QByteArray × QJsonObject) :=
  (unhidden (storedDocuments db)).filter fun p => checkQuery E query (.object p.2) = some true

omit hq in
theorem find_searched (hq : WellFormed (.object query))
    (hsearched : ¬ Indexed (storedIndexes σ.db) query) :
    find E (σ.reader E) query [] = (.success,
      (foundDocuments E σ.db query).map fun p => (.object p.2, p.1)) := by
  rw [← @Collection.getIndexes_reader E] at hsearched
  have hreader : (σ.reader E).db = σ.db := rfl
  have hsnapshot : (σ.reader E).snapshotId = 0 := hs
  have hselects : selects E query ∘
      (fun p : QByteArray × QJsonObject => (QJsonValue.object p.2, p.1)) =
      fun p => decide (checkQuery E query (.object p.2) = some true) := by
    funext p
    simp [selects, QJsonValue.isObject]
  rw [find_of_not_indexed hq [] hsearched, hreader, hsnapshot, hflat.enumerate_eq hgood,
    List.filter_map, hselects]
  rfl

omit hflat hgood hs hq in
/-- Where nothing that matches is hidden, all that matches is found. -/
theorem foundDocuments_eq
    (h : ∀ p ∈ matchingDocuments E σ.db query, ∀ q ∈ storedDocuments σ.db, ¬ Hides q.1 p.1) :
    foundDocuments E σ.db query = matchingDocuments E σ.db query := by
  rw [foundDocuments, unhidden, List.filter_filter, matchingDocuments]
  refine List.filter_congr fun p hp => ?_
  by_cases hcheck : checkQuery E query (.object p.2) = some true
  · have hp' : p ∈ matchingDocuments E σ.db query :=
      List.mem_filter.mpr ⟨hp, by simpa using hcheck⟩
    simpa [hcheck] using h p hp'
  · simp [hcheck]

omit hs hq in
/-- A stored document is found by its id as its only version. -/
theorem removable_of_mem (hro : E.readOnlyKey = []) {p : QByteArray × QJsonObject}
    (hp : p ∈ storedDocuments σ.db) :
    removable E σ.db 0 p.1 false = some (p.2, ⟨.document p.2, some 0, true, true, true⟩) := by
  have hseek := hflat.seekValue_eq hgood ((hflat.mem_storedDocuments_iff hgood).mp hp) E.backend
  have hprotected : isProtected E (.object p.2) false = false := by simp [isProtected, hro]
  have hjson : (ValueScan.mk (.document p.2) (some 0) true true true).jsonValue = .object p.2 := rfl
  rw [removable, hseek, Option.getD_some]
  simp only [hjson, hprotected]
  rfl

omit hs hq in
/-- Stored documents can be removed one after the other when their links can. -/
theorem allRemovable_iff (hro : E.readOnlyKey = []) {docs : List (QByteArray × QJsonObject)}
    (hdocs : ∀ p ∈ docs, p ∈ storedDocuments σ.db) {indexes : List (QString × QString)}
    {t : LinkTable QByteArray QByteArray} :
    AllRemovable E σ.db 0 indexes t (docs.map Prod.fst) ↔
      t.Removable (docs.flatMap fun p =>
        removedLinks E 0 indexes p.2 (constructDocumentLinkKey p.1 0)) := by
  have hfound : ∀ id ∈ docs.map Prod.fst, (removable E σ.db 0 id false).isSome := by
    intro id hid
    obtain ⟨p, hp, rfl⟩ := List.mem_map.mp hid
    rw [removable_of_mem hflat hgood hro (hdocs p hp), Option.isSome_some]
  have hlinks : (docs.map Prod.fst).flatMap (removalLinks E σ.db 0 indexes false) =
      docs.flatMap fun p => removedLinks E 0 indexes p.2 (constructDocumentLinkKey p.1 0) := by
    rw [List.flatMap_map]
    refine List.flatMap_congr fun p hp => ?_
    rw [removalLinks, removable_of_mem hflat hgood hro (hdocs p hp)]
    rfl
  rw [AllRemovable, hlinks]
  exact and_iff_right hfound

omit hgood hs hq in
/-- The commit of deletions of stored keys goes through. -/
theorem commit_of_deletes {ids : List QByteArray} {ws : List (WriteOp QByteArray Blob)}
    {tx' : Transaction} (hws : Deletes E σ.db ids ws σ.newTransaction tx')
    (hids : ∀ id ∈ ids, σ.db.find? (constructDocumentLinkKey id 0) ≠ none) :
    (commit E.backend σ.db ws).1 = .success := by
  apply commit_success_iff.mpr
  intro _ k hk
  obtain ⟨w, hw, rfl, -⟩ := exists_mem_of_lastWrite_eq_some hk
  rcases hws.keys w hw with ⟨id, hid, rfl | rfl⟩ | ⟨-, l, hlinked⟩
  · exact hids id hid
  · exact (hflat.paired id).mpr (hids id hid)
  · rw [@Collection.links_newTransaction E σ] at hlinked
    obtain ⟨-, b, hb, -⟩ := linked_storedLinks.mp hlinked
    simp [hb]

omit hgood hs hq in
/-- What was deleted is not visible any more. -/
theorem visible_of_deletes {ids : List QByteArray} {ws : List (WriteOp QByteArray Blob)}
    {tx' : Transaction} (hws : Deletes E σ.db ids ws σ.newTransaction tx')
    (hids : ∀ id ∈ ids, σ.db.find? (constructDocumentLinkKey id 0) ≠ none)
    {id : QByteArray} (hid : id ∈ ids) (o : QJsonObject) :
    visible (commit E.backend σ.db ws).2 0 id ≠ some o := by
  have hdeletes : ∀ w ∈ ws, w.key = constructDocumentLinkKey id 0 → w.outcome = none := by
    intro w hw hkey
    rcases hws.keys w hw with ⟨id', -, rfl | rfl⟩ | ⟨hlist, -⟩
    · rfl
    · rfl
    · exact absurd hkey (hlist.key_ne_of_isKeyOf (isKeyOf_linkKey id 0))
  have hlast : lastWrite ws (constructDocumentLinkKey id 0) = some none :=
    lastWrite_eq_of_forall (hws.deleted id hid) hdeletes
  have hput : lastPut ws (constructDocumentLinkKey id 0) = none := by
    rw [lastPut_eq_none_iff]
    intro v hv
    cases hdeletes _ hv rfl
  intro ho
  rw [FlatStore.visible_iff, find?_commit (commit_of_deletes hflat hws hids) fun _ _ => hput,
    SortedMap.find?_applyLog, hlast] at ho
  cases ho

omit hq in
/-- **Removing what was found**: the request succeeds when the links can be taken away, and
then what was found is not visible any more. -/
theorem transact_remove_of_find (hro : E.readOnlyKey = [])
    {docs : List (QByteArray × QJsonObject)} (hdocs : ∀ p ∈ docs, p ∈ storedDocuments σ.db)
    (hfind : find E (σ.reader E) query [] =
      (.success, docs.map fun p => (.object p.2, p.1))) :
    ((σ.transact E (.remove query)).1 = .success ↔
      (storedLinks σ.db).Removable (docs.flatMap fun p =>
        removedLinks E 0 (storedIndexes σ.db) p.2 (constructDocumentLinkKey p.1 0))) ∧
    ((σ.transact E (.remove query)).1 = .success → ∀ id ∈ docs.map Prod.fst, ∀ o,
      visible (σ.transact E (.remove query)).2.db (σ.transact E (.remove query)).2.snapshotId id ≠
        some o) := by
  have hrun : (TxOp.remove query).run E σ.db σ.newTransaction =
      removeByIds E σ.db (docs.map Prod.fst) σ.newTransaction := by
    rw [run_remove hfind, List.map_map]
    rfl
  have hstored : ∀ id ∈ docs.map Prod.fst,
      σ.db.find? (constructDocumentLinkKey id 0) ≠ none := by
    intro id hid
    obtain ⟨p, hp, rfl⟩ := List.mem_map.mp hid
    simp [(hflat.mem_storedDocuments_iff hgood).mp (hdocs p hp)]
  have hfound : ∀ id ∈ docs.map Prod.fst, ∃ o scan,
      removable E σ.db 0 id false = some (o, scan) ∧ scan.snapshotId = some 0 ∧
        scan.isNaked = true := by
    intro id hid
    obtain ⟨p, hp, rfl⟩ := List.mem_map.mp hid
    exact ⟨p.2, _, removable_of_mem hflat hgood hro (hdocs p hp), rfl, rfl⟩
  have hiff : (removeByIds E σ.db (docs.map Prod.fst) σ.newTransaction).1 = .success ↔
      (storedLinks σ.db).Removable (docs.flatMap fun p =>
        removedLinks E 0 (storedIndexes σ.db) p.2 (constructDocumentLinkKey p.1 0)) := by
    have hsnapshot : σ.newTransaction.snapshotId = 0 := hs
    rw [removeByIds_success_iff, hsnapshot, Collection.getIndexes_newTransaction,
      Collection.getIndexes_reader, @Collection.links_newTransaction E σ]
    exact allRemovable_iff hflat hgood hro hdocs
  have hdeletes : (removeByIds E σ.db (docs.map Prod.fst) σ.newTransaction).1 = .success →
      ∃ ws, Deletes E σ.db (docs.map Prod.fst) ws σ.newTransaction
        ((TxOp.remove query).run E σ.db σ.newTransaction).2 := by
    intro h
    rw [hrun]
    exact removeByIds_deletes hs hfound h
  refine ⟨⟨fun h => ?_, fun h => ?_⟩, fun h id hid o => ?_⟩
  · exact hiff.mp (hrun ▸ Collection.run_of_transact_success h)
  · obtain ⟨ws, hws⟩ := hdeletes (hiff.mpr h)
    obtain ⟨-, hsuccess⟩ := Collection.transact_spec (.remove query) hws.wrote
    rw [hsuccess (commit_of_deletes hflat hws hstored), hrun]
    exact hiff.mpr h
  · obtain ⟨ws, hws⟩ := hdeletes (hrun ▸ Collection.run_of_transact_success h)
    obtain ⟨hc, -⟩ := Collection.transact_spec (.remove query) hws.wrote
    rw [hc.db, hc.snapshotId, hs]
    exact visible_of_deletes hflat hws hstored hid o

/-- **From the loop over the documents** `remove` is right when nothing that matches is hidden
and the links can be taken away. A hidden document is not found, and stays. -/
theorem removesMatches_iff_of_searched (hro : E.readOnlyKey = [])
    (hsearched : ¬ Indexed (storedIndexes σ.db) query) :
    RemovesMatches E σ query ↔
      (∀ p ∈ matchingDocuments E σ.db query, ∀ q ∈ storedDocuments σ.db, ¬ Hides q.1 p.1) ∧
        (storedLinks σ.db).Removable ((matchingDocuments E σ.db query).flatMap fun p =>
          removedLinks E σ.snapshotId (storedIndexes σ.db) p.2
            (constructDocumentLinkKey p.1 σ.snapshotId)) := by
  have hfind := @find_searched E σ query hflat hgood hs hq hsearched
  have hdocs : ∀ p ∈ foundDocuments E σ.db query, p ∈ storedDocuments σ.db := fun p hp =>
    List.mem_of_mem_filter (List.mem_of_mem_filter hp)
  have hids : ((foundDocuments E σ.db query).map fun p => (QJsonValue.object p.2, p.1)).map
      Prod.snd = (foundDocuments E σ.db query).map Prod.fst := by
    rw [List.map_map]
    rfl
  obtain ⟨hsuccess, hgone⟩ := transact_remove_of_find hflat hgood hs hro hdocs hfind
  have hstays : ∀ id, id ∉ (foundDocuments E σ.db query).map Prod.fst →
      visible (σ.transact E (.remove query)).2.db (σ.transact E (.remove query)).2.snapshotId id =
        visible σ.db σ.snapshotId id := fun id hid => visible_of_notMem hs hfind (hids ▸ hid)
  have hmem : ∀ id o, (id, o) ∈ storedDocuments σ.db ↔ visible σ.db σ.snapshotId id = some o :=
    fun id o => by rw [hs, hflat.mem_storedDocuments_iff hgood, FlatStore.visible_iff]
  have hreturns : (find? E (σ.newTransaction.reader E σ.db) query []).isSome := by
    refine find?_isSome_iff.mpr ?_
    exact intersectionsEnd_of_not_indexed (by rwa [Collection.getIndexes_reader]) none
  rw [hs]
  constructor
  · rintro ⟨-, hok, hvisible⟩
    have hall : ∀ p ∈ matchingDocuments E σ.db query, ∀ q ∈ storedDocuments σ.db,
        ¬ Hides q.1 p.1 := by
      rintro ⟨id, o⟩ hmatch q hq' hhides
      obtain ⟨hstored, hsat⟩ := (mem_matchingDocuments_iff hq).mp hmatch
      have hnot : id ∉ (foundDocuments E σ.db query).map Prod.fst := by
        intro hid
        obtain ⟨p, hp, rfl⟩ := List.mem_map.mp hid
        have hunhidden : p ∈ unhidden (storedDocuments σ.db) := List.mem_of_mem_filter hp
        have hnone := of_decide_eq_true (List.mem_filter.mp hunhidden).2
        exact hnone q hq' hhides
      have hstill := (hstays id hnot).trans ((hmem id o).mp hstored)
      exact ((hvisible id o).mp hstill).2 hsat
    rw [foundDocuments_eq hall] at hsuccess
    exact ⟨hall, hsuccess.mp hok⟩
  · rintro ⟨hall, hlinks⟩
    rw [foundDocuments_eq hall] at hsuccess hgone hstays
    have hok := hsuccess.mpr hlinks
    refine ⟨hreturns, hok, fun id o => ?_⟩
    by_cases hid : id ∈ (matchingDocuments E σ.db query).map Prod.fst
    · refine ⟨fun ho => absurd ho (hgone hok id hid o), fun ⟨ho, hnot⟩ => ?_⟩
      obtain ⟨⟨id, o'⟩, hp, rfl⟩ := List.mem_map.mp hid
      obtain ⟨hstored, hsat⟩ := (mem_matchingDocuments_iff hq).mp hp
      obtain rfl : o = o' := Option.some.inj (ho.symm.trans ((hmem _ _).mp hstored))
      exact absurd hsat hnot
    · rw [hstays id hid]
      refine ⟨fun ho => ⟨ho, fun hsat => hid ?_⟩, fun h => h.1⟩
      have hp : (id, o) ∈ matchingDocuments E σ.db query :=
        (mem_matchingDocuments_iff hq).mpr ⟨(hmem id o).mpr ho, hsat⟩
      exact List.mem_map.mpr ⟨_, hp, rfl⟩

end Request

/-- **remove** of a well-formed query, after insertions and the creation of indexes, succeeds
and takes away exactly the documents that satisfy it when `RemovalFits` says so. -/
theorem removesMatches_iff {E : Env} {σ : Collection} {query : QJsonObject}
    (hro : E.readOnlyKey = []) (h : Reachable E (fun _ op => InsertOp op) σ)
    (hq : WellFormed (.object query)) : RemovesMatches E σ query ↔ RemovalFits E σ query := by
  obtain ⟨hflat, hs⟩ := flatStore_of_reachable h
  have hgood : GoodStore Set.univ σ.db := goodStore_of_reachable (fun _ _ => InsertOp.opIds) h
  by_cases hindexed : Indexed (storedIndexes σ.db) query
  · have hfits : RemovalFits E σ query ↔ EntriesThere E (σ.reader E) (storedIndexes σ.db) query ∧
        IntersectionsEnd E (σ.reader E) query none ∧
        ∀ id o, visible σ.db σ.snapshotId id = some o → ¬ Sat (.object query) (.object o) :=
      ⟨fun h => h.indexed hindexed, fun h => ⟨fun _ => h, fun hnot => absurd hindexed hnot⟩⟩
    rw [hfits]
    by_cases hthere : EntriesThere E (σ.reader E) (storedIndexes σ.db) query
    · rw [removesMatches_iff_of_indexed hflat hgood hs hq hindexed hthere]
      exact (and_iff_right hthere).symm
    · have herror : find E (σ.reader E) query [] = (.errorDatabase, []) :=
        find_of_not_entriesThere [] (Collection.getIndexes_reader ▸ hthere)
      exact iff_of_false (not_removesMatches_of_error (by decide) herror) fun h => hthere h.1
  · rw [removesMatches_iff_of_searched hflat hgood hs hq hro hindexed]
    exact ⟨fun h => ⟨fun hyes => absurd hyes hindexed, fun _ => h⟩, fun h => h.searched hindexed⟩

/-- The document `a` with a value for an indexed field. -/
def storedN : Collection :=
  (Collection.indexedN.transact (Env.plain .map)
    (.insert (Collection.documentN .null) ⟨[], []⟩ false false)).2

theorem reachable_storedN : Reachable (Env.plain .map) (fun _ op => InsertOp op) storedN :=
  (Reachable.opened.transact trivial).transact trivial

/-- A query that no index is consulted for removes the document. -/
theorem removesMatches_storedN :
    RemovesMatches (Env.plain .map) storedN [(qs "n", .object [(qs "$exists", .bool true)])] := by
  refine (removesMatches_iff rfl reachable_storedN ?_).mpr ⟨fun h => ?_, fun _ => ⟨?_, ?_⟩⟩
  · refine .query (List.forall_mem_singleton.mpr (.path (by decide) ?_))
    exact .query (List.forall_mem_singleton.mpr (.defined true))
  · exact absurd h (by decide)
  · decide +kernel
  · exact (LinkTable.removeAll_isSome_iff _).mp (by decide +kernel)

/-- The `_id` names a link key, which is no id of a document. -/
theorem not_removesMatches :
    ¬ ∀ (E : Env) (σ : Collection) (query : QJsonObject), E.readOnlyKey = [] →
      Reachable E (fun _ op => InsertOp op) σ → WellFormed (.object query) →
      RemovesMatches E σ query := by
  intro h
  have hq : WellFormed (.object [(qs "_id", .string (qs "a"))]) :=
    .query (List.forall_mem_singleton.mpr (.literal (by decide) rfl))
  have hremoves := h _ storedN _ rfl reachable_storedN hq
  exact absurd hremoves.2.1 (by decide +kernel)

end Qdocdb
