import Qdocdb.FlatStore
import Qdocdb.IndexCompleteness
import Qdocdb.Shortcut
import Qdocdb.Undo

/-!
# What a removal leaves in the index

`insert` adds links and takes none away; the links of the values that an overwritten document
had are left to `removeById`, which only looks into the lists of the values that the document
has now. So no link of a removed id stays behind when each list that links an id is one that the
removal of its present document looks into. The condition `PurgeOp` on each request keeps it so
(`purged_of_reachable`).
-/

namespace Qdocdb

open Transaction

variable {E : Env} {σ σ' : Collection}

/-- No list of the current snapshot number has a link to a version of the id. -/
def Purged (σ : Collection) (id : QByteArray) : Prop :=
  ∀ indexName value t, ¬ (storedLinks σ.db).Linked
    (constructIndexValueKey indexName σ.snapshotId value) (constructDocumentLinkKey id t)

/-- Each list of the current number with a link to the id is one that the removal of the
document `o` looks into. -/
def Covers (E : Env) (σ : Collection) (id : QByteArray) (o : QJsonObject) : Prop :=
  ∀ indexName value, (storedLinks σ.db).Linked
      (constructIndexValueKey indexName σ.snapshotId value)
      (constructDocumentLinkKey id σ.snapshotId) →
    constructIndexValueKey indexName σ.snapshotId value ∈
      removedKeys E σ.snapshotId (storedIndexes σ.db) o

/-- The condition on a request. A document that is stored is removed from all lists that it is
put into, and from those that link its id already; so is a document that is listed in a new
index; and a removal that finds another document than the one asked for is no removal of an id
that lists still link. -/
def PurgeOp (E : Env) (σ : Collection) : Op → Prop
  | .transact (.insert doc gen overwrite ignoreReadOnlyValue) =>
    ∀ id o isOld, accepted E σ.db σ.snapshotId doc gen overwrite ignoreReadOnlyValue =
        some (id, o, isOld) →
      (∀ k ∈ addedKeys E σ.snapshotId (storedIndexes σ.db) o,
        k ∈ removedKeys E σ.snapshotId (storedIndexes σ.db) o) ∧ Covers E σ id o
  | .transact (.createIndex fieldName indexName) =>
    ((storedIndexes σ.db).lookup fieldName).isSome ∨
      ∀ e ∈ enumerate E.backend σ.db σ.snapshotId, ∀ o, e.1 = .object o →
        listKey E (fieldName, indexName) σ.snapshotId o ∈ removedKeys E σ.snapshotId
          (storedIndexes σ.db ++ [(fieldName, indexName)]) o
  | .transact (.removeById id ignoreReadOnlyValue) =>
    visible σ.db σ.snapshotId id = none → ∀ o scan,
      removable E σ.db σ.snapshotId id ignoreReadOnlyValue = some (o, scan) → Covers E σ id o
  | _ => False

/-- The requests of a run. -/
def RemovalOp : Op → Prop
  | .transact (.insert _ _ _ _) => True
  | .transact (.createIndex _ _) => True
  | .transact (.removeById _ _) => True
  | _ => False

/-! ## The invariant -/

/-- A collection without snapshots, in which a removal of any document looks into all lists
with a link to it. -/
structure PurgeInv (E : Env) (σ : Collection) : Prop where
  flat : FlatStore σ.db
  good : GoodStore Set.univ σ.db
  snapshotId : σ.snapshotId = 0
  link : ∀ k l, (storedLinks σ.db).Linked k l → ∃ id, l = constructDocumentLinkKey id 0
  covered : ∀ id o, σ.db.find? (constructDocumentLinkKey id 0) = some (.document o) →
    Covers E σ id o

theorem storedLinks_open (k : QByteArray) : storedLinks (Collection.open E .empty).db k = none := by
  rw [storedLinks, Collection.open_empty.1, SortedMap.find?_insert]
  split
  · rename_i hprefix
    rw [if_neg]
    · rfl
    · rintro rfl
      revert hprefix
      decide
  · rfl

theorem purgeInv_open : PurgeInv E (Collection.open E .empty) where
  flat := flatStore_open
  good := goodStore_open
  snapshotId := Collection.open_empty.2
  link := by
    rintro k l ⟨ls, hls, -⟩
    rw [storedLinks_open] at hls
    cases hls
  covered := by
    rintro id o - n v ⟨ls, hls, -⟩
    rw [storedLinks_open] at hls
    cases hls

namespace PurgeInv

/-- **insert** of a document whose removal looks into all its lists. -/
theorem insert (h : PurgeInv E σ) {doc : QJsonObject} {gen : IdGen}
    {overwrite ignoreReadOnlyValue : Bool}
    (hop : PurgeOp E σ (.transact (.insert doc gen overwrite ignoreReadOnlyValue))) :
    PurgeInv E (σ.transact E (.insert doc gen overwrite ignoreReadOnlyValue)).2 := by
  have hgood : GoodStore Set.univ
      (σ.transact E (.insert doc gen overwrite ignoreReadOnlyValue)).2.db :=
    h.good.transact fun _ _ _ => Set.mem_univ _
  obtain ⟨hflat, hid⟩ := h.flat.insert (E := E) h.snapshotId doc gen overwrite ignoreReadOnlyValue
  cases hacc : accepted E σ.db σ.snapshotId doc gen overwrite ignoreReadOnlyValue with
  | none =>
    obtain ⟨hdb, hs⟩ := Collection.transact_insert_of_refused hacc
    refine ⟨hflat, hgood, hid, ?_, ?_⟩
    · rw [hdb]
      exact h.link
    · intro id o
      rw [hdb, Covers, hdb, hs]
      exact h.covered id o
  | some p =>
    obtain ⟨id, o, isOld⟩ := p
    obtain ⟨hadded, hcovers⟩ := hop id o isOld hacc
    have hins := Collection.inserted_of_accepted hacc
    generalize (σ.transact E (.insert doc gen overwrite ignoreReadOnlyValue)).2 = σ' at *
    have hlinked : ∀ k l, (storedLinks σ'.db).Linked k l →
        (storedLinks σ.db).Linked k l ∨
          k ∈ addedKeys E σ.snapshotId (storedIndexes σ.db) o ∧
            l = constructDocumentLinkKey id σ.snapshotId := by
      intro k l hl
      rw [hins.links, LinkTable.linked_addAll] at hl
      refine hl.imp_right fun hmem => ?_
      obtain ⟨k', hk', heq⟩ := List.mem_map.mp hmem
      obtain ⟨rfl, rfl⟩ := Prod.mk.inj heq
      exact ⟨hk', rfl⟩
    refine ⟨hflat, hgood, hid, fun k l hl => ?_, fun id' o' ho' n v hl => ?_⟩
    · rcases hlinked k l hl with hl | ⟨-, rfl⟩
      · exact h.link k l hl
      · exact ⟨id, by rw [h.snapshotId]⟩
    · rw [hins.indexes, hins.snapshotId]
      rw [hins.snapshotId] at hl
      have hlink := hins.linkKey
      rw [h.snapshotId] at hlink
      by_cases heq : id' = id
      · subst heq
        obtain rfl : o = o' := by simpa using hlink.symm.trans ho'
        rcases hlinked _ _ hl with hl | ⟨hk, -⟩
        · exact hcovers n v hl
        · exact hadded _ hk
      · -- nothing changes about another document
        have hne : constructDocumentLinkKey id' 0 ≠ constructDocumentLinkKey id 0 := fun hk =>
          heq (by simpa using congrArg idOfLinkKey hk)
        rcases hlinked _ _ hl with hl | ⟨-, hk⟩
        · refine h.covered id' o' ?_ n v hl
          rw [← hins.other _ (linkKey_zero_ne_startKey _ _) (by rwa [h.snapshotId])
            fun hmeta => hmeta.not_isKeyOf (isKeyOf_linkKey id' 0)]
          exact ho'
        · rw [h.snapshotId] at hk
          exact absurd hk hne

/-- **createIndex** lists the documents that the loop visits. -/
theorem createIndex (h : PurgeInv E σ) {fieldName indexName : QString}
    (hop : PurgeOp E σ (.transact (.createIndex fieldName indexName))) :
    PurgeInv E (σ.transact E (.createIndex fieldName indexName)).2 := by
  have hgood : GoodStore Set.univ (σ.transact E (.createIndex fieldName indexName)).2.db :=
    h.good.transact trivial
  obtain ⟨hflat, hid⟩ := h.flat.createIndex (E := E) h.snapshotId fieldName indexName
  rcases @Collection.transact_createIndex_cases E σ fieldName indexName with
    ⟨-, hdb, hs⟩ | ⟨hnone, iws, hiws, -, hdb, hs, hlinks⟩
  · refine ⟨hflat, hgood, hid, ?_, ?_⟩
    · rw [hdb]
      exact h.link
    · intro id o
      rw [hdb, Covers, hdb, hs]
      exact h.covered id o
  have hlisted := hop.resolve_left (by simp [hnone])
  have hindexes := hdb ▸ @Collection.storedIndexes_putIndexes σ.db iws hiws
    (storedIndexes σ.db ++ [(fieldName, indexName)])
  have hdocs : ∀ id, (σ.transact E (.createIndex fieldName indexName)).2.db.find?
      (constructDocumentLinkKey id 0) = σ.db.find? (constructDocumentLinkKey id 0) := by
    intro id
    rw [hdb, SortedMap.find?_applyLog_of_forall_ne]
    intro w hw heq
    have hmeta : IsMetaKey w.key := by
      rcases List.mem_append.mp hw with hw | hw
      · exact (hiws w hw).isMetaKey
      · rw [List.mem_singleton.mp hw]
        exact isMetaKey_indexesKey
    exact (heq ▸ hmeta).not_isKeyOf (isKeyOf_linkKey id 0)
  generalize (σ.transact E (.createIndex fieldName indexName)).2 = σ' at *
  have hlinked : ∀ k l, (storedLinks σ'.db).Linked k l → (storedLinks σ.db).Linked k l ∨
      (k, l) ∈ createdLinks E σ.snapshotId fieldName indexName
        (enumerate E.backend σ.db σ.snapshotId) := by
    intro k l hl
    rw [hlinks, LinkTable.linked_addAll] at hl
    refine hl.imp_left fun hl => ?_
    -- the start entry is empty
    obtain ⟨ls, hls, hmem⟩ := hl
    by_cases hk : k = constructIndexValueKey indexName σ.snapshotId []
    · rw [hk, Function.update_self] at hls
      rw [← Option.some.inj hls] at hmem
      cases hmem
    · rw [Function.update_of_ne hk] at hls
      exact ⟨ls, hls, hmem⟩
  have hcreated : ∀ k l, (k, l) ∈ createdLinks E σ.snapshotId fieldName indexName
      (enumerate E.backend σ.db σ.snapshotId) → ∃ id o,
        σ.db.find? (constructDocumentLinkKey id 0) = some (.document o) ∧
        l = constructDocumentLinkKey id 0 ∧
        (.object o, id) ∈ enumerate E.backend σ.db σ.snapshotId ∧
        k = listKey E (fieldName, indexName) σ.snapshotId o := by
    intro k l hmem
    obtain ⟨⟨v, id⟩, he, heq⟩ := List.mem_filterMap.mp hmem
    have hstored := he
    rw [h.snapshotId, h.flat.enumerate_eq h.good] at hstored
    obtain ⟨⟨id', o⟩, hp, hpe⟩ := List.mem_map.mp hstored
    obtain ⟨rfl, rfl⟩ := Prod.mk.inj hpe
    obtain ⟨rfl, rfl⟩ := Prod.mk.inj (Option.some.inj heq)
    exact ⟨id', o, (h.flat.mem_storedDocuments_iff h.good).mp (List.mem_of_mem_filter hp),
      by rw [h.snapshotId], he, rfl⟩
  refine ⟨hflat, hgood, hid, fun k l hl => ?_, fun id o ho n v hl => ?_⟩
  · rcases hlinked k l hl with hl | hl
    · exact h.link k l hl
    · obtain ⟨id, o, -, hl, -⟩ := hcreated k l hl
      exact ⟨id, hl⟩
  · rw [hdocs] at ho
    rw [hindexes, hs]
    rw [hs] at hl
    rcases hlinked _ _ hl with hl | hl
    · have hk := h.covered id o ho n v hl
      rw [removedKeys, List.flatMap_append]
      exact List.mem_append_left _ hk
    · obtain ⟨id', o', ho', heq, he, hk⟩ := hcreated _ _ hl
      rw [h.snapshotId] at heq
      obtain ⟨rfl, -⟩ := constructDocumentLinkKey_inj.mp heq
      obtain rfl : o = o' := by simpa using ho.symm.trans ho'
      exact hk ▸ hlisted _ he o rfl

/-! ### removeById -/

/-- What the lookup of an id finds is the only version of some document; the map finds none but
the id's own. -/
theorem of_removable (h : PurgeInv E σ) {id : QByteArray} {ignoreReadOnlyValue : Bool}
    {o : QJsonObject} {scan : ValueScan}
    (hfound : removable E σ.db σ.snapshotId id ignoreReadOnlyValue = some (o, scan)) :
    scan.snapshotId = some σ.snapshotId ∧ scan.isNaked = true ∧
      (σ.db.find? (constructDocumentLinkKey id 0) = some (.document o) ∨
        visible σ.db σ.snapshotId id = none ∧ E.backend = .levelDB) := by
  obtain ⟨hscan, hjson, -⟩ := removable_eq_some hfound
  rw [h.snapshotId] at hscan ⊢
  cases hlink : σ.db.find? (constructDocumentLinkKey id 0) with
  | some b =>
    obtain ⟨o', rfl⟩ := h.flat.exists_document hlink
    rw [h.flat.seekValue_eq h.good hlink, Option.getD_some] at hscan
    subst hscan
    obtain rfl : o' = o := QJsonValue.object.inj hjson
    exact ⟨rfl, rfl, .inl rfl⟩
  | none =>
    have hvisible : visible σ.db 0 id = none := by
      cases hv : visible σ.db 0 id with
      | none => rfl
      | some o' => rw [FlatStore.visible_iff, hlink] at hv; cases hv
    rw [h.flat.seekValue_of_absent h.good E.backend hlink] at hscan
    cases hB : E.backend with
    | map =>
      rw [hB] at hscan
      subst hscan
      cases hjson
    | levelDB =>
      rw [hB] at hscan
      simp only at hscan
      generalize (storedDocuments σ.db).find? _ = found at hscan
      subst hscan
      cases found with
      | none => cases hjson
      | some p => exact ⟨rfl, rfl, .inr ⟨hvisible, rfl⟩⟩

/-- What a removal that finds a document writes. -/
theorem removeById_writes (h : PurgeInv E σ) {id : QByteArray} {ignoreReadOnlyValue : Bool}
    {o : QJsonObject} {scan : ValueScan}
    (hfound : removable E σ.db σ.snapshotId id ignoreReadOnlyValue = some (o, scan)) :
    (σ.transact E (.removeById id ignoreReadOnlyValue)).1 =
        (σ.newTransaction.removeById E σ.db id ignoreReadOnlyValue).1 ∧
      storedLinks (σ.transact E (.removeById id ignoreReadOnlyValue)).2.db =
        (σ.newTransaction.removeById E σ.db id ignoreReadOnlyValue).2.links E σ.db ∧
      (∀ k l, (storedLinks (σ.transact E (.removeById id ignoreReadOnlyValue)).2.db).Linked k l →
        (storedLinks σ.db).Linked k l) ∧
      ∃ iws, (∀ w ∈ iws, ListWrite w) ∧
        (σ.transact E (.removeById id ignoreReadOnlyValue)).2.db = σ.db.applyLog
          ([.delete (constructDocumentLinkKey id 0),
            .delete (constructDocumentStartKey id)] ++ iws) := by
  obtain ⟨hs, hnaked, hwhere⟩ := h.of_removable hfound
  have hstored : E.backend = .levelDB ∨ σ.db.find? (constructDocumentStartKey id) ≠ none ∧
      σ.db.find? (constructDocumentLinkKey id σ.snapshotId) ≠ none := by
    rcases hwhere with hlink | ⟨-, hB⟩
    · have hne : σ.db.find? (constructDocumentLinkKey id 0) ≠ none := by simp [hlink]
      exact .inr ⟨(h.flat.paired id).mpr hne, h.snapshotId ▸ hne⟩
    · exact .inl hB
  have hwrites := Collection.transact_removeById_writes hfound hs hnaked hstored
  rwa [h.snapshotId] at hwrites

/-- **removeById** takes links away, and adds none. -/
theorem removeById (h : PurgeInv E σ) (id : QByteArray) (ignoreReadOnlyValue : Bool) :
    PurgeInv E (σ.transact E (.removeById id ignoreReadOnlyValue)).2 := by
  have hgood : GoodStore Set.univ (σ.transact E (.removeById id ignoreReadOnlyValue)).2.db :=
    h.good.transact (Set.mem_univ id)
  have hid := @Collection.snapshotId_transact E σ (.removeById id ignoreReadOnlyValue)
  cases hrem : removable E σ.db σ.snapshotId id ignoreReadOnlyValue with
  | none =>
    obtain ⟨r, lastError, -, heq⟩ := @removeById_of_removable_eq_none E σ.db σ.newTransaction id
      ignoreReadOnlyValue hrem
    obtain ⟨hdb, -⟩ := @Collection.transact_of_refused E σ (.removeById id ignoreReadOnlyValue) r
      lastError heq
    refine ⟨hdb ▸ h.flat, hgood, hid.trans h.snapshotId, ?_, ?_⟩
    · rw [hdb]
      exact h.link
    · intro id' o
      rw [hdb, Covers, hdb, hid]
      exact h.covered id' o
  | some p =>
    obtain ⟨-, -, hfewer, iws, hiws, hdb⟩ := h.removeById_writes hrem
    have hmeta : ∀ w ∈ iws, IsMetaKey w.key := fun w hw => (hiws w hw).isMetaKey
    have hindexes : storedIndexes (σ.transact E (.removeById id ignoreReadOnlyValue)).2.db =
        storedIndexes σ.db := by
      apply storedIndexes_congr
      rw [hdb, SortedMap.find?_applyLog_of_forall_ne]
      intro w hw heq
      rcases List.mem_append.mp hw with hw | hw
      · -- the keys of a document are not the key of the indexes
        have hkey : IsKeyOf id w.key := by
          rcases List.mem_pair.mp hw with rfl | rfl
          · exact isKeyOf_linkKey id 0
          · exact isKeyOf_startKey id
        exact isMetaKey_indexesKey.not_isKeyOf (heq ▸ hkey)
      · have hprefix := (hiws w hw).1
        rw [heq] at hprefix
        exact absurd hprefix (by decide)
    refine ⟨?_, hgood, hid.trans h.snapshotId, fun k l hl => h.link k l (hfewer k l hl), ?_⟩
    · rw [hdb, SortedMap.applyLog_append]
      exact (h.flat.deleteJsonValue id).applyLog hmeta
    · intro id' o ho n v hl
      rw [hindexes, hid]
      rw [hid] at hl
      refine h.covered id' o ?_ n v (hfewer _ _ hl)
      -- a document that is there was there before
      rw [hdb] at ho
      rcases SortedMap.find?_applyLog_eq_some ho with ho | hput
      · exact ho
      · rcases List.mem_append.mp hput with hput | hput
        · simp at hput
        · exact absurd (isKeyOf_linkKey id' 0) (hmeta _ hput).not_isKeyOf

/-- **One removal**: no list links the id afterwards if, and only if, the removal looked into
all that linked it. -/
theorem purged_iff (h : PurgeInv E σ) {id : QByteArray} {ignoreReadOnlyValue : Bool}
    {o : QJsonObject} {scan : ValueScan}
    (hfound : removable E σ.db σ.snapshotId id ignoreReadOnlyValue = some (o, scan))
    (hsuccess : (σ.transact E (.removeById id ignoreReadOnlyValue)).1 = .success) :
    Purged (σ.transact E (.removeById id ignoreReadOnlyValue)).2 id ↔ Covers E σ id o := by
  obtain ⟨hresult, hlinks, hfewer, -⟩ := h.removeById_writes hfound
  have hremoved := (Collection.removesLinks_newTransaction hfound
    (h.of_removable hfound).1).removeAll_eq (hresult.symm.trans hsuccess)
  rw [Collection.links_newTransaction, removedLinks_eq, ← hlinks] at hremoved
  have hleft : ∀ k, (storedLinks (σ.transact E (.removeById id ignoreReadOnlyValue)).2.db).Linked
      k (constructDocumentLinkKey id σ.snapshotId) ↔
        (storedLinks σ.db).Linked k (constructDocumentLinkKey id σ.snapshotId) ∧
          k ∉ removedKeys E σ.snapshotId (storedIndexes σ.db) o := by
    intro k
    rw [LinkTable.linked_removeAll hremoved]
    simp
  rw [Purged, Collection.snapshotId_transact]
  constructor
  · intro hpurged n v hl
    by_contra hk
    exact hpurged n v σ.snapshotId ((hleft _).mpr ⟨hl, hk⟩)
  · intro hcovers n v t hl
    -- all links are links to versions of the number `0`
    obtain ⟨id', hid'⟩ := h.link _ _ (hfewer _ _ hl)
    obtain ⟨rfl, ht⟩ := constructDocumentLinkKey_inj.mp hid'
    rw [ht, ← h.snapshotId] at hl
    obtain ⟨hl, hk⟩ := (hleft _).mp hl
    exact hk (hcovers n v hl)

end PurgeInv

/-! ## Runs -/

/-- **Run**: the removal of each document looks into all lists that link it. By induction on
the run. -/
theorem purgeInv_of_reachable (h : Reachable E (PurgeOp E) σ) : PurgeInv E σ := by
  induction h with
  | opened => exact purgeInv_open
  | @served σ σ' op r _ hop hserved ih =>
    cases op with
    | transact op =>
      obtain ⟨rfl, rfl⟩ := Prod.mk.inj (Option.some.inj hserved)
      cases op with
      | insert doc gen overwrite ignoreReadOnlyValue => exact ih.insert hop
      | createIndex fieldName indexName => exact ih.createIndex hop
      | removeById id ignoreReadOnlyValue => exact ih.removeById id ignoreReadOnlyValue
      | _ => exact hop.elim
    | _ => exact hop.elim

/-- **Removal purges the index**: after a run of such requests, a removal that succeeds leaves
no link of the id. -/
theorem purged_of_reachable {id : QByteArray} {ignoreReadOnlyValue : Bool}
    (h : Reachable E (PurgeOp E) σ)
    (hop : PurgeOp E σ (.transact (.removeById id ignoreReadOnlyValue)))
    (hsuccess : (σ.transact E (.removeById id ignoreReadOnlyValue)).1 = .success) :
    Purged (σ.transact E (.removeById id ignoreReadOnlyValue)).2 id := by
  have hinv := purgeInv_of_reachable h
  cases hrem : removable E σ.db σ.snapshotId id ignoreReadOnlyValue with
  | none => exact absurd hsuccess (Collection.transact_removeById_of_removable_eq_none hrem)
  | some p =>
    obtain ⟨o, scan⟩ := p
    apply (hinv.purged_iff hrem hsuccess).mpr
    rcases (hinv.of_removable hrem).2.2 with hlink | ⟨hvisible, -⟩
    · exact hinv.covered id o hlink
    · exact hop hvisible o scan hrem

/-- No entry of the store links the id. -/
theorem covers_of_unlinked {id : QByteArray} {o : QJsonObject}
    (h : ∀ e ∈ σ.db.entries, constructDocumentLinkKey id σ.snapshotId ∉ e.2.unmarshalIndexValue) :
    Covers E σ id o := by
  intro n v hl
  obtain ⟨-, b, hb, hmem⟩ := linked_storedLinks.mp hl
  exact absurd hmem (h _ (SortedMap.find?_eq_some_iff.mp hb))

theorem reachable_purge_storedN : Reachable (Env.plain .map) (PurgeOp (Env.plain .map)) storedN := by
  have hcreate : PurgeOp (Env.plain .map) (Collection.open (Env.plain .map) .empty)
      (.transact (.createIndex (qs "n") (qs "i"))) := by
    have hnone : enumerate .map (Collection.open (Env.plain .map) .empty).db
        (Collection.open (Env.plain .map) .empty).snapshotId = [] := by decide +kernel
    refine .inr fun e he => ?_
    rw [show (Env.plain .map).backend = .map from rfl, hnone] at he
    cases he
  have hinsert : PurgeOp (Env.plain .map) Collection.indexedN
      (.transact (.insert (Collection.documentN .null) ⟨[], []⟩ false false)) := by
    have hacc : accepted (Env.plain .map) Collection.indexedN.db Collection.indexedN.snapshotId
        (Collection.documentN .null) ⟨[], []⟩ false false =
          some (bytes "a", Collection.documentN .null, false) := by decide +kernel
    intro id o isOld h
    obtain ⟨rfl, rfl, -⟩ : bytes "a" = id ∧ Collection.documentN .null = o ∧ false = isOld := by
      simpa using hacc.symm.trans h
    exact ⟨by decide +kernel, covers_of_unlinked (by decide +kernel)⟩
  exact (Reachable.opened.transact hcreate).transact hinsert

/-- A document that was not overwritten is removed from its list. -/
theorem purged_storedN :
    Purged (storedN.transact (Env.plain .map) (.removeById (bytes "a") false)).2 (bytes "a") :=
  purged_of_reachable reachable_purge_storedN
    (fun hvisible => absurd hvisible (by decide +kernel)) (by decide +kernel)

/-- The list of the value that an overwritten document had keeps its link. -/
theorem not_purged :
    ¬ ∀ (E : Env) (σ : Collection) (id : QByteArray) (ignoreReadOnlyValue : Bool),
      Reachable E (fun _ op => RemovalOp op) σ →
      (σ.transact E (.removeById id ignoreReadOnlyValue)).1 = .success →
      Purged (σ.transact E (.removeById id ignoreReadOnlyValue)).2 id := by
  intro h
  have hreach : Reachable (Env.plain .map) (fun _ op => RemovalOp op) overwrittenN :=
    ((Reachable.opened.transact trivial).transact trivial).transact trivial
  have hpurged := h _ overwrittenN (bytes "a") false hreach (by decide +kernel)
  apply hpurged (qs "i") (marshal (Env.plain .map).toBinaryData .null) 0
  rw [← LinkTable.mem_getD_iff]
  decide +kernel

end Qdocdb
