import Mathlib.Data.List.Dedup
import Qdocdb.Candidates
import Qdocdb.Options
import Qdocdb.RemoveQuery

/-!
# Finding from link keys

A query with an `_id`, or with a value for an indexed field, is answered from link keys, and
the ids of the reply are these link keys; the loop over the documents replies with the ids of
the documents. No link key of a document is an id under which the loop finds that document
(`notMem_enumerate`), so the two agree only when both of them find nothing
(`agreesWithScan_iff`, `agreesWithVisible_iff`).
-/

namespace Qdocdb

/-! ## Link keys are no ids -/

section Keys

variable {B : Backend} {db : Store} {s : Byte} {o : QJsonObject}

/-- What a scan finds it has met, under a key that goes on behind the prefix. -/
theorem exists_of_scanVersions {p : QByteArray} {l : List (QByteArray × Blob)} {r : ValueScan}
    (hr : r.valueData ≠ .document o) (h : (scanVersions p s l r).1.valueData = .document o) :
    ∃ e ∈ l, e.2 = .document o ∧ p.length + 1 < e.1.length := by
  induction l generalizing r with
  | nil => exact absurd h hr
  | cons e l ih =>
    rw [scanVersions] at h
    split at h
    · by_cases hlong : p.length + 1 < e.1.length
      · rw [if_pos hlong] at h
        by_cases he : e.2 = .document o
        · exact ⟨e, List.mem_cons_self, he, hlong⟩
        · have hvisit : (r.visit s (lastByte e.1) e.2).valueData ≠ .document o := by
            rw [ValueScan.visit]
            split
            · exact he
            · split
              · exact he
              · exact hr
          obtain ⟨e', he', hfound⟩ := ih hvisit h
          exact ⟨e', List.mem_cons_of_mem _ he', hfound⟩
      · rw [if_neg hlong] at h
        obtain ⟨e', he', hfound⟩ := ih hr h
        exact ⟨e', List.mem_cons_of_mem _ he', hfound⟩
    · exact absurd h hr

/-- A document that the loop meets under an id is stored under a key that is longer. -/
theorem exists_of_mem_enumerate {k : QByteArray} (hk : k ≠ [])
    (h : (.object o, k) ∈ enumerate B db s) :
    ∃ key, db.find? key = some (.document o) ∧ k.length < key.length := by
  obtain ⟨it, -, heq⟩ := List.mem_map.mp h
  obtain ⟨hvalue, rfl⟩ := Prod.mk.inj heq
  have hdoc := jsonValue_eq_object_iff.mp hvalue
  have hdata : (it.value B db).1.valueData = .document o := by
    cases hb : (it.value B db).1.valueData <;> rw [hb] at hdoc <;> cases hdoc
    rfl
  obtain ⟨e, he, hb, hlong⟩ := exists_of_scanVersions (by simp [ValueScan.init]) hdata
  have hmem : e ∈ db.entries := (kvSeek_suffix B db it.beginKey).subset he
  refine ⟨e.1, hb ▸ SortedMap.find?_eq_some_iff.mpr hmem, ?_⟩
  rw [Iterator.key, List.length_drop]
  omega

theorem ne_nil_of_linkKey {id : QByteArray} {t : Byte} : constructDocumentLinkKey id t ≠ [] := by
  simp [constructDocumentLinkKey]

/-- **A link key is no id**: the loop does not find the document under it. -/
theorem notMem_enumerate {F : Set QByteArray} (hgood : GoodStore F db) {k : QByteArray}
    (hk : db.find? k = some (.document o)) : (.object o, k) ∉ enumerate B db s := by
  intro h
  obtain ⟨sid, t, hsid, rfl⟩ := (hgood _ _ hk).document o rfl
  obtain ⟨key, hkey, hlong⟩ := exists_of_mem_enumerate ne_nil_of_linkKey h
  obtain ⟨sid', t', hsid', rfl⟩ := (hgood _ _ hkey).document o rfl
  obtain rfl : sid = sid' := QJsonValue.string.inj (hsid.symm.trans hsid')
  simp [constructDocumentLinkKey] at hlong

end Keys

/-! ## Runs -/

/-- The requests of a run: insertions, removals, the creation of indexes and snapshots. -/
def ShortcutOp : Op → Prop
  | .transact (.insert _ _ _ _) => True
  | .transact (.removeById _ _) => True
  | .transact (.remove _) => True
  | .transact (.createIndex _ _) => True
  | .newSnapshot _ => True
  | .revertToSnapshot _ => True
  | _ => False

section Runs

variable {E : Env} {σ : Collection}

/-- Removals keep the store good, whatever they are handed as ids. -/
theorem GoodStore.remove (h : GoodStore Set.univ σ.db) (query : QJsonObject) :
    GoodStore Set.univ (σ.transact E (.remove query)).2.db := by
  have hids : ∃ ids, ((TxOp.remove query).run E σ.db σ.newTransaction).2 =
      (Transaction.removeByIds E σ.db ids σ.newTransaction).2 := by
    rw [TxOp.run, Transaction.remove]
    split
    · exact ⟨_, rfl⟩
    · exact ⟨[], rfl⟩
  obtain ⟨ids, hrun⟩ := hids
  obtain ⟨ws, hws, hw⟩ := @removeByIds_wrote E σ.db σ.newTransaction ids []
    Collection.kvdb_newTransaction
  rw [← hrun] at hw
  obtain ⟨hc, -⟩ := Collection.transact_spec (.remove query) hw
  refine hc.preserves h fun k v hkv => ?_
  rcases hws _ hkv with ⟨id, -, s, scan, hversion⟩ | hindex
  · exact goodBinding_of_mem_removeVersion (Set.mem_univ id) hversion
  · exact hindex.goodBinding

/-- **Run**: whatever the ids, a document is stored under a version key of its `_id`. -/
theorem goodStore_of_shortcutOps (h : Reachable E (fun _ op => ShortcutOp op) σ) :
    GoodStore Set.univ σ.db := by
  induction h with
  | opened => exact goodStore_open
  | @served σ σ' op r _ hop happly ih =>
    match op, hop with
    | .transact (.insert doc gen overwrite ignoreReadOnlyValue), _ =>
      have hop : OpIds Set.univ (.transact (.insert doc gen overwrite ignoreReadOnlyValue)) :=
        fun id _ _ => Set.mem_univ id
      exact goodStore_served hop happly ih
    | .transact (.removeById id ignoreReadOnlyValue), _ =>
      have hop : OpIds Set.univ (.transact (.removeById id ignoreReadOnlyValue)) := Set.mem_univ id
      exact goodStore_served hop happly ih
    | .transact (.remove query), _ =>
      obtain rfl := congrArg Prod.snd (Option.some.inj happly)
      exact ih.remove query
    | .transact (.createIndex fieldName indexName), _ =>
      have hop : OpIds Set.univ (.transact (.createIndex fieldName indexName)) := trivial
      exact goodStore_served hop happly ih
    | .newSnapshot snapshotName, _ =>
      have hop : OpIds Set.univ (.newSnapshot snapshotName) := trivial
      exact goodStore_served hop happly ih
    | .revertToSnapshot snapshotName, _ =>
      have hop : OpIds Set.univ (.revertToSnapshot snapshotName) := trivial
      exact goodStore_served hop happly ih

/-- What is found from a link key, the loop over the documents does not find. -/
theorem notMem_enumerate_of_mem_candidates (hgood : GoodStore Set.univ σ.db) {s t : Byte}
    {E' : Env} {query : QJsonObject} {e : QJsonValue × QByteArray}
    (he : e ∈ (collectValid E' query (candidates E (σ.getSnapshot E t) query)).2) :
    e ∉ enumerate E.backend σ.db s := by
  obtain ⟨hmem, o, ho⟩ := of_mem_collectValid he
  obtain ⟨k, -, rfl⟩ := List.mem_map.mp hmem
  have hk := find?_of_getJsonValueByLinkKey ho
  dsimp only at ho
  rw [ho]
  exact notMem_enumerate hgood hk

end Runs

/-! ## Against the loop over the documents -/

/-- `find` returns the result of the full search, and what the options leave of the documents
and ids that the loop of that finds, taken in some order; each evaluation of the query finds
contents of its own in the unset flags. -/
def AgreesWithScan (E : Env) (R : Reader) (query options : QJsonObject) : Prop :=
  ∀ flags flags', ∃ found, find? (E.withFlags flags) R query options = some found ∧
    found.1 = (fullSearch (E.withFlags flags') R query options).1 ∧
    ∃ docs, docs.Perm (collectValid (E.withFlags flags') query
        (enumerate E.backend R.db R.snapshotId)).2 ∧
      found.2 = if (fullSearch (E.withFlags flags') R query options).1 = .success then
        applyOptions docs options else docs

/-- There is nothing to find. Each index consulted has an entry, and `multiply` stays in its
lists. No document that a link key is left of can satisfy the query, and none that the iterator
visits, unless a limit of zero hides it. The query can be evaluated on all these documents, or
there is one of either kind on which it cannot be evaluated. -/
structure NothingToFind (E : Env) (R : Reader) (query options : QJsonObject) : Prop where
  there : EntriesThere E R R.getIndexes query
  ends : IntersectionsEnd E R query none
  linked : Barren query (candidates E R query)
  visited : Barren query (enumerate E.backend R.db R.snapshotId) ∨ limitOf options = some 0 ∧
    ∀ e ∈ enumerate E.backend R.db R.snapshotId, ¬ MayComeTo query e.1 none
  alike : (∀ e ∈ candidates E R query ++ enumerate E.backend R.db R.snapshotId,
      ¬ MayComeTo query e.1 none) ∨
    (∃ e ∈ candidates E R query, Breaks query e.1) ∧
      ∃ e ∈ enumerate E.backend R.db R.snapshotId, Breaks query e.1

theorem fullSearch_fst {E : Env} {R : Reader} {query options : QJsonObject} :
    (fullSearch E R query options).1 =
      (collectValid E query (enumerate E.backend R.db R.snapshotId)).1 := by
  rw [fullSearch]
  rcases collectValid E query (enumerate E.backend R.db R.snapshotId) with ⟨r, reply⟩
  cases r <;> rfl

/-- Two loops have the same result, whatever the flags hold, when the query can be evaluated on
all candidates of both, or when it breaks both. -/
theorem forall_fst_eq_iff {E : Env} {query : QJsonObject}
    {l l' : List (QJsonValue × QByteArray)} :
    (∀ flags flags', (collectValid (E.withFlags flags) query l).1 =
        (collectValid (E.withFlags flags') query l').1) ↔
      (∀ e ∈ l ++ l', ¬ MayComeTo query e.1 none) ∨
        (∃ e ∈ l, Breaks query e.1) ∧ ∃ e ∈ l', Breaks query e.1 := by
  rw [List.forall_mem_append, ← forall_fst_eq_success_iff (E := E) (l := l),
    ← forall_fst_eq_success_iff (E := E) (l := l'), ← forall_fst_ne_success_iff (E := E) (l := l),
    ← forall_fst_ne_success_iff (E := E) (l := l')]
  constructor
  · intro h
    by_cases hsuccess : (collectValid (E.withFlags E.uninitialized) query l).1 = .success
    · have hscan : ∀ flags', (collectValid (E.withFlags flags') query l').1 = .success :=
        fun flags' => (h _ flags').symm.trans hsuccess
      exact .inl ⟨fun flags => (h flags E.uninitialized).trans (hscan _), hscan⟩
    · have hscan : ∀ flags', (collectValid (E.withFlags flags') query l').1 ≠ .success :=
        fun flags' => h E.uninitialized flags' ▸ hsuccess
      exact .inr ⟨fun flags => (h flags E.uninitialized).symm ▸ hscan _, hscan⟩
  · rintro (⟨hl, hl'⟩ | ⟨hl, hl'⟩) flags flags'
    · rw [hl, hl']
    · have hfails := hl flags
      have hfails' := hl' flags'
      rw [collectValid_spec] at hfails hfails' ⊢
      rw [collectValid_spec]
      dsimp only at hfails hfails' ⊢
      rw [if_neg fun hall => hfails (if_pos hall), if_neg fun hall => hfails' (if_pos hall)]

/-- **An index against the scan**: for a query that an index is consulted for, `find` agrees
with its full search, in the current collection and in every snapshot, when there is nothing
to find. -/
theorem agreesWithScan_iff {E : Env} {σ : Collection} {t : Byte} {query options : QJsonObject}
    (h : Reachable E (fun _ op => ShortcutOp op) σ)
    (hindexed : Indexed (σ.getSnapshot E t).getIndexes query) :
    AgreesWithScan E (σ.getSnapshot E t) query options ↔
      NothingToFind E (σ.getSnapshot E t) query options := by
  have hgood := goodStore_of_shortcutOps h
  constructor
  · intro hagrees
    have hthere : EntriesThere E (σ.getSnapshot E t) (σ.getSnapshot E t).getIndexes query := by
      by_contra hnot
      obtain ⟨found, hfound, hresult, -⟩ := hagrees E.uninitialized E.uninitialized
      rw [fst_of_find?_of_not_entriesThere hnot hfound, fullSearch_fst, collectValid_spec] at hresult
      split at hresult <;> cases hresult
    have hends : IntersectionsEnd E (σ.getSnapshot E t) query none := by
      obtain ⟨found, hfound, -⟩ := hagrees E.uninitialized E.uninitialized
      exact ((find?_withFlags_eq_some_iff hindexed hthere options _).mp hfound).1
    have hpair : ∀ flags flags',
        (collectValid (E.withFlags flags) query (candidates E (σ.getSnapshot E t) query)).1 =
            (collectValid (E.withFlags flags') query (enumerate E.backend σ.db t)).1 ∧
          (collectValid (E.withFlags flags) query (candidates E (σ.getSnapshot E t) query)).2 = [] ∧
          ((collectValid (E.withFlags flags') query (enumerate E.backend σ.db t)).2 = [] ∨
            limitOf options = some 0 ∧
              (collectValid (E.withFlags flags') query (enumerate E.backend σ.db t)).1 =
                .success) := by
      intro flags flags'
      obtain ⟨found, hfound, hresult, docs, hdocs, hreply⟩ := hagrees flags flags'
      obtain ⟨-, rfl⟩ := (find?_withFlags_eq_some_iff hindexed hthere options flags).mp hfound
      rw [fullSearch_fst] at hresult hreply
      -- what is found from link keys the scan does not find
      have hnone : (collectValid (E.withFlags flags) query
          (candidates E (σ.getSnapshot E t) query)).2 = [] := by
        rw [List.eq_nil_iff_forall_not_mem]
        intro e he
        have hmem : e ∈ docs := by
          rw [hreply] at he
          split at he
          · exact mem_of_mem_applyOptions he
          · exact he
        exact notMem_enumerate_of_mem_candidates hgood he
          (of_mem_collectValid (hdocs.mem_iff.mp hmem)).1
      refine ⟨hresult, hnone, ?_⟩
      rw [hnone, eq_comm] at hreply
      split at hreply
      · rename_i hsuccess
        rcases applyOptions_eq_nil_iff.mp hreply with rfl | hlimit
        · exact .inl hdocs.nil_eq.symm
        · exact .inr ⟨hlimit, hsuccess⟩
      · subst hreply
        exact .inl hdocs.nil_eq.symm
    have halike := forall_fst_eq_iff.mp fun flags flags' => (hpair flags flags').1
    refine ⟨hthere, hends,
      forall_snd_eq_nil_iff.mp fun flags => (hpair flags E.uninitialized).2.1, ?_, halike⟩
    by_cases hlimit : limitOf options = some 0
    · rcases halike with hall | ⟨-, hbreaks⟩
      · exact .inr ⟨hlimit, fun e he => hall e (List.mem_append_right _ he)⟩
      · refine .inl ((forall_snd_eq_nil_iff (E := E)).mp fun flags' => ?_)
        exact (hpair E.uninitialized flags').2.2.resolve_right fun h =>
          forall_fst_ne_success_iff.mpr hbreaks flags' h.2
    · exact .inl ((forall_snd_eq_nil_iff (E := E)).mp fun flags' =>
        (hpair E.uninitialized flags').2.2.resolve_right fun h => hlimit h.1)
  · rintro ⟨hthere, hends, hlinked, hvisited, halike⟩ flags flags'
    refine ⟨_, (find?_withFlags_eq_some_iff hindexed hthere options flags).mpr ⟨hends, rfl⟩, ?_,
      _, .refl _, ?_⟩
    · rw [fullSearch_fst]
      exact forall_fst_eq_iff.mpr halike flags flags'
    · rw [forall_snd_eq_nil_iff.mpr hlinked flags, eq_comm]
      rcases hvisited with hnone | ⟨hlimit, hall⟩
      · have hnil := (forall_snd_eq_nil_iff (E := E)).mpr hnone flags'
        split
        · exact applyOptions_eq_nil_iff.mpr (.inl hnil)
        · exact hnil
      · have hsuccess := (forall_fst_eq_success_iff (E := E)).mpr hall flags'
        rw [if_pos (fullSearch_fst.trans hsuccess)]
        exact applyOptions_eq_nil_iff.mpr (.inr hlimit)

/-- The document `a` lost the value that an entry still links it under. -/
def overwrittenN : Collection :=
  (storedN.transact (Env.plain .map)
    (.insert (Collection.documentN (.bool true)) ⟨[], []⟩ true false)).2

theorem reachable_overwrittenN :
    Reachable (Env.plain .map) (fun _ op => ShortcutOp op) overwrittenN :=
  ((Reachable.opened.transact trivial).transact trivial).transact trivial

/-- With the entry there, nothing is found from it, and nothing by the scan. -/
theorem agreesWithScan_overwrittenN :
    AgreesWithScan (Env.plain .map) (overwrittenN.getSnapshot (Env.plain .map) 0)
      [(qs "n", .null)] [] := by
  apply (agreesWithScan_iff reachable_overwrittenN (by decide +kernel)).mpr
  refine ⟨?_, ⟨by simp, fun _ => trivial⟩, by decide +kernel, .inl (by decide +kernel),
    .inl (by decide +kernel)⟩
  intro f hf _ indexName hindex
  obtain rfl := List.mem_singleton.mp hf
  obtain rfl : qs "i" = indexName := Option.some.inj hindex
  decide +kernel

/-- A value that no document has is an error for the index, and nothing for the scan. -/
theorem not_agreesWithScan :
    ¬ ∀ (E : Env) (σ : Collection) (t : Byte) (query options : QJsonObject),
      Reachable E (fun _ op => ShortcutOp op) σ → (∀ f ∈ query, f.1 ≠ qs "_id") →
      Indexed (σ.getSnapshot E t).getIndexes query →
      AgreesWithScan E (σ.getSnapshot E t) query options := by
  intro h
  have hreach : Reachable (Env.plain .map) (fun _ op => ShortcutOp op) Collection.indexedN :=
    Reachable.opened.transact trivial
  obtain ⟨found, hfound, hresult, -⟩ := h _ _ 0 [(qs "n", .null)] [] hreach (by decide)
    (by decide) (fun _ _ => false) fun _ _ => false
  obtain rfl : found = (.errorDatabase, []) := (Option.some.inj hfound).symm
  exact absurd hresult (by decide +kernel)

/-! ## Against the visible documents -/

/-- The documents visible at a number, with their ids. -/
def visibleDocuments (db : Store) (s : Byte) : List (QJsonValue × QByteArray) :=
  (db.entries.map fun e => idOfLinkKey e.1).dedup.filterMap fun id =>
    (visible db s id).map fun o => (.object o, id)

theorem mem_visibleDocuments {db : Store} {s : Byte} {e : QJsonValue × QByteArray} :
    e ∈ visibleDocuments db s ↔ ∃ o, e.1 = .object o ∧ visible db s e.2 = some o := by
  obtain ⟨v, id⟩ := e
  constructor
  · intro h
    obtain ⟨id', -, heq⟩ := List.mem_filterMap.mp h
    obtain ⟨o, ho, hp⟩ := Option.map_eq_some_iff.mp heq
    obtain ⟨rfl, rfl⟩ := Prod.mk.inj hp
    exact ⟨o, rfl, ho⟩
  · rintro ⟨o, rfl, ho⟩
    refine List.mem_filterMap.mpr ⟨id, ?_, by simp [ho]⟩
    -- a visible document has a version
    have hversion : ∃ t ≤ s, db.find? (constructDocumentLinkKey id t) ≠ none := by
      by_contra hnone
      push Not at hnone
      rw [visible_eq_none_of_forall hnone] at ho
      cases ho
    obtain ⟨t, -, ht⟩ := hversion
    obtain ⟨b, hb⟩ := Option.ne_none_iff_exists'.mp ht
    rw [List.mem_dedup, List.mem_map]
    exact ⟨_, SortedMap.find?_eq_some_iff.mp hb, idOfLinkKey_linkKey id t⟩

/-- `find` returns the result of evaluating the query on the visible documents in some order,
and the documents and ids that satisfy it; each evaluation of the query finds contents of its
own in the unset flags. -/
def AgreesWithVisible (E : Env) (R : Reader) (query : QJsonObject) : Prop :=
  ∀ flags flags', ∃ found, find? (E.withFlags flags) R query [] = some found ∧
    ∃ docs, docs.Perm (visibleDocuments R.db R.snapshotId) ∧
      found.1 = (collectValid (E.withFlags flags') query docs).1 ∧
      found.2.Perm (collectValid (E.withFlags flags') query docs).2

/-- There is nothing to see. Each index consulted has an entry, and `multiply` stays in its
lists. No document that a link key is left of can satisfy the query. The query is false of all
these and of all visible documents, or there is one of either kind on which it cannot be
evaluated. -/
structure NothingVisible (E : Env) (R : Reader) (query : QJsonObject) : Prop where
  there : EntriesThere E R R.getIndexes query
  ends : IntersectionsEnd E R query none
  linked : Barren query (candidates E R query)
  visible : (∀ e ∈ candidates E R query, ¬ MayComeTo query e.1 none) ∧
      (∀ e ∈ visibleDocuments R.db R.snapshotId, ∀ r, MayComeTo query e.1 r → r = some false) ∨
    (∃ e ∈ candidates E R query, Breaks query e.1) ∧
      ∃ e ∈ visibleDocuments R.db R.snapshotId, Breaks query e.1

/-- A link key is no id of the visible document that is stored under it. -/
theorem notMem_visibleDocuments_of_mem_candidates {E E' : Env} {σ : Collection}
    {query : QJsonObject} {e : QJsonValue × QByteArray} (hgood : GoodStore Set.univ σ.db)
    (he : e ∈ (collectValid E' query (candidates E (σ.reader E) query)).2) :
    e ∉ visibleDocuments σ.db σ.snapshotId := by
  intro hdoc
  obtain ⟨hmem, o, ho⟩ := of_mem_collectValid he
  obtain ⟨k, -, rfl⟩ := List.mem_map.mp hmem
  have hk := @find?_of_getJsonValueByLinkKey E σ σ.snapshotId k o ho
  obtain ⟨o', ho', hvisible⟩ := mem_visibleDocuments.mp hdoc
  obtain rfl : o = o' := QJsonValue.object.inj (ho.symm.trans ho')
  obtain ⟨sid, t, hsid, hkey⟩ := (hgood _ _ hk).document o rfl
  obtain ⟨sid', hsid', hlatin⟩ := hgood.id_of_visible hvisible
  obtain rfl : sid = sid' := QJsonValue.string.inj (hsid.symm.trans hsid')
  have hlong := congrArg List.length (hlatin.trans hkey)
  simp [constructDocumentLinkKey] at hlong
  omega

/-- The loop over documents of which the query is false. -/
theorem collectValid_of_false {E : Env} {query : QJsonObject}
    {l : List (QJsonValue × QByteArray)}
    (h : ∀ e ∈ l, ∀ r, MayComeTo query e.1 r → r = some false)
    (flags : QJsonValue → List ℕ → Bool) :
    collectValid (E.withFlags flags) query l = (.success, []) := by
  have hgoes : ∀ e ∈ l, ¬ MayComeTo query e.1 none := fun e he hfails => by
    cases h e he none hfails
  have hbarren : Barren query l := fun e he htrue => by
    cases h e (List.takeWhile_subset _ he) _ htrue
  exact Prod.ext (forall_fst_eq_success_iff.mpr hgoes flags)
    (forall_snd_eq_nil_iff.mpr hbarren flags)

/-- **An `_id` against the visible documents**: for a query with an `_id`, `find` agrees with
the evaluation on the visible documents when there is nothing to see. -/
theorem agreesWithVisible_iff {E : Env} {σ : Collection} {query : QJsonObject}
    (h : Reachable E (fun _ op => ShortcutOp op) σ) (hid : ∃ f ∈ query, f.1 = qs "_id") :
    AgreesWithVisible E (σ.reader E) query ↔ NothingVisible E (σ.reader E) query := by
  have hgood := goodStore_of_shortcutOps h
  have hindexed : Indexed (σ.reader E).getIndexes query :=
    hid.imp fun f hf => ⟨hf.1, .inl hf.2⟩
  constructor
  · intro hagrees
    have hthere : EntriesThere E (σ.reader E) (σ.reader E).getIndexes query := by
      by_contra hnot
      obtain ⟨found, hfound, docs, -, hresult, -⟩ := hagrees E.uninitialized E.uninitialized
      rw [fst_of_find?_of_not_entriesThere hnot hfound, collectValid_spec] at hresult
      split at hresult <;> cases hresult
    have hends : IntersectionsEnd E (σ.reader E) query none := by
      obtain ⟨found, hfound, -⟩ := hagrees E.uninitialized E.uninitialized
      exact ((find?_withFlags_eq_some_iff hindexed hthere [] _).mp hfound).1
    have hpair : ∀ flags flags',
        (collectValid (E.withFlags flags) query (candidates E (σ.reader E) query)).2 = [] ∧
          ∃ docs, docs.Perm (visibleDocuments σ.db σ.snapshotId) ∧
            (collectValid (E.withFlags flags) query (candidates E (σ.reader E) query)).1 =
              (collectValid (E.withFlags flags') query docs).1 ∧
            (collectValid (E.withFlags flags') query docs).2 = [] := by
      intro flags flags'
      obtain ⟨found, hfound, docs, hdocs, hresult, hreply⟩ := hagrees flags flags'
      obtain ⟨-, rfl⟩ := (find?_withFlags_eq_some_iff hindexed hthere [] flags).mp hfound
      have hnone : (collectValid (E.withFlags flags) query
          (candidates E (σ.reader E) query)).2 = [] := by
        rw [List.eq_nil_iff_forall_not_mem]
        intro e he
        exact notMem_visibleDocuments_of_mem_candidates hgood he (hdocs.mem_iff.mp
          (of_mem_collectValid (hreply.mem_iff.mp he)).1)
      rw [hnone, List.nil_perm] at hreply
      exact ⟨hnone, docs, hdocs, hresult, hreply⟩
    refine ⟨hthere, hends,
      forall_snd_eq_nil_iff.mp fun flags => (hpair flags E.uninitialized).1, ?_⟩
    -- the order of the visible documents does not matter for the result
    have hresults : ∀ flags flags',
        (collectValid (E.withFlags flags) query (candidates E (σ.reader E) query)).1 =
          (collectValid (E.withFlags flags') query (visibleDocuments σ.db σ.snapshotId)).1 := by
      intro flags flags'
      obtain ⟨-, docs, hdocs, hresult, -⟩ := hpair flags flags'
      rw [hresult, collectValid_fst_eq_iff]
      exact hdocs.all_eq
    rcases forall_fst_eq_iff.mp hresults with hall | hbreaks
    · refine .inl ⟨fun e he => hall e (List.mem_append_left _ he), fun e he r hr => ?_⟩
      rcases r with _ | _ | _
      · exact absurd hr (hall e (List.mem_append_right _ he))
      · rfl
      · obtain ⟨flags', hselects, -⟩ := exists_flags_selects E hr
        obtain ⟨-, docs, hdocs, -, hnil⟩ := hpair E.uninitialized flags'
        have hgoes : docs.all (evaluable (E.withFlags flags') query) = true := by
          rw [hdocs.all_eq, ← collectValid_fst]
          exact forall_fst_eq_success_iff.mpr
            (fun e he => hall e (List.mem_append_right _ he)) flags'
        rw [collectValid_of_all hgoes] at hnil
        have hmem := List.mem_filter.mpr ⟨hdocs.mem_iff.mpr he, hselects⟩
        exact absurd hmem (List.eq_nil_iff_forall_not_mem.mp hnil e)
    · exact .inr hbreaks
  · rintro ⟨hthere, hends, hlinked, hvisible⟩ flags flags'
    refine ⟨_, (find?_withFlags_eq_some_iff hindexed hthere [] flags).mpr ⟨hends, rfl⟩, ?_⟩
    rw [forall_snd_eq_nil_iff.mpr hlinked flags]
    rcases hvisible with ⟨hgoes, hfalse⟩ | ⟨hlinks, e, he, hbreaks⟩
    · refine ⟨_, .refl _, ?_, ?_⟩ <;> rw [collectValid_of_false hfalse flags']
      exact forall_fst_eq_success_iff.mpr hgoes flags
    · -- a document that ends the loop may come first
      obtain ⟨l, r, hlr⟩ := List.append_of_mem he
      have hperm : (e :: (l ++ r)).Perm
          (visibleDocuments (σ.reader E).db (σ.reader E).snapshotId) :=
        hlr ▸ List.perm_middle.symm
      have hbad := hbreaks.not_evaluable (E := E) flags'
      refine ⟨_, hperm, forall_fst_eq_iff.mpr (.inr ⟨hlinks, e, List.mem_cons_self, hbreaks⟩) flags
        flags', ?_⟩
      rw [List.nil_perm, collectValid_snd_eq_nil, Fruitless,
        List.takeWhile_cons_of_neg (by simp [hbad])]
      exact List.forall_mem_nil _

theorem reachable_shortcut_storedN :
    Reachable (Env.plain .map) (fun _ op => ShortcutOp op) storedN :=
  (Reachable.opened.transact trivial).transact trivial

/-- An id that is not stored is not found, and not visible. -/
theorem agreesWithVisible_storedN :
    AgreesWithVisible (Env.plain .map) (storedN.reader (Env.plain .map))
      [(qs "_id", .string (qs "b"))] := by
  apply (agreesWithVisible_iff reachable_shortcut_storedN (by decide)).mpr
  refine ⟨?_, ⟨by simp, fun _ => trivial⟩, by decide +kernel, .inl (by decide +kernel)⟩
  intro f hf hne
  obtain rfl := List.mem_singleton.mp hf
  exact absurd rfl hne

/-- An operator gives no link key, so that nothing is found. -/
theorem not_agreesWithVisible :
    ¬ ∀ (E : Env) (σ : Collection) (query : QJsonObject),
      Reachable E (fun _ op => ShortcutOp op) σ → (∃ f ∈ query, f.1 = qs "_id") →
      AgreesWithVisible E (σ.reader E) query := by
  intro h
  obtain ⟨found, hfound, docs, hdocs, -, hreply⟩ :=
    h _ _ [(qs "_id", .object [(qs "$exists", .bool true)])] reachable_shortcut_storedN (by decide)
      (fun _ _ => false) fun _ _ => false
  obtain rfl : found = (.success, []) := (Option.some.inj hfound).symm
  have hvisible : visibleDocuments storedN.db 0 =
      [(.object (Collection.documentN .null), bytes "a")] := by decide +kernel
  obtain rfl := List.perm_singleton.mp (hvisible ▸ hdocs)
  exact absurd hreply.length_eq (by decide +kernel)

end Qdocdb
