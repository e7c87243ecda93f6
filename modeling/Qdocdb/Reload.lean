import Qdocdb.ObserverTables
import Qdocdb.Options
import Qdocdb.Shortcut

/-!
# Reloading the observers

After a snapshot was taken back or removed, `reloadObservers` asks every query again, without
the options that the observer was registered with. The reply is the one of `find` with the
options exactly when these have no effect: the query is answered from link keys, its evaluation
fails, or the matching documents are in order and as few as the limit. Nor may the unset flags
have one, which need not hold the same in both evaluations (`reloadAgrees_iff`).
-/

namespace Qdocdb

/-! ## Options without effect -/

section Idle

variable {α : Type*} {late : α → α → Bool}

/-- Sorting and cutting leave a list alone that is in order and not longer than the limit. -/
theorem cut_bubbleSort_eq_self_iff (hlate : ∀ x y, late x y = true → late y x = false)
    (limit : Option ℕ) (l : List α) :
    cut limit (bubbleSort late (l.length * l.length + 1) l) = l ↔
      Ordered late l ∧ ∀ n ∈ limit, l.length ≤ n := by
  have hperm := @perm_bubbleSort _ late (l.length * l.length + 1) l
  have hordered := ordered_bubbleSort hlate (Nat.lt_succ_of_le (@inversions_le _ late l))
  constructor
  · intro h
    have hfits : ∀ n ∈ limit, l.length ≤ n := by
      rintro n rfl
      rw [← h]
      exact List.length_take_le n _
    refine ⟨?_, hfits⟩
    have hcut : cut limit (bubbleSort late (l.length * l.length + 1) l) =
        bubbleSort late (l.length * l.length + 1) l := by
      cases limit with
      | none => rfl
      | some n => exact List.take_of_length_le (hperm.length_eq.trans_le (hfits n rfl))
    rw [← h, hcut]
    exact hordered
  · rintro ⟨hl, hfits⟩
    rw [bubbleSort_of_ordered _ hl]
    cases limit with
    | none => rfl
    | some n => exact List.take_of_length_le (hfits n rfl)

end Idle

section Idle

variable {options : QJsonObject}

/-- The options change nothing about a reply that is in order, and not too long. -/
theorem applyOptions_docs_eq_iff {l : List (QJsonValue × QByteArray)} :
    l.map Prod.fst = (applyOptions l options).map Prod.fst ↔
      Ordered (outOfOrderIn options (l.map Prod.fst)) (l.map Prod.fst) ∧
        ∀ n ∈ limitOf options, (l.map Prod.fst).length ≤ n := by
  have hsort := cut_bubbleSort_eq_self_iff (@outOfOrderIn_asymm options (l.map Prod.fst))
    (limitOf options) (l.map Prod.fst)
  rw [List.length_map] at hsort
  rw [map_applyOptions, eq_comm, hsort, List.length_map]

end Idle

/-- The visited documents that may satisfy the query. -/
def matchingVisited (R : Reader) (B : Backend) (query : QJsonObject) : List QJsonValue :=
  ((enumerate B R.db R.snapshotId).filter fun e =>
    decide (MayComeTo query e.1 (some true))).map Prod.fst

/-- `find` returns, and the options change nothing about the reply, and the unset flags neither.
`multiply` stays in its lists. The query is certain on each document that link keys are left of, or
on each visited one, up to one from which on nothing can be found; and link keys are used, or there
is a visited document on which the query cannot be evaluated, or the documents that match are in
order, and not too many. -/
structure OptionsIdle (E : Env) (R : Reader) (query options : QJsonObject) : Prop where
  ends : IntersectionsEnd E R query none
  linked : Indexed R.getIndexes query → EntriesThere E R R.getIndexes query →
    Steady query (candidates E R query)
  visited : ¬ Indexed R.getIndexes query → Steady query (enumerate E.backend R.db R.snapshotId)
  idle : ¬ Indexed R.getIndexes query →
    (∃ e ∈ enumerate E.backend R.db R.snapshotId, Breaks query e.1) ∨
      Ordered (outOfOrderIn options (matchingVisited R E.backend query))
          (matchingVisited R E.backend query) ∧
        ∀ n ∈ limitOf options, (matchingVisited R E.backend query).length ≤ n

section Find

variable {E : Env} {R : Reader} {query : QJsonObject}

/-- When link keys are used the options are not looked at. -/
theorem find_of_indexed_congr (hindexed : Indexed R.getIndexes query) (options : QJsonObject) :
    find E R query options = find E R query [] := by
  by_cases hthere : EntriesThere E R R.getIndexes query
  · rw [find_eq_collectValid hindexed hthere, find_eq_collectValid hindexed hthere]
  · rw [find_of_not_entriesThere options hthere, find_of_not_entriesThere [] hthere]

theorem find_eq_fullSearch (hindexed : ¬ Indexed R.getIndexes query) (options : QJsonObject) :
    find E R query options = fullSearch E R query options := by
  obtain ⟨linkKeys, hfind, hsome⟩ := findLinkKeys_of_entriesThere
    (entriesThere_of_not_indexed (E := E) hindexed) none
  have hnone : linkKeys = none := by
    rw [← Option.not_isSome_iff_eq_none, hsome]
    simp [hindexed]
  rw [find, hfind, hnone, findFrom]

/-- The documents of the full search: options are applied when the loop goes through. -/
theorem fullSearch_docs (options : QJsonObject) :
    (fullSearch E R query options).2 =
      if (enumerate E.backend R.db R.snapshotId).all (evaluable E query) then
        applyOptions (collectValid E query (enumerate E.backend R.db R.snapshotId)).2 options
      else (collectValid E query (enumerate E.backend R.db R.snapshotId)).2 := by
  rw [fullSearch, collectValid_spec]
  cases (enumerate E.backend R.db R.snapshotId).all (evaluable E query) <;> rfl

/-- Where the query is certain on what is found and breaks no loop, the loops select what may
satisfy it. -/
theorem Steady.selects_eq {l : List (QJsonValue × QByteArray)} (h : Steady query l)
    (hbreaks : ∀ e ∈ l, ¬ Breaks query e.1) (flags : QJsonValue → List ℕ → Bool) :
    l.filter (selects (E.withFlags flags) query) =
      l.filter fun e => decide (MayComeTo query e.1 (some true)) := by
  refine List.filter_congr fun e he => ?_
  by_cases htrue : MayComeTo query e.1 (some true)
  · rw [decide_eq_true htrue]
    rw [← List.takeWhile_append_dropWhile (p := fun e => decide (Certain query e.1)) (l := l)] at he
    rcases List.mem_append.mp he with hcertain | hrest
    · have hdecide := List.mem_takeWhile_imp hcertain
      obtain ⟨b, hb⟩ := of_decide_eq_true hdecide htrue.1
      have hcheck := (hb _ ⟨htrue.1, flags e.1, rfl⟩).trans (hb _ htrue).symm
      rw [selects, checkQuery_withFlags, htrue.1, hcheck]
      rfl
    · refine absurd htrue (h e ?_)
      have hall : ∀ e' ∈ l.dropWhile fun e => decide (Certain query e.1),
          decide (¬ Breaks query e'.1) = true := fun e' he' =>
        decide_eq_true (hbreaks e' ((List.dropWhile_sublist _).subset he'))
      rw [reached, List.takeWhile_eq_self_iff.mpr hall]
      exact hrest
  · rw [decide_eq_false htrue]
    exact Bool.eq_false_iff.mpr fun hselects => htrue (mayComeTo_of_selects hselects)

/-- The documents of the full search without options. -/
theorem fullSearch_docs_nil : (fullSearch E R query []).2 =
    (collectValid E query (enumerate E.backend R.db R.snapshotId)).2 := by
  rw [fullSearch_docs]
  exact ite_self _

/-- From the loop over the documents. -/
theorem forall_reply_eq_iff_of_not_indexed (hindexed : ¬ Indexed R.getIndexes query)
    (options : QJsonObject) :
    (∀ flags flags', (find (E.withFlags flags) R query []).2.map Prod.fst =
        (find (E.withFlags flags') R query options).2.map Prod.fst) ↔
      OptionsIdle E R query options := by
  have hvisited : ∀ flags, (fullSearch (E.withFlags flags) R query options).2 =
      if (enumerate E.backend R.db R.snapshotId).all (evaluable (E.withFlags flags) query) then
        applyOptions (collectValid (E.withFlags flags) query
          (enumerate E.backend R.db R.snapshotId)).2 options
      else (collectValid (E.withFlags flags) query (enumerate E.backend R.db R.snapshotId)).2 :=
    fun flags => fullSearch_docs options
  have hplain : ∀ flags, (fullSearch (E.withFlags flags) R query []).2 =
      (collectValid (E.withFlags flags) query (enumerate E.backend R.db R.snapshotId)).2 :=
    fun flags => fullSearch_docs_nil
  -- what a loop that goes through selects
  have hselected : ∀ flags, Steady query (enumerate E.backend R.db R.snapshotId) →
      (∀ e ∈ enumerate E.backend R.db R.snapshotId, ¬ Breaks query e.1) →
      (enumerate E.backend R.db R.snapshotId).all (evaluable (E.withFlags flags) query) = true →
      (collectValid (E.withFlags flags) query
        (enumerate E.backend R.db R.snapshotId)).2.map Prod.fst =
          matchingVisited R E.backend query := by
    intro flags hsteady hbreaks hall
    rw [collectValid_of_all hall, hsteady.selects_eq hbreaks, matchingVisited]
  simp only [find_eq_fullSearch hindexed, hvisited, hplain]
  constructor
  · intro h
    have hsteady : Steady query (enumerate E.backend R.db R.snapshotId) :=
      (forall_docs_eq_iff (E := E)).mp fun flags flags' =>
        (h flags flags').trans (h flags' flags').symm
    refine ⟨intersectionsEnd_of_not_indexed hindexed none, fun hyes => absurd hyes hindexed,
      fun _ => hsteady, fun _ => ?_⟩
    by_cases hbreaks : ∃ e ∈ enumerate E.backend R.db R.snapshotId, Breaks query e.1
    · exact .inl hbreaks
    · push Not at hbreaks
      obtain ⟨flags, hflags⟩ := exists_flags E query
      have hall : (enumerate E.backend R.db R.snapshotId).all
          (evaluable (E.withFlags flags) query) = true :=
        List.all_eq_true.mpr fun e he => hflags e (hbreaks e he)
      have hidle := h flags flags
      rw [if_pos hall, applyOptions_docs_eq_iff, hselected flags hsteady hbreaks hall] at hidle
      exact .inr hidle
  · rintro ⟨-, -, hsteady, hidle⟩ flags flags'
    have hsame := (forall_docs_eq_iff (E := E)).mpr (hsteady hindexed) flags flags'
    rw [hsame]
    split
    · rename_i hall
      rw [applyOptions_docs_eq_iff]
      have hnone : ∀ e ∈ enumerate E.backend R.db R.snapshotId, ¬ Breaks query e.1 := fun e he =>
        not_breaks_of_evaluable (List.all_eq_true.mp hall e he)
      rw [hselected flags' (hsteady hindexed) hnone hall]
      rcases hidle hindexed with ⟨e, he, hbreaks⟩ | hidle
      · exact absurd hbreaks (hnone e he)
      · exact hidle
    · rfl

/-- `find` without the options replies as with them, whatever the flags hold in both, when
neither the options nor the flags have an effect. -/
theorem forall_reply_eq_iff (hends : IntersectionsEnd E R query none) (options : QJsonObject) :
    (∀ flags flags', (find (E.withFlags flags) R query []).2.map Prod.fst =
        (find (E.withFlags flags') R query options).2.map Prod.fst) ↔
      OptionsIdle E R query options := by
  by_cases hindexed : Indexed R.getIndexes query
  · simp only [find_of_indexed_congr hindexed options]
    by_cases hthere : EntriesThere E R R.getIndexes query
    · have hfind : ∀ flags, find (E.withFlags flags) R query [] =
          collectValid (E.withFlags flags) query (candidates E R query) := fun flags =>
        find_eq_collectValid (E := E.withFlags flags) hindexed hthere []
      simp only [hfind, forall_docs_eq_iff]
      exact ⟨fun h => ⟨hends, fun _ _ => h, fun hnot => absurd hindexed hnot,
        fun hnot => absurd hindexed hnot⟩, fun h => h.linked hindexed hthere⟩
    · have hfind : ∀ flags, find (E.withFlags flags) R query [] = (.errorDatabase, []) :=
        fun flags => find_of_not_entriesThere (E := E.withFlags flags) [] hthere
      simp only [hfind, implies_true]
      exact iff_of_true trivial ⟨hends, fun _ hyes => absurd hyes hthere,
        fun hnot => absurd hindexed hnot, fun hnot => absurd hindexed hnot⟩
  · exact forall_reply_eq_iff_of_not_indexed hindexed options

/-- **find returns and replies** with the options as the reload without them. -/
theorem forall_exists_find?_iff (options : QJsonObject) :
    (∀ flags flags', ∃ found, find? (E.withFlags flags') R query options = some found ∧
        (find (E.withFlags flags) R query []).2.map Prod.fst = found.2.map Prod.fst) ↔
      OptionsIdle E R query options := by
  have hfind? : ∀ flags' found, find? (E.withFlags flags') R query options = some found ↔
      IntersectionsEnd E R query none ∧ find (E.withFlags flags') R query options = found := by
    intro flags' found
    rw [find?_eq_some_iff, intersectionsEnd_withFlags]
  constructor
  · intro h
    obtain ⟨found, hfound, -⟩ := h E.uninitialized E.uninitialized
    refine (forall_reply_eq_iff ((hfind? _ _).mp hfound).1 options).mp fun flags flags' => ?_
    obtain ⟨found, hfound, hreply⟩ := h flags flags'
    obtain ⟨-, rfl⟩ := (hfind? flags' found).mp hfound
    exact hreply
  · intro hidle flags flags'
    exact ⟨_, (hfind? flags' _).mpr ⟨hidle.ends, rfl⟩,
      (forall_reply_eq_iff hidle.ends options).mpr hidle flags flags'⟩

end Find

/-! ## The reload -/

section Reload

variable {E : Env} {σ σ' : Collection}

/-- What the observers ask for, by their ids. -/
def Observers.asked (observers : Observers) (k : ℤ) : Option (QJsonObject × QJsonObject) :=
  (observers.lookup k).map fun ob => (ob.query, ob.queryOptions)

theorem lookup_reloadObservers (id : ℤ) :
    (σ.reloadObservers E).observers.lookup id = (σ.observers.lookup id).map fun o =>
      ⟨o.query, o.queryOptions, (find E (σ.reader E) o.query []).2.map Prod.fst, false⟩ := by
  rw [Collection.reloadObservers, Collection.emitObservers, Observers.lookup_update,
    Observers.lookup_update, Option.map_map]
  rfl

theorem reader_reloadObservers (E E' : Env) (σ : Collection) :
    (σ.reloadObservers E').reader E = σ.reader E := rfl

/-- A commit keeps what the observers ask for. -/
theorem asked_writeTransaction {tx : Transaction}
    (h : σ.writeTransaction E tx = (.success, σ')) (hobservers : tx.observers = σ.observers)
    (id : ℤ) :
    σ'.observers.asked id = σ.observers.asked id := by
  have hlookup := @Collection.lookup_writeTransaction E σ tx id (by rw [h])
  rw [h, hobservers] at hlookup
  dsimp only at hlookup
  rw [Observers.asked, Observers.asked, hlookup]
  cases hob : σ.observers.lookup id with
  | none =>
    rw [if_neg (AList.lookup_eq_none.mp hob)]
    rfl
  | some o =>
    rw [if_pos (AList.lookup_isSome.mp (by rw [hob]; rfl)), Option.getD_some, Option.map_some,
      Option.map_some, Option.map_some, Collection.copyReply]
    split <;> rfl

/-- The operations that end with a reload. -/
def ReloadOp (op : Op) : Prop := ∃ n, op = .revertToSnapshot n ∨ op = .removeSnapshot n

theorem getSnapshotId_ne_success {n : QString} {r : ResultEnum}
    (h : σ.getSnapshotId E n = .error r) : r ≠ .success := by
  rw [Collection.getSnapshotId] at h
  split at h
  · split at h
    · cases h
    · rintro rfl
      cases h
  · rintro rfl
    cases h

/-- What is stored before the observers are reloaded does not depend on unset flags. -/
def ReloadsBehind (E : Env) (op : Op) (σ σ₁ : Collection) : Prop :=
  (∀ flags, op.apply (E.withFlags flags) σ =
      some (.success, σ₁.reloadObservers (E.withFlags flags))) ∧
    ∀ id, σ₁.observers.asked id = σ.observers.asked id

theorem reloadsBehind_revertToSnapshot {n : QString}
    (h : σ.revertToSnapshot E n = (.success, σ')) :
    ∃ σ₁, ReloadsBehind E (.revertToSnapshot n) σ σ₁ := by
  rw [Collection.revertToSnapshot] at h
  split at h
  · rename_i r hid
    exact absurd (Prod.mk.inj h).1 (getSnapshotId_ne_success hid)
  · rename_i snapshotId hid
    split at h
    · cases h
    · rename_i snapshots hsnapshots
      dsimp only at h
      split at h
      · rename_i σ'' hwrite
        have hasked := asked_writeTransaction hwrite rfl
        refine ⟨{ σ'' with snapshotId := snapshotId }, fun flags => ?_, hasked⟩
        have hid' : σ.getSnapshotId (E.withFlags flags) n = .ok snapshotId := hid
        have hsnapshots' : σ.getSnapshotsValue (E.withFlags flags) = .ok snapshots := hsnapshots
        rw [Op.apply, Collection.revertToSnapshot, hid', hsnapshots']
        dsimp only
        split
        · rename_i hwrite'
          obtain rfl := (Prod.mk.inj (hwrite.symm.trans hwrite')).2
          rfl
        · rename_i hfailed hwrite'
          exact absurd (Prod.mk.inj (hwrite.symm.trans hwrite')).1.symm hfailed
      · rename_i hfailed hwrite
        obtain ⟨rfl, rfl⟩ := Prod.mk.inj h
        exact (hfailed rfl).elim

theorem reloadsBehind_removeSnapshot {n : QString}
    (h : σ.removeSnapshot E n = some (.success, σ')) :
    ∃ σ₁, ReloadsBehind E (.removeSnapshot n) σ σ₁ := by
  rw [Collection.removeSnapshot] at h
  split at h
  · rename_i r hid
    exact absurd (Prod.mk.inj (Option.some.inj h)).1 (getSnapshotId_ne_success hid)
  · rename_i snapshotId hid
    split at h
    · cases h
    · rename_i snapshots hsnapshots
      obtain ⟨sIds, hsIds, h⟩ := Option.map_eq_some_iff.mp h
      dsimp only at h
      split at h
      · rename_i σ'' hwrite
        have hasked := asked_writeTransaction hwrite rfl
        refine ⟨{ σ'' with snapshotId := σ''.snapshotId - 1 }, fun flags => ?_, hasked⟩
        have hid' : σ.getSnapshotId (E.withFlags flags) n = .ok snapshotId := hid
        have hsnapshots' : σ.getSnapshotsValue (E.withFlags flags) = .ok snapshots := hsnapshots
        rw [Op.apply, Collection.removeSnapshot, hid', hsnapshots']
        refine Option.map_eq_some_iff.mpr ⟨sIds, hsIds, ?_⟩
        dsimp only
        split
        · rename_i hwrite'
          obtain rfl := (Prod.mk.inj (hwrite.symm.trans hwrite')).2
          rfl
        · rename_i hfailed hwrite'
          exact absurd (Prod.mk.inj (hwrite.symm.trans hwrite')).1.symm hfailed
      · rename_i hfailed hwrite
        obtain ⟨rfl, rfl⟩ := Prod.mk.inj h
        exact (hfailed rfl).elim

/-- **Reverting and removing** a snapshot reload the observers when they succeed. -/
theorem exists_reloadsBehind {op : Op} (hop : ReloadOp op)
    (h : op.apply E σ = some (.success, σ')) : ∃ σ₁, ReloadsBehind E op σ σ₁ := by
  obtain ⟨n, rfl | rfl⟩ := hop
  · exact reloadsBehind_revertToSnapshot (Option.some.inj h)
  · exact reloadsBehind_removeSnapshot h

/-- After the operation `find` returns for every observer's query and options, and the reply is
what it returns; the evaluations for the reload and those for `find` find contents of their own in the
unset flags. -/
def ReloadAgrees (E : Env) (op : Op) (σ : Collection) : Prop :=
  ∀ flags flags' σ', op.apply (E.withFlags flags) σ = some (.success, σ') →
    ∀ id o, σ'.observers.lookup id = some o → ∃ found,
      find? (E.withFlags flags') (σ'.reader E) o.query o.queryOptions = some found ∧
        o.reply = found.2.map Prod.fst

/-- **Reload**: after a snapshot operation that succeeds, the replies are those of `find` with
the options of the observers, exactly when it returns and neither these nor the unset flags have
an effect on the new content. -/
theorem reloadAgrees_iff {op : Op} (hop : ReloadOp op) (h : op.apply E σ = some (.success, σ')) :
    ReloadAgrees E op σ ↔ ∀ id o, σ.observers.lookup id = some o →
      OptionsIdle E (σ'.reader E) o.query o.queryOptions := by
  obtain ⟨σ₁, hσ₁, hasked⟩ := exists_reloadsBehind hop h
  have hreader : σ₁.reader E = σ'.reader E := by
    have hE : op.apply E σ = some (.success, σ₁.reloadObservers E) := hσ₁ E.uninitialized
    obtain rfl := (Prod.mk.inj (Option.some.inj (h.symm.trans hE))).2
    rw [reader_reloadObservers]
  have hlookup : ∀ flags id, (σ₁.reloadObservers (E.withFlags flags)).observers.lookup id =
      (σ.observers.asked id).map fun a => ⟨a.1, a.2,
        (find (E.withFlags flags) (σ'.reader E) a.1 []).2.map Prod.fst, false⟩ := by
    intro flags id
    rw [lookup_reloadObservers, ← hasked, Observers.asked, Option.map_map, ← hreader]
    rfl
  constructor
  · intro hagrees id o ho
    refine (forall_exists_find?_iff _).mp fun flags flags' => ?_
    have hob := hlookup flags id
    rw [Observers.asked, ho, Option.map_some, Option.map_some] at hob
    have hreply := hagrees flags flags' _ (hσ₁ flags) id _ hob
    rwa [reader_reloadObservers, hreader] at hreply
  · intro hidle flags flags' σ₂ hσ₂ id o' ho'
    obtain rfl := (Prod.mk.inj (Option.some.inj ((hσ₁ flags).symm.trans hσ₂))).2
    rw [hlookup, Observers.asked, Option.map_map] at ho'
    obtain ⟨o, ho, rfl⟩ := Option.map_eq_some_iff.mp ho'
    rw [reader_reloadObservers, hreader]
    exact (forall_exists_find?_iff _).mpr (hidle id o ho) flags flags'

/-- A collection with the documents `a` and `b`, a snapshot `A`, and an observer with a limit. -/
def observedA (limit : Double) : Collection :=
  let E := Env.plain .map
  let inserted := (((Collection.open E .empty).transact E (.insertField "a" "n" .null)).2.transact
    E (.insertField "b" "n" .null)).2
  ((inserted.newSnapshot E (qs "A")).2.observe E [] [(qs "$limit", .double limit)] 1 1).2.2

theorem apply_observedA (limit : Double) :
    (Op.revertToSnapshot (qs "A")).apply (Env.plain .map) (observedA limit) =
      some ((observedA limit).revertToSnapshot (Env.plain .map) (qs "A")) := rfl

/-- What `find` reads after the snapshot was taken back. -/
def revertedA : Reader :=
  ((observedA two).revertToSnapshot (Env.plain .map) (qs "A")).2.reader (Env.plain .map)

theorem optionsIdle_observedA : ∀ e ∈ (observedA two).observers.entries,
    OptionsIdle (Env.plain .map) revertedA e.2.query e.2.queryOptions := by
  have hidle : ∀ e ∈ (observedA two).observers.entries,
      ¬ Indexed revertedA.getIndexes e.2.query ∧
      Steady e.2.query (enumerate .map revertedA.db revertedA.snapshotId) ∧
      Ordered (outOfOrderIn e.2.queryOptions (matchingVisited revertedA .map e.2.query))
        (matchingVisited revertedA .map e.2.query) ∧
      ∀ n ∈ limitOf e.2.queryOptions, (matchingVisited revertedA .map e.2.query).length ≤ n := by
    decide +kernel
  intro e he
  obtain ⟨hsearched, hsteady, hidle⟩ := hidle e he
  exact ⟨intersectionsEnd_of_not_indexed hsearched none, fun hyes => absurd hyes hsearched,
    fun _ => hsteady, fun _ => .inr hidle⟩

/-- A limit of two documents does not matter. -/
theorem reloadAgrees_observedA :
    ReloadAgrees (Env.plain .map) (.revertToSnapshot (qs "A")) (observedA two) := by
  have hsuccess : ((observedA two).revertToSnapshot (Env.plain .map) (qs "A")).1 = .success := by
    decide +kernel
  refine (reloadAgrees_iff (σ := observedA two) ⟨qs "A", .inl rfl⟩
    ((apply_observedA two).trans (congrArg some (Prod.ext hsuccess rfl)))).mpr ?_
  exact fun id o ho => optionsIdle_observedA ⟨id, o⟩ (AList.mem_lookup_iff.mp ho)

/-- A limit of one document is forgotten. -/
theorem not_reloadAgrees :
    ¬ ∀ (E : Env) (op : Op) (σ σ' : Collection), ReloadOp op →
      op.apply E σ = some (.success, σ') → ReloadAgrees E op σ := by
  intro h
  have hsuccess : ((observedA one).revertToSnapshot (Env.plain .map) (qs "A")).1 = .success := by
    decide +kernel
  have happly := (apply_observedA one).trans (congrArg some (Prod.ext hsuccess rfl))
  have hagrees := h (Env.plain .map) _ (observedA one) _ ⟨qs "A", .inl rfl⟩ happly
    (fun _ _ => false) (fun _ _ => false) _ happly
  have hdiffers : ¬ ∀ e ∈ ((observedA one).revertToSnapshot (Env.plain .map)
      (qs "A")).2.observers.entries, e.2.reply = (find (Env.plain .map)
        (((observedA one).revertToSnapshot (Env.plain .map) (qs "A")).2.reader (Env.plain .map))
        e.2.query e.2.queryOptions).2.map Prod.fst := by decide +kernel
  refine hdiffers fun e he => ?_
  obtain ⟨found, hfound, hreply⟩ := hagrees e.1 e.2 (AList.mem_lookup_iff.mpr he)
  rw [hreply, ← find_of_find? hfound]
  rfl

end Reload

end Qdocdb
