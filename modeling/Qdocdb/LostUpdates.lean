import Mathlib.Data.Set.BooleanAlgebra
import Mathlib.Order.CompletePartialOrder
import Qdocdb.Lib.RelatedLogs
import Qdocdb.Invariants
import Qdocdb.Operations

/-!
# Two transactions on one store

Two transactions are open, insert and remove documents and are committed, in any order.
The one that is committed last has read the store from before the first commit and from
behind it. When that commit changed no list of links that the open transaction had read to
change it, and nothing that its lookups had found, the store is in the end what the two
transactions leave one after the other (`serialized_of_run`).
-/

namespace Qdocdb

/-! ## The same content -/

/-- Stored values that are equal, or lists of the same links. -/
inductive Blob.Alike : Blob → Blob → Prop
  | refl (b : Blob) : Alike b b
  | indexValue {l l' : List QByteArray} (h : ∀ x, x ∈ l ↔ x ∈ l') :
    Alike (.indexValue l) (.indexValue l')

namespace Blob.Alike

variable {b b' : Blob}

theorem unmarshalIndexes_eq (h : b.Alike b') : b.unmarshalIndexes = b'.unmarshalIndexes := by
  cases h <;> rfl

theorem mem_unmarshalIndexValue_iff (h : b.Alike b') (x : QByteArray) :
    x ∈ b.unmarshalIndexValue ↔ x ∈ b'.unmarshalIndexValue := by
  cases h with
  | refl b => rfl
  | indexValue h => exact h x

end Blob.Alike

/-- The key holds nothing on both sides, or values that are alike. -/
def AlikeAt (db db' : Store) (k : QByteArray) : Prop :=
  Option.Rel Blob.Alike (db.find? k) (db'.find? k)

/-- The same keys with the same values, lists of links being taken as sets. -/
def SameContent (db db' : Store) : Prop := ∀ k, AlikeAt db db' k

theorem AlikeAt.of_eq {db db' : Store} {k : QByteArray} (h : db'.find? k = db.find? k) :
    AlikeAt db db' k := by
  rw [AlikeAt, h]
  exact rel_refl Blob.Alike.refl _

theorem AlikeAt.refl (db : Store) (k : QByteArray) : AlikeAt db db k := .of_eq rfl

/-- A link in one of two lists only. -/
theorem not_alikeAt {db db' : Store} {k : QByteArray} {l l' : List QByteArray} {x : QByteArray}
    (h : db.find? k = some (.indexValue l)) (h' : db'.find? k = some (.indexValue l'))
    (hx : x ∉ l) (hx' : x ∈ l') : ¬ AlikeAt db db' k := by
  intro halike
  rw [AlikeAt, h, h'] at halike
  cases halike with
  | some halike => exact hx ((halike.mem_unmarshalIndexValue_iff x).mpr hx')

/-- Logs that write the same, lists of links being taken as sets. -/
abbrev AlikeLogs : List (WriteOp QByteArray Blob) → List (WriteOp QByteArray Blob) → Prop :=
  LogRel Blob.Alike

/-- **Commits of logs that are alike**, on one base: both go through or none, and they leave
the same content. -/
theorem commit_alike {B : Backend} {db : Store} {ws ws' : List (WriteOp QByteArray Blob)}
    (h : AlikeLogs ws ws') (hs : (commit B db ws).1 = .success) :
    (commit B db ws').1 = .success ∧ SameContent (commit B db ws).2 (commit B db ws').2 := by
  have hs' : (commit B db ws').1 = .success := by
    rw [commit_success_iff] at hs ⊢
    intro hB k hk
    refine hs hB k ?_
    have hlast := h.lastWrite k
    rw [hk] at hlast
    cases hw : lastWrite ws k with
    | none => simp [hw] at hlast
    | some o =>
      rw [hw, Option.rel_some_some] at hlast
      rw [(eq_none_iff_of_rel hlast).mpr rfl]
  refine ⟨hs', fun k => ?_⟩
  rw [AlikeAt]
  cases B with
  | levelDB =>
    rw [commit_levelDB, commit_levelDB]
    exact h.find?_applyLog (AlikeAt.refl db k)
  | map =>
    rw [find?_commit_map hs, find?_commit_map hs']
    exact rel_or (h.lastPut k) (rel_getD (h.lastWrite k) (AlikeAt.refl db k))

/-! ## Transactions that wrote the same -/

namespace Transaction

variable {E : Env} {db db' : Store} {tx tx' : Transaction}

/-- Two transactions whose calls are alike; observers and error text aside. -/
structure Alike (E : Env) (tx tx' : Transaction) : Prop where
  content : ∃ ws ws', tx.kvdb = KVTransaction.new.writes E.backend ws ∧
    tx'.kvdb = KVTransaction.new.writes E.backend ws' ∧ AlikeLogs ws ws'
  snapshotId : tx.snapshotId = tx'.snapshotId

theorem Alike.of_new {σ σ' : Collection} (h : σ.snapshotId = σ'.snapshotId) :
    Alike E σ.newTransaction σ'.newTransaction :=
  ⟨⟨[], [], rfl, rfl, .nil⟩, h⟩

theorem Alike.congr {tx₁ tx₁' : Transaction} (h : Alike E tx tx') (hk : tx₁.kvdb = tx.kvdb)
    (hs : tx₁.snapshotId = tx.snapshotId) (hk' : tx₁'.kvdb = tx'.kvdb)
    (hs' : tx₁'.snapshotId = tx'.snapshotId) : Alike E tx₁ tx₁' := by
  obtain ⟨ws, ws', h₁, h₂, hws⟩ := h.content
  exact ⟨⟨ws, ws', hk.trans h₁, hk'.trans h₂, hws⟩, hs.trans (h.snapshotId.trans hs'.symm)⟩

theorem Alike.writes (h : Alike E tx tx') {ws ws' : List (WriteOp QByteArray Blob)}
    (hws : AlikeLogs ws ws') : Alike E (tx.writes E ws) (tx'.writes E ws') := by
  obtain ⟨ws₀, ws₀', h₁, h₂, hws₀⟩ := h.content
  refine ⟨⟨ws₀ ++ ws, ws₀' ++ ws', ?_, ?_, hws₀.append hws⟩, h.snapshotId⟩
  · rw [KVTransaction.writes_append, ← h₁]
    rfl
  · rw [KVTransaction.writes_append, ← h₂]
    rfl

/-- Point reads under a key that is alike in the bases are alike. -/
theorem Alike.getValue (h : Alike E tx tx') {k : QByteArray} (hk : AlikeAt db db' k) :
    Option.Rel Blob.Alike ((tx.reader E db).getValue k).toOption
      ((tx'.reader E db').getValue k).toOption := by
  obtain ⟨ws, ws', h₁, h₂, hws⟩ := h.content
  rw [reader, reader, h₁, h₂]
  dsimp only
  rw [KVTransaction.getValue_writes, KVTransaction.getValue_writes]
  exact hws.find?_applyLog hk

theorem Alike.getIndexes (h : Alike E tx tx') (hk : AlikeAt db db' indexesKey) :
    (tx.reader E db).getIndexes = (tx'.reader E db').getIndexes := by
  have hget := h.getValue hk
  rw [Reader.getIndexes, Reader.getIndexes]
  cases hv : (tx.reader E db).getValue indexesKey with
  | error e =>
    cases hv' : (tx'.reader E db').getValue indexesKey with
    | error e' => rfl
    | ok b' => simp [hv, hv', Except.toOption] at hget
  | ok b =>
    cases hv' : (tx'.reader E db').getValue indexesKey with
    | error e' => simp [hv, hv', Except.toOption] at hget
    | ok b' =>
      rw [hv, hv'] at hget
      exact (Option.rel_some_some.mp hget).unmarshalIndexes_eq

theorem Alike.indexValueKey (h : Alike E tx tx') (n : QString) (v : QJsonValue) :
    tx.indexValueKey E n v = tx'.indexValueKey E n v := by
  rw [Transaction.indexValueKey, Transaction.indexValueKey, h.snapshotId]

/-- Lists under a key that is alike hold the same links. -/
theorem Alike.linked_iff (h : Alike E tx tx') {k : QByteArray} (hk : AlikeAt db db' k)
    (l : QByteArray) : (tx.links E db).Linked k l ↔ (tx'.links E db').Linked k l := by
  rw [← LinkTable.mem_getD_iff, ← LinkTable.mem_getD_iff, links, links]
  split
  · have hget := h.getValue hk
    generalize ((tx.reader E db).getValue k).toOption = a at hget
    generalize ((tx'.reader E db').getValue k).toOption = b at hget
    cases hget with
    | none => rfl
    | some hb => exact hb.mem_unmarshalIndexValue_iff l
  · rfl

/-! ## Index entries -/

/-- What adding a link finds under its key is not disturbed by a change of the base from `db`
to `db'`: the list is the same, or the link is in it before and after. -/
def AddUndisturbed (E : Env) (db db' : Store) (tx : Transaction) (p : QByteArray × QByteArray) :
    Prop :=
  AlikeAt db db' p.1 ∨ (tx.links E db).Linked p.1 p.2 ∧ (tx.links E db').Linked p.1 p.2

theorem addIndexValue_of_linked {n : QString} {v : QJsonValue} {id : QByteArray}
    (h : (tx.links E db).Linked (tx.indexValueKey E n v)
      (constructDocumentLinkKey id tx.snapshotId)) : tx.addIndexValue E db n v id = tx := by
  rw [addIndexValue_eq, if_pos (LinkTable.mem_getD_iff.mpr h)]

theorem addIndexValue_of_not_linked {n : QString} {v : QJsonValue} {id : QByteArray}
    (h : ¬ (tx.links E db).Linked (tx.indexValueKey E n v)
      (constructDocumentLinkKey id tx.snapshotId)) :
    tx.addIndexValue E db n v id =
      tx.writes E [.put (tx.indexValueKey E n v) (.indexValue
        ((tx.links E db (tx.indexValueKey E n v)).getD [] ++
          [constructDocumentLinkKey id tx.snapshotId]))] := by
  rw [addIndexValue_eq, if_neg (mt LinkTable.mem_getD_iff.mp h)]

theorem addIndexValue_alike (h : Alike E tx tx') (n : QString) (v : QJsonValue) (id : QByteArray)
    (hu : AddUndisturbed E db db' tx
      (tx.indexValueKey E n v, constructDocumentLinkKey id tx.snapshotId)) :
    Alike E (tx.addIndexValue E db n v id) (tx'.addIndexValue E db' n v id) := by
  rcases hu with hk | ⟨hl, hl'⟩
  · have hiff := h.linked_iff hk (constructDocumentLinkKey id tx.snapshotId)
    by_cases hl : (tx.links E db).Linked (tx.indexValueKey E n v)
        (constructDocumentLinkKey id tx.snapshotId)
    · have hl' := hiff.mp hl
      rw [h.indexValueKey, h.snapshotId] at hl'
      rw [addIndexValue_of_linked hl, addIndexValue_of_linked hl']
      exact h
    · have hl' := mt hiff.mpr hl
      rw [h.indexValueKey, h.snapshotId] at hl'
      rw [addIndexValue_of_not_linked hl, addIndexValue_of_not_linked hl', ← h.indexValueKey,
        ← h.snapshotId]
      refine h.writes (.cons (.put _ (.indexValue fun x => ?_)) .nil)
      rw [List.mem_append, List.mem_append, LinkTable.mem_getD_iff, LinkTable.mem_getD_iff,
        h.linked_iff hk]
  · have hl'' := (h.linked_iff (AlikeAt.refl db' _) _).mp hl'
    dsimp only at hl hl''
    rw [h.indexValueKey, h.snapshotId] at hl''
    rw [addIndexValue_of_linked hl, addIndexValue_of_linked hl'']
    exact h

/-- Adding a link disturbs nothing that other additions find. -/
theorem AddUndisturbed.addIndexValue {p : QByteArray × QByteArray}
    (h : AddUndisturbed E db db' tx p) (n : QString) (v : QJsonValue) (id : QByteArray) :
    AddUndisturbed E db db' (tx.addIndexValue E db n v id) p := by
  refine h.imp_right fun ⟨hl, hl'⟩ => ⟨?_, ?_⟩
  · rw [addIndexValue_links]
    exact LinkTable.linked_add.mpr (.inl hl)
  · rw [addIndexValue_eq]
    split
    · exact hl'
    · rw [links_writes_singleton (w := .put (tx.indexValueKey E n v) _)
        (indexPrefix_prefix_indexValueKey n v), LinkTable.Linked, Function.update_apply]
      split
      · rename_i hp
        rw [hp] at hl
        exact ⟨_, rfl, List.mem_append_left _ (LinkTable.mem_getD_iff.mpr hl)⟩
      · exact hl'

theorem addIndexValues_alike (h : Alike E tx tx') (doc : QJsonObject) (id : QByteArray)
    (indexes : List (QString × QString))
    (hu : ∀ p ∈ addedLinks E tx.snapshotId indexes doc id, AddUndisturbed E db db' tx p) :
    Alike E (addIndexValues E db doc id indexes tx) (addIndexValues E db' doc id indexes tx') := by
  induction indexes generalizing tx tx' with
  | nil => exact h
  | cons index indexes ih =>
    rw [addIndexValues, addIndexValues]
    refine ih (addIndexValue_alike h _ _ _ (hu _ List.mem_cons_self)) fun p hp => ?_
    rw [addIndexValue_snapshotId] at hp
    exact (hu p (List.mem_cons_of_mem _ hp)).addIndexValue _ _ _

theorem removeIndexValue_alike (h : Alike E tx tx') (n : QString) (v : QJsonValue)
    (linkKey : QByteArray) (hk : AlikeAt db db' (tx.indexValueKey E n v)) :
    (tx.removeIndexValue E db n v linkKey).1 = (tx'.removeIndexValue E db' n v linkKey).1 ∧
      Alike E (tx.removeIndexValue E db n v linkKey).2
        (tx'.removeIndexValue E db' n v linkKey).2 := by
  have hget := h.getValue hk
  rw [removeIndexValue, removeIndexValue, ← h.indexValueKey]
  dsimp only
  cases hv : (tx.reader E db).getValue (tx.indexValueKey E n v) with
  | error e =>
    cases hv' : (tx'.reader E db').getValue (tx.indexValueKey E n v) with
    | error e' => exact ⟨rfl, h.congr rfl rfl rfl rfl⟩
    | ok b' => simp [hv, hv', Except.toOption] at hget
  | ok b =>
    cases hv' : (tx'.reader E db').getValue (tx.indexValueKey E n v) with
    | error e' => simp [hv, hv', Except.toOption] at hget
    | ok b' =>
      rw [hv, hv'] at hget
      have hmem := (Option.rel_some_some.mp hget).mem_unmarshalIndexValue_iff
      have hfilter : ∀ x, x ∈ b.unmarshalIndexValue.filter (· ≠ linkKey) ↔
          x ∈ b'.unmarshalIndexValue.filter (· ≠ linkKey) := fun x => by
        rw [List.mem_filter, List.mem_filter, hmem]
      have hnil : b.unmarshalIndexValue.filter (· ≠ linkKey) = [] ↔
          b'.unmarshalIndexValue.filter (· ≠ linkKey) = [] := by
        rw [List.eq_nil_iff_forall_not_mem, List.eq_nil_iff_forall_not_mem]
        exact forall_congr' fun x => not_congr (hfilter x)
      simp only [List.contains_iff_mem, hmem]
      by_cases hl : linkKey ∈ b'.unmarshalIndexValue
      · rw [if_pos hl, if_pos hl]
        refine ⟨rfl, h.writes (.cons ?_ .nil)⟩
        by_cases hn : b'.unmarshalIndexValue.filter (· ≠ linkKey) = []
        · rw [if_pos (hnil.mpr hn), if_pos hn]
          exact .delete _
        · rw [if_neg (mt hnil.mp hn), if_neg hn]
          exact .put _ (.indexValue hfilter)
      · rw [if_neg hl, if_neg hl]
        exact ⟨rfl, h⟩

theorem removeIndexValues_alike (h : Alike E tx tx') (n : QString) (linkKey : QByteArray)
    (values : List QJsonValue)
    (hu : ∀ v ∈ values, AlikeAt db db' (tx.indexValueKey E n v)) :
    (removeIndexValues E db n linkKey values tx).1 =
        (removeIndexValues E db' n linkKey values tx').1 ∧
      Alike E (removeIndexValues E db n linkKey values tx).2
        (removeIndexValues E db' n linkKey values tx').2 := by
  induction values generalizing tx tx' with
  | nil => exact ⟨rfl, h⟩
  | cons v values ih =>
    obtain ⟨hr, hfirst⟩ := removeIndexValue_alike h n v linkKey (hu v List.mem_cons_self)
    have hs := (@extends_removeIndexValue E db tx n v linkKey).snapshotId
    rw [removeIndexValues, removeIndexValues]
    generalize tx.removeIndexValue E db n v linkKey = result at hr hfirst hs ⊢
    generalize tx'.removeIndexValue E db' n v linkKey = result' at hr hfirst ⊢
    obtain ⟨r, tx₁⟩ := result
    obtain ⟨r', tx₁'⟩ := result'
    obtain rfl : r = r' := hr
    cases r with
    | success =>
      refine ih hfirst fun v hv => ?_
      have hk := hu v (List.mem_cons_of_mem _ hv)
      rw [Transaction.indexValueKey] at hk ⊢
      rwa [hs]
    | _ => exact ⟨rfl, hfirst⟩

theorem removeFromIndexes_alike (h : Alike E tx tx') (doc : QJsonObject) (linkKey : QByteArray)
    (indexes : List (QString × QString))
    (hu : ∀ p ∈ removedLinks E tx.snapshotId indexes doc linkKey, AlikeAt db db' p.1) :
    (removeFromIndexes E db doc linkKey indexes tx).1 =
        (removeFromIndexes E db' doc linkKey indexes tx').1 ∧
      Alike E (removeFromIndexes E db doc linkKey indexes tx).2
        (removeFromIndexes E db' doc linkKey indexes tx').2 := by
  induction indexes generalizing tx tx' with
  | nil => exact ⟨rfl, h⟩
  | cons index indexes ih =>
    rw [removedLinks, List.flatMap_cons] at hu
    obtain ⟨hr, hfirst⟩ := removeIndexValues_alike h index.2 linkKey
      (indexedValues (getJsonValueByPath (.object doc) index.1)) fun v hv =>
        hu _ (List.mem_append_left _ (List.mem_map.mpr ⟨v, hv, rfl⟩))
    have hs := (@extends_removeIndexValues E db tx index.2 linkKey
      (indexedValues (getJsonValueByPath (.object doc) index.1))).snapshotId
    rw [removeFromIndexes, removeFromIndexes]
    generalize removeIndexValues E db index.2 linkKey _ tx = result at hr hfirst hs ⊢
    generalize removeIndexValues E db' index.2 linkKey _ tx' = result' at hr hfirst ⊢
    obtain ⟨r, tx₁⟩ := result
    obtain ⟨r', tx₁'⟩ := result'
    obtain rfl : r = r' := hr
    cases r with
    | success =>
      refine ih hfirst fun p hp => hu p (List.mem_append_right _ ?_)
      dsimp only at hs
      rw [hs] at hp
      exact hp
    | _ => exact ⟨rfl, hfirst⟩

/-! ## Operations -/

/-- The lookup of an operation comes to the same on both bases. -/
def SameLookup (E : Env) (db db' : Store) (s : Byte) : TxOp → Prop
  | .insert doc gen overwrite ignoreReadOnlyValue =>
    stored E db' s doc gen overwrite ignoreReadOnlyValue =
      stored E db s doc gen overwrite ignoreReadOnlyValue
  | .removeById id ignoreReadOnlyValue =>
    removable E db' s id ignoreReadOnlyValue = removable E db s id ignoreReadOnlyValue
  | _ => True

/-- What an operation finds under the keys of the links that it adds or takes away is not
disturbed by a change of the base. -/
def LinksUndisturbed (E : Env) (db db' : Store) (tx : Transaction) : TxOp → Prop
  | .insert doc gen overwrite ignoreReadOnlyValue =>
    ∀ id o, stored E db tx.snapshotId doc gen overwrite ignoreReadOnlyValue = some (id, o) →
      ∀ p ∈ addedLinks E tx.snapshotId (tx.reader E db).getIndexes o id,
        AddUndisturbed E db db' tx p
  | .removeById id ignoreReadOnlyValue =>
    ∀ p ∈ removalLinks E db tx.snapshotId (tx.reader E db).getIndexes ignoreReadOnlyValue id,
      AlikeAt db db' p.1
  | _ => True

/-- What an operation of a transaction finds is not disturbed by a change of the base from
`db` to `db'`. -/
structure Undisturbed (E : Env) (db db' : Store) (tx : Transaction) (op : TxOp) : Prop where
  lookup : SameLookup E db db' tx.snapshotId op
  links : LinksUndisturbed E db db' tx op

/-- Calls for documents disturb nothing that additions find. -/
theorem AddUndisturbed.writes {p : QByteArray × QByteArray} (h : AddUndisturbed E db db' tx p)
    {ws : List (WriteOp QByteArray Blob)} (hws : ∀ w ∈ ws, ∃ id, IsKeyOf id w.key) :
    AddUndisturbed E db db' (tx.writes E ws) p := by
  rw [AddUndisturbed, links_writes_of_isKeyOf hws, links_writes_of_isKeyOf hws]
  exact h

theorem store_alike (h : Alike E tx tx') (hindexes : AlikeAt db db' indexesKey) {id : QByteArray}
    {o : QJsonObject} {isOld isOld' : Bool}
    (hu : ∀ p ∈ addedLinks E tx.snapshotId (tx.reader E db).getIndexes o id,
      AddUndisturbed E db db' tx p) :
    Alike E (tx.store E db id o isOld) (tx'.store E db' id o isOld') := by
  have hput := h.writes (LogRel.refl Blob.Alike.refl (putJsonValue id tx.snapshotId o))
  rw [store, store, getIndexes_writes putJsonValue_key_ne_indexesKey,
    getIndexes_writes putJsonValue_key_ne_indexesKey, ← h.snapshotId, ← h.getIndexes hindexes]
  refine Alike.congr (addIndexValues_alike hput o id _ fun p hp => ?_) rfl rfl rfl rfl
  exact (hu p hp).writes fun w hw => ⟨id, putJsonValue_key hw⟩

theorem insert_alike (h : Alike E tx tx') (hindexes : AlikeAt db db' indexesKey)
    {doc : QJsonObject} {gen : IdGen} {overwrite ignoreReadOnlyValue : Bool}
    (hu : Undisturbed E db db' tx (.insert doc gen overwrite ignoreReadOnlyValue)) :
    Alike E (tx.insert E db doc gen overwrite ignoreReadOnlyValue).2.2
      (tx'.insert E db' doc gen overwrite ignoreReadOnlyValue).2.2 := by
  obtain ⟨hlook, hlinks⟩ := hu
  cases hacc : accepted E db tx.snapshotId doc gen overwrite ignoreReadOnlyValue with
  | none =>
    have hacc' : accepted E db' tx'.snapshotId doc gen overwrite ignoreReadOnlyValue = none := by
      rw [SameLookup, stored, stored, hacc, h.snapshotId, Option.map_none,
        Option.map_eq_none_iff] at hlook
      exact hlook
    obtain ⟨r, id, e, -, hins⟩ := insert_of_accepted_eq_none hacc
    obtain ⟨r', id', e', -, hins'⟩ := insert_of_accepted_eq_none hacc'
    rw [hins, hins']
    exact h.congr rfl rfl rfl rfl
  | some p =>
    obtain ⟨id, o, isOld⟩ := p
    rw [SameLookup, stored, stored, hacc, h.snapshotId, Option.map_some,
      Option.map_eq_some_iff] at hlook
    obtain ⟨⟨id', o', isOld'⟩, hacc', heq⟩ := hlook
    obtain ⟨rfl, rfl⟩ := Prod.mk.inj heq
    rw [insert_of_accepted hacc, insert_of_accepted hacc']
    exact store_alike h hindexes (hlinks id' o' (by rw [stored, hacc, Option.map_some]))

theorem removeById_alike (h : Alike E tx tx') (hindexes : AlikeAt db db' indexesKey)
    {id : QByteArray} {ignoreReadOnlyValue : Bool}
    (hu : Undisturbed E db db' tx (.removeById id ignoreReadOnlyValue)) :
    Alike E (tx.removeById E db id ignoreReadOnlyValue).2
      (tx'.removeById E db' id ignoreReadOnlyValue).2 := by
  obtain ⟨hlook, hlinks⟩ := hu
  rw [SameLookup] at hlook
  rw [LinksUndisturbed, removalLinks] at hlinks
  cases hrem : removable E db tx.snapshotId id ignoreReadOnlyValue with
  | none =>
    rw [hrem, h.snapshotId] at hlook
    obtain ⟨r, e, -, hr⟩ := removeById_of_removable_eq_none hrem
    obtain ⟨r', e', -, hr'⟩ := removeById_of_removable_eq_none hlook
    rw [hr, hr']
    exact h.congr rfl rfl rfl rfl
  | some p =>
    obtain ⟨doc, scan⟩ := p
    rw [hrem, h.snapshotId] at hlook
    rw [hrem] at hlinks
    have hput := h.writes (LogRel.refl Blob.Alike.refl (removeVersion id tx.snapshotId scan))
    obtain ⟨hr, htx⟩ := @removeFromIndexes_alike E db db' _ _ hput doc
      (constructDocumentLinkKey id (scan.snapshotId.getD 0)) (tx.reader E db).getIndexes hlinks
    rw [removeById_eq hrem, removeById_eq hlook, ← h.getIndexes hindexes, ← h.snapshotId]
    generalize removeFromIndexes E db doc _ _ (tx.writes E _) = result at hr htx ⊢
    generalize removeFromIndexes E db' doc _ _ (tx'.writes E _) = result' at hr htx ⊢
    obtain ⟨r, tx₁⟩ := result
    obtain ⟨r', tx₁'⟩ := result'
    obtain rfl : r = r' := hr
    cases r with
    | success => exact htx.congr rfl rfl rfl rfl
    | _ => exact htx

/-- **An operation** that is not disturbed makes the same calls on both bases. -/
theorem run_alike (h : Alike E tx tx') (hindexes : AlikeAt db db' indexesKey) {op : TxOp}
    (hop : OnDocuments op) (hu : Undisturbed E db db' tx op) :
    Alike E (op.run E db tx).2 (op.run E db' tx').2 := by
  cases op with
  | insert doc gen overwrite ignoreReadOnlyValue => exact insert_alike h hindexes hu
  | removeById id ignoreReadOnlyValue => exact removeById_alike h hindexes hu
  | _ => exact hop.elim

theorem Undisturbed.refl (db : Store) (tx : Transaction) (op : TxOp) :
    Undisturbed E db db tx op := by
  cases op with
  | insert => exact ⟨rfl, fun _ _ _ p _ => .inl (.refl db p.1)⟩
  | removeById => exact ⟨rfl, fun p _ => .refl db p.1⟩
  | _ => exact ⟨trivial, trivial⟩

/-- An insertion whose lookup and lists are the same on both bases. -/
theorem undisturbed_insert {doc : QJsonObject} {gen : IdGen}
    {overwrite ignoreReadOnlyValue : Bool} {id : QByteArray} {o : QJsonObject}
    (h : stored E db tx.snapshotId doc gen overwrite ignoreReadOnlyValue = some (id, o))
    (h' : stored E db' tx.snapshotId doc gen overwrite ignoreReadOnlyValue = some (id, o))
    (hkeys : ∀ p ∈ addedLinks E tx.snapshotId (tx.reader E db).getIndexes o id,
      db'.find? p.1 = db.find? p.1) :
    Undisturbed E db db' tx (.insert doc gen overwrite ignoreReadOnlyValue) := by
  refine ⟨h'.trans h.symm, fun id' o' hst p hp => ?_⟩
  rw [h] at hst
  obtain ⟨rfl, rfl⟩ := Prod.mk.inj (Option.some.inj hst)
  exact .inl (.of_eq (hkeys p hp))

/-- None of the operations is disturbed when its turn comes. -/
def AllUndisturbed (E : Env) (db db' : Store) : List TxOp → Transaction → Prop
  | [], _ => True
  | op :: ops, tx => Undisturbed E db db' tx op ∧ AllUndisturbed E db db' ops (op.run E db tx).2

/-- **Several operations** that are not disturbed make the same calls on both bases. -/
theorem runAll_alike (h : Alike E tx tx') (hindexes : AlikeAt db db' indexesKey)
    {ops : List TxOp} (hops : ∀ op ∈ ops, OnDocuments op) (hu : AllUndisturbed E db db' ops tx) :
    Alike E (TxOp.runAll E db ops tx) (TxOp.runAll E db' ops tx') := by
  induction ops generalizing tx tx' with
  | nil => exact h
  | cons op ops ih =>
    exact ih (run_alike h hindexes (hops op List.mem_cons_self) hu.1)
      (fun op hop => hops op (List.mem_cons_of_mem _ hop)) hu.2

end Transaction

/-- **Commits of transactions** whose calls are alike. -/
theorem Collection.writeTransaction_alike {E : Env} {σ σ' : Collection} {tx tx' : Transaction}
    (h : Transaction.Alike E tx tx') (hr : σ.writeTransaction E tx = (.success, σ')) :
    ∃ σ'', σ.writeTransaction E tx' = (.success, σ'') ∧ SameContent σ'.db σ''.db := by
  obtain ⟨ws, ws', hk, hk', hws⟩ := h.content
  obtain ⟨hc, hs⟩ := writeTransaction_spec (σ := σ) hk
  obtain ⟨hc', hs'⟩ := writeTransaction_spec (σ := σ) hk'
  rw [hr] at hc hs
  obtain ⟨hsuccess, hsame⟩ := commit_alike hws (hs.mp rfl)
  refine ⟨(σ.writeTransaction E tx').2, Prod.ext (hs'.mpr hsuccess) rfl, ?_⟩
  rw [hc'.db]
  exact hc.db ▸ hsame

/-! ## Two transactions -/

/-- A collection, two transactions that were opened on it, what they did, and which of them
were committed, in this order. -/
structure OpenPair where
  collection : Collection
  tx : Bool → Transaction
  done : Bool → List TxOp
  committed : List Bool

namespace OpenPair

/-- Two transactions that are just open. -/
def start (σ : Collection) : OpenPair := ⟨σ, fun _ => σ.newTransaction, fun _ => [], []⟩

/-- An open transaction inserts or removes a document, or is committed. -/
inductive Step (E : Env) : OpenPair → OpenPair → Prop
  | operation {p : OpenPair} {i : Bool} (hi : i ∉ p.committed) (op : TxOp)
    (hop : Transaction.OnDocuments op) :
    Step E p { p with
      tx := Function.update p.tx i (op.run E p.collection.db (p.tx i)).2
      done := Function.update p.done i (p.done i ++ [op]) }
  | writeTransaction {p : OpenPair} {i : Bool} {σ' : Collection} (hi : i ∉ p.committed)
    (hr : p.collection.writeTransaction E (p.tx i) = (.success, σ')) :
    Step E p { p with collection := σ', committed := p.committed ++ [i] }

/-- What interleavings of steps that satisfy `ok` lead to. -/
inductive Run (E : Env) (ok : OpenPair → OpenPair → Prop) (σ : Collection) : OpenPair → Prop
  | start : Run E ok σ (start σ)
  | step {p p' : OpenPair} : Run E ok σ p → Step E p p' → ok p p' → Run E ok σ p'

/-- The first commit does not disturb what the other transaction has done so far. -/
def CommitUndisturbing (E : Env) (p p' : OpenPair) : Prop :=
  ∀ i, p.committed = [] → p'.committed = [i] →
    Transaction.AllUndisturbed E p.collection.db p'.collection.db (p.done !i)
      p.collection.newTransaction

/-- Running the transactions one after the other in the order of their commits goes through,
and leaves the same content. -/
def Serialized (E : Env) (σ : Collection) (p : OpenPair) : Prop :=
  ∀ i, p.committed = [i, !i] → ∃ σ₁ σ₂, σ.transactAll E (p.done i) = (.success, σ₁) ∧
    σ₁.transactAll E (p.done !i) = (.success, σ₂) ∧ SameContent p.collection.db σ₂.db

/-! ## Runs -/

variable {E : Env} {σ : Collection} {p p' : OpenPair}

/-- In any run that disturbs nothing: before the first commit both transactions have run on
the collection, between the commits the open one is like one that was opened in between. -/
structure Inv (E : Env) (σ : Collection) (p : OpenPair) : Prop where
  onDocuments : ∀ i, ∀ op ∈ p.done i, Transaction.OnDocuments op
  before : p.committed = [] →
    p.collection = σ ∧ ∀ i, p.tx i = TxOp.runAll E σ.db (p.done i) σ.newTransaction
  between : ∀ i, p.committed = [i] → σ.transactAll E (p.done i) = (.success, p.collection) ∧
    Transaction.Alike E (p.tx !i)
      (TxOp.runAll E p.collection.db (p.done !i) p.collection.newTransaction)
  after : Serialized E σ p

theorem inv_start : Inv E σ (start σ) where
  onDocuments _ _ h := nomatch h
  before _ := ⟨rfl, fun _ => rfl⟩
  between _ h := nomatch h
  after _ h := nomatch h

theorem runAll_concat (db : Store) (ops : List TxOp) (op : TxOp) (tx : Transaction) :
    TxOp.runAll E db (ops ++ [op]) tx = (op.run E db (TxOp.runAll E db ops tx)).2 := by
  rw [TxOp.runAll, List.foldl_append]
  rfl

namespace Inv

variable (h : Inv E σ p) {i : Bool}

include h

theorem operation (hi : i ∉ p.committed) {op : TxOp} (hop : Transaction.OnDocuments op) :
    Inv E σ { p with
      tx := Function.update p.tx i (op.run E p.collection.db (p.tx i)).2
      done := Function.update p.done i (p.done i ++ [op]) } := by
  refine ⟨fun j op' hop' => ?_, fun hc => ⟨(h.before hc).1, fun j => ?_⟩, fun j hc => ?_,
    fun j hc => ?_⟩ <;> dsimp only at *
  · by_cases hj : j = i
    · subst hj
      rw [Function.update_self, List.mem_append, List.mem_singleton] at hop'
      rcases hop' with hop' | rfl
      · exact h.onDocuments j op' hop'
      · exact hop
    · rw [Function.update_of_ne hj] at hop'
      exact h.onDocuments j op' hop'
  · obtain ⟨hσ, htx⟩ := h.before hc
    by_cases hj : j = i
    · subst hj
      rw [Function.update_self, Function.update_self, runAll_concat, ← htx, hσ]
    · rw [Function.update_of_ne hj, Function.update_of_ne hj]
      exact htx j
  · -- the one that is not committed makes the same calls as the one it is like
    obtain ⟨hserial, halike⟩ := h.between j hc
    rw [hc, List.mem_singleton] at hi
    obtain rfl : i = !j := Bool.eq_not_of_ne hi
    rw [Function.update_self, Function.update_self, Function.update_of_ne (Bool.not_ne_self j).symm,
      runAll_concat]
    exact ⟨hserial, Transaction.run_alike halike (.refl _ _) hop (.refl _ _ _)⟩
  · rw [hc] at hi
    exact absurd (by cases i <;> cases j <;> decide) hi

theorem writeTransaction {σ' : Collection} (hi : i ∉ p.committed)
    (hr : p.collection.writeTransaction E (p.tx i) = (.success, σ'))
    (hok : CommitUndisturbing E p { p with collection := σ', committed := p.committed ++ [i] }) :
    Inv E σ { p with collection := σ', committed := p.committed ++ [i] } := by
  refine ⟨h.onDocuments, fun hc => ?_, fun j hc => ?_, fun j hc => ?_⟩
  · exact absurd hc (by simp)
  · -- the first commit
    have hnil : p.committed = [] := by
      rw [← List.length_eq_zero_iff]
      have := congrArg List.length hc
      simpa using this
    obtain ⟨hσ, htx⟩ := h.before hnil
    have hu := hok j hnil hc
    rw [hnil] at hc
    obtain rfl : i = j := by simpa using hc
    rw [htx, hσ] at hr
    refine ⟨hr, ?_⟩
    obtain ⟨wss, hwss, hw⟩ := @Transaction.runAll_wrote E σ.db σ.newTransaction [] rfl _
      (h.onDocuments i)
    obtain ⟨hc, -⟩ := Collection.writeTransaction_spec (σ := σ) hw.kvdb
    rw [hr] at hc
    have hindexes : AlikeAt σ.db σ'.db indexesKey := by
      rw [AlikeAt, hc.find?_of_forall_ne fun w hw => ?_]
      · exact AlikeAt.refl _ _
      · obtain ⟨ws, hws, hmem⟩ := List.mem_flatten.mp hw
        obtain ⟨op, -, hop⟩ := hwss ws hws
        exact hop.key_ne_indexesKey hmem
    rw [htx]
    rw [hσ] at hu
    exact Transaction.runAll_alike (.of_new hc.snapshotId.symm) hindexes (h.onDocuments _) hu
  · -- the second commit
    have hone : p.committed = [j] := by
      have := congrArg List.dropLast hc
      simpa using this
    obtain ⟨hserial, halike⟩ := h.between j hone
    rw [hone] at hc
    obtain rfl : i = !j := by simpa using hc
    obtain ⟨σ₂, hr₂, hsame⟩ := Collection.writeTransaction_alike halike hr
    exact ⟨p.collection, σ₂, hserial, hr₂, hsame⟩

end Inv

/-- **No lost update**: after any interleaving of two transactions in which the first commit
does not disturb the other transaction, the store has the content that the two leave one after
the other in the order of their commits. -/
theorem serialized_of_run (h : Run E (CommitUndisturbing E) σ p) : Serialized E σ p := by
  have hinv : Inv E σ p := by
    induction h with
    | start => exact inv_start
    | step _ hs hok ih =>
      cases hs with
      | operation hi op hop => exact ih.operation hi hop
      | writeTransaction hi hr => exact ih.writeTransaction hi hr hok
  exact hinv.after

/-! ## Insertions into an index -/

/-- The operations of the two transactions mention different ids. -/
def DisjointIds (p : OpenPair) : Prop :=
  ∃ ids : Bool → Set QByteArray, Disjoint (ids false) (ids true) ∧
    ∀ i, ∀ op ∈ p.done i, TxIds (ids i) op

theorem disjointIds_of_done {v w : QJsonValue} (h : p.done false = [.insertField "a" "f" v])
    (h' : p.done true = [.insertField "b" "f" w]) : DisjointIds p := by
  refine ⟨fun i => if i then {bytes "b"} else {bytes "a"}, ?_, fun i op hop => ?_⟩
  · exact Set.disjoint_singleton.mpr (by decide)
  · cases i with
    | false =>
      rw [h, List.mem_singleton] at hop
      subst hop
      rintro id d ⟨⟩
      rfl
    | true =>
      rw [h', List.mem_singleton] at hop
      subst hop
      rintro id d ⟨⟩
      rfl

/-- A collection with an index of the field `f`. -/
def indexedByF : Collection :=
  ((Collection.open (Env.plain .levelDB) .empty).transact (Env.plain .levelDB)
    (.createIndex (qs "f") (qs "i"))).2

/-- Only the first commit can disturb the other transaction. -/
theorem commitUndisturbing_of_committed
    (h : p.committed = [] → p'.committed = []) : CommitUndisturbing E p p' := by
  intro i hnil hi
  rw [h hnil] at hi
  cases hi

/-- Insertions of documents with different values do not disturb each other. -/
theorem serialized_insertTwo :
    ∃ p, Run (Env.plain .levelDB) (CommitUndisturbing (Env.plain .levelDB)) indexedByF p ∧
      p.committed = [false, true] ∧ Serialized (Env.plain .levelDB) indexedByF p := by
  have hstart : Run (Env.plain .levelDB) (CommitUndisturbing (Env.plain .levelDB)) indexedByF _ :=
    .start
  have ha := hstart.step
    (.operation (i := false) (by decide) (.insertField "a" "f" (.bool true)) trivial)
    (commitUndisturbing_of_committed fun _ => rfl)
  have hb := ha.step
    (.operation (i := true) (by decide) (.insertField "b" "f" (.bool false)) trivial)
    (commitUndisturbing_of_committed fun _ => rfl)
  have hcommit := hb.step (.writeTransaction (i := false) (by decide) rfl) (by
    intro i _ hi
    cases hi
    exact ⟨Transaction.undisturbed_insert rfl (by decide) (by decide), trivial⟩)
  have hcommit' := hcommit.step (.writeTransaction (i := true) (by decide) rfl)
    (commitUndisturbing_of_committed fun h => nomatch h)
  exact ⟨_, hcommit', rfl, serialized_of_run hcommit'⟩

/-- Of two insertions of documents with the same value the index keeps the one that is
committed last. -/
theorem not_serialized :
    ¬ ∀ (E : Env) (σ : Collection) (p : OpenPair), Run E (fun _ _ => True) σ p →
      DisjointIds p → Serialized E σ p := by
  intro h
  have hstart : Run (Env.plain .levelDB) (fun _ _ => True) indexedByF _ := .start
  have ha := hstart.step
    (.operation (i := false) (by decide) (.insertField "a" "f" (.bool true)) trivial) trivial
  have hb := ha.step
    (.operation (i := true) (by decide) (.insertField "b" "f" (.bool true)) trivial) trivial
  have hcommit := (hb.step (.writeTransaction (i := false) (by decide) rfl) trivial).step
    (.writeTransaction (i := true) (by decide) rfl) trivial
  obtain ⟨σ₁, σ₂, h₁, h₂, hsame⟩ := h _ _ _ hcommit (disjointIds_of_done rfl rfl) false rfl
  obtain rfl : _ = σ₁ := congrArg Prod.snd h₁
  obtain rfl : _ = σ₂ := congrArg Prod.snd h₂
  exact @not_alikeAt _ _ _ [constructDocumentLinkKey (bytes "b") 0]
    [constructDocumentLinkKey (bytes "a") 0, constructDocumentLinkKey (bytes "b") 0]
    (constructDocumentLinkKey (bytes "a") 0) (by decide) (by decide) (by decide) (by decide)
    (hsame (constructIndexValueKey (qs "i") 0 (marshal (fun _ => []) (.bool true))))

end OpenPair

end Qdocdb
