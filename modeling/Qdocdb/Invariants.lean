import Qdocdb.Steps

/-!
# Invariants of the store

`GoodStore F` says of every binding that its key belongs to an id of `F` or lies
behind the documents, and that a stored document sits under a version key of the id
that its `_id` names. It is kept by every request that only mentions ids of `F`
(`goodStore_served`), including requests that fail half-way.
-/

namespace Qdocdb

/-! ## Good bindings -/

/-- A binding that the program may leave in a store. -/
structure GoodBinding (F : Set QByteArray) (k : QByteArray) (v : Blob) : Prop where
  key : (∃ I ∈ F, IsKeyOf I k) ∨ IsMetaKey k
  document : ∀ o, v = .document o →
    ∃ sid s, QJsonObject.value o (qs "_id") = .string sid ∧
      k = constructDocumentLinkKey (toLatin1 sid) s

/-- All bindings are good. -/
def GoodStore (F : Set QByteArray) (db : Store) : Prop :=
  ∀ k v, db.find? k = some v → GoodBinding F k v

variable {F : Set QByteArray}

theorem GoodStore.shape {db : Store} (h : GoodStore F db) : Shape F db := by
  intro k hk
  obtain ⟨v, hv⟩ := Option.ne_none_iff_exists'.mp hk
  exact (h k v hv).key

/-- The visible document of an id carries that id. -/
theorem GoodStore.id_of_visible {db : Store} (h : GoodStore F db) {s : Byte} {I : QByteArray}
    {o : QJsonObject} (hv : visible db s I = some o) :
    ∃ sid, QJsonObject.value o (qs "_id") = .string sid ∧ toLatin1 sid = I := by
  rw [visible, History.view, Option.join_eq_some_iff, History.newest_eq_some_iff] at hv
  obtain ⟨t, -, ht, -⟩ := hv
  obtain ⟨b, hb, hdoc⟩ := Option.map_eq_some_iff.mp ht
  cases b <;> cases hdoc
  rw [version] at hb
  split at hb
  · obtain ⟨sid, s', hsid, hkey⟩ := (h _ _ hb).document o rfl
    exact ⟨sid, hsid, (constructDocumentLinkKey_inj.mp hkey).1.symm⟩
  · cases hb

theorem goodBinding_of_isMetaKey {k : QByteArray} {v : Blob} (hk : IsMetaKey k)
    (hv : ∀ o, v ≠ .document o) : GoodBinding F k v :=
  ⟨.inr hk, fun o ho => absurd ho (hv o)⟩

theorem IndexWrite.goodBinding {k : QByteArray} {v : Blob} (h : IndexWrite (.put k v)) :
    GoodBinding F k v :=
  goodBinding_of_isMetaKey h.isMetaKey fun o ho => h.2 o (congrArg some ho)

theorem goodBinding_of_mem_putJsonValue {id : QByteArray} (hid : id ∈ F) {s : Byte}
    {o : QJsonObject} {sid : QString} (hsid : QJsonObject.value o (qs "_id") = .string sid)
    (hlatin : toLatin1 sid = id) {k : QByteArray} {v : Blob}
    (h : WriteOp.put k v ∈ Transaction.putJsonValue id s o) : GoodBinding F k v := by
  refine ⟨.inl ⟨id, hid, Transaction.putJsonValue_key h⟩, ?_⟩
  rintro o' rfl
  rcases List.mem_cons.mp h with h | h
  · cases h
  · cases List.mem_singleton.mp h
    exact ⟨sid, s, hsid, by rw [hlatin]⟩

theorem goodBinding_of_mem_removeVersion {id : QByteArray} (hid : id ∈ F) {s : Byte}
    {r : ValueScan} {k : QByteArray} {v : Blob}
    (h : WriteOp.put k v ∈ Transaction.removeVersion id s r) : GoodBinding F k v := by
  refine ⟨.inl ⟨id, hid, Transaction.removeVersion_key h⟩, ?_⟩
  rintro o rfl
  rw [Transaction.removeVersion] at h
  split at h <;> simp at h

/-! ## Runs -/

/-- The ids that an operation on documents mentions are in `F`. -/
def TxIds (F : Set QByteArray) : TxOp → Prop
  | .insert doc gen _ _ => ∀ id d, Transaction.documentId doc gen = some (id, d) → id ∈ F
  | .removeById id _ => id ∈ F
  | _ => False

theorem TxIds.onDocuments {op : TxOp} (h : TxIds F op) : Transaction.OnDocuments op := by
  cases op with
  | insert => trivial
  | removeById => trivial
  | _ => exact h

/-- The ids that a request mentions are in `F`. -/
def OpIds (F : Set QByteArray) : Op → Prop
  | .transact (.createIndex _ _) => True
  | .transact op => TxIds F op
  | .batch ops => ∀ op ∈ ops, TxIds F op
  | .newSnapshot _ => True
  | .revertToSnapshot _ => True
  | _ => False

variable {E : Env} {σ σ' : Collection}

theorem goodStore_open : GoodStore F (Collection.open E .empty).db := by
  intro k v hkv
  rw [Collection.open_empty.1, SortedMap.find?_insert] at hkv
  split at hkv
  · rename_i hk
    cases hkv
    exact hk ▸ goodBinding_of_isMetaKey isMetaKey_snapshotsKey (by simp)
  · cases hkv

/-- Operations on documents of `F` put good bindings. -/
theorem goodBinding_of_opWrites {db : Store} {s : Byte} {indexes : List (QString × QString)}
    {op : TxOp} (hop : TxIds F op) {ws : List (WriteOp QByteArray Blob)}
    (h : Transaction.OpWrites E db s indexes op ws) {k : QByteArray} {v : Blob}
    (hkv : WriteOp.put k v ∈ ws) : GoodBinding F k v := by
  cases op with
  | insert doc gen _ _ =>
    obtain ⟨r, id, hw⟩ := h
    cases hw with
    | refused => cases hkv
    | stored hid ho hiws =>
      obtain ⟨sid, hsid, hlatin⟩ := ho.value_id hid
      rcases List.mem_append.mp hkv with hkv | hkv
      · exact goodBinding_of_mem_putJsonValue (hop _ _ hid) hsid hlatin hkv
      · exact (hiws _ hkv).goodBinding
  | removeById id _ =>
    obtain ⟨r, hw⟩ := h
    cases hw with
    | refused => cases hkv
    | removed _ _ hiws =>
      rcases List.mem_append.mp hkv with hkv | hkv
      · exact goodBinding_of_mem_removeVersion hop hkv
      · exact (hiws _ hkv).goodBinding
  | _ => exact hop.elim

theorem goodStore_transactAll (ops : List TxOp) (hops : ∀ op ∈ ops, TxIds F op)
    (hσ : GoodStore F σ.db) : GoodStore F (σ.transactAll E ops).2.db := by
  obtain ⟨wss, hwss, hc⟩ :=
    Collection.transactAll_spec (E := E) (σ := σ) fun op hop => (hops op hop).onDocuments
  refine hc.preserves hσ fun k v hkv => ?_
  obtain ⟨ws, hws, hkv⟩ := List.mem_flatten.mp hkv
  obtain ⟨op, hop, hw⟩ := hwss ws hws
  exact goodBinding_of_opWrites (hops op hop) hw hkv

/-- **Step**: a request that mentions ids of `F` keeps the store good. -/
theorem goodStore_served {op : Op} {r : ResultEnum} (hop : OpIds F op)
    (h : op.apply E σ = some (r, σ')) (hσ : GoodStore F σ.db) : GoodStore F σ'.db := by
  match op with
  | .transact (.insert doc gen overwrite ignoreReadOnlyValue) =>
    obtain rfl := congrArg Prod.snd (Option.some.inj h)
    exact goodStore_transactAll [.insert doc gen overwrite ignoreReadOnlyValue]
      (List.forall_mem_singleton.mpr hop) hσ
  | .transact (.removeById id ignoreReadOnlyValue) =>
    obtain rfl := congrArg Prod.snd (Option.some.inj h)
    exact goodStore_transactAll [.removeById id ignoreReadOnlyValue]
      (List.forall_mem_singleton.mpr hop) hσ
  | .batch ops =>
    obtain rfl := congrArg Prod.snd (Option.some.inj h)
    exact goodStore_transactAll ops hop hσ
  | .transact (.createIndex fieldName indexName) =>
    obtain ⟨ws, hw, hc⟩ :=
      Collection.transact_createIndex (E := E) (σ := σ) fieldName indexName
    obtain rfl : (σ.transact E (.createIndex fieldName indexName)).2 = σ' :=
      congrArg Prod.snd (Option.some.inj h)
    refine hc.preserves hσ fun k v hkv => ?_
    rcases hw _ hkv with hi | ⟨t, ht⟩
    · exact hi.goodBinding
    · cases ht
      exact goodBinding_of_isMetaKey isMetaKey_indexesKey (by simp)
  | .newSnapshot snapshotName =>
    obtain rfl : (σ.newSnapshot E snapshotName).2 = σ' := congrArg Prod.snd (Option.some.inj h)
    rcases Collection.newSnapshot_spec (E := E) (σ := σ) snapshotName with
      ⟨-, hdb, -⟩ | ⟨l, -, -, -, hdb, -⟩
    · rwa [hdb]
    · rw [hdb]
      intro k v hkv
      rcases SortedMap.find?_applyLog_eq_some hkv with hk | hw
      · exact hσ k v hk
      · rcases List.mem_append.mp hw with hw | hw
        · cases List.mem_singleton.mp hw
          exact goodBinding_of_isMetaKey isMetaKey_snapshotsKey (by simp)
        · obtain ⟨index, -, d, b, heq, hb⟩ := Collection.exists_of_mem_copyIndexValues hw
          cases heq
          refine goodBinding_of_isMetaKey (isMetaKey_constructIndexValueKey _ _ _) ?_
          -- the copied value sits under an index key, which holds no document
          rintro o rfl
          obtain ⟨sid, s, -, hkey⟩ := (hσ _ _ hb).document o rfl
          exact (isMetaKey_constructIndexValueKey index.2 σ.snapshotId d).not_isKeyOf
            (hkey ▸ isKeyOf_linkKey _ _)
  | .revertToSnapshot snapshotName =>
    obtain rfl : (σ.revertToSnapshot E snapshotName).2 = σ' :=
      congrArg Prod.snd (Option.some.inj h)
    rcases Collection.revertToSnapshot_spec (E := E) (σ := σ) snapshotName with
      ⟨-, -, hdb, -⟩ | ⟨l, -, -, -, hdb, -⟩
    · rwa [hdb]
    · rw [hdb]
      intro k v hkv
      rcases SortedMap.find?_applyLog_eq_some hkv with hk | hk
      · exact hσ k v hk
      · obtain ⟨rfl, rfl⟩ := Collection.of_put_mem_revertWrites hk
        exact goodBinding_of_isMetaKey isMetaKey_snapshotsKey (by simp)

/-- An operation in its own transaction. -/
theorem GoodStore.transact {op : TxOp} (h : GoodStore F σ.db) (hop : OpIds F (.transact op)) :
    GoodStore F (σ.transact E op).2.db :=
  goodStore_served hop rfl h

/-- **Run**: in every reachable state the store is good. -/
theorem goodStore_of_reachable {ok : Collection → Op → Prop} (hok : ∀ σ op, ok σ op → OpIds F op)
    (h : Reachable E ok σ) : GoodStore F σ.db := by
  induction h with
  | opened => exact goodStore_open
  | served _ hop happly ih => exact goodStore_served (hok _ _ hop) happly ih

end Qdocdb
