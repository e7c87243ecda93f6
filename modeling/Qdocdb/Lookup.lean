import Qdocdb.Invariants

/-!
# Point lookup

`getJsonValue` seeks the start key of an id and reads whatever document it lands on.
The map's iterator finds the start key or nothing; LevelDB's goes on to the next key
of the store when the start key is missing, and when that is the start key of another
document the lookup returns that document. `insert` and `removeById` trust the lookup,
so they go wrong in the same states, and only there (`lookupExact_iff`).
-/

namespace Qdocdb

/-- An insertion, or the removal of a visible document. -/
def PointTxOp (F : Set QByteArray) (σ : Collection) : TxOp → Prop
  | .insert doc gen overwrite ignoreReadOnlyValue =>
    TxIds F (.insert doc gen overwrite ignoreReadOnlyValue)
  | .removeById id _ => id ∈ F ∧ visible σ.db σ.snapshotId id ≠ none
  | _ => False

/-- The requests of a run in which only visible documents are removed. -/
def PointOp (F : Set QByteArray) (σ : Collection) : Op → Prop
  | .transact op => PointTxOp F σ op
  | .batch ops => ∀ op ∈ ops, PointTxOp F σ op
  | .newSnapshot _ => True
  | _ => False

theorem PointTxOp.txIds {F : Set QByteArray} {σ : Collection} {op : TxOp}
    (h : PointTxOp F σ op) : TxIds F op := by
  match op, h with
  | .insert _ _ _ _, h => exact h
  | .removeById _ _, h => exact h.1

theorem PointOp.opIds {F : Set QByteArray} {σ : Collection} {op : Op} (h : PointOp F σ op) :
    OpIds F op := by
  match op, h with
  | .transact (.insert _ _ _ _), h => exact h
  | .transact (.removeById _ _), h => exact h.1
  | .batch _, h => exact fun op hop => (h op hop).txIds
  | .newSnapshot _, _ => trivial

/-- The lookup of `id` returns its visible document, `insert` without overwriting
refuses exactly the visible id, and `removeById` of an id that is not visible fails
and writes nothing. -/
structure LookupExact (E : Env) (σ : Collection) (id : QByteArray) : Prop where
  lookup : (σ.reader E).getJsonValue E id = jsonOfDocument (visible σ.db σ.snapshotId id)
  insert : ∀ doc gen ignoreReadOnlyValue d, Transaction.documentId doc gen = some (id, d) →
    ((σ.transact E (.insert doc gen false ignoreReadOnlyValue)).1 = .errorAlreadyExists ↔
      visible σ.db σ.snapshotId id ≠ none)
  removeById : visible σ.db σ.snapshotId id = none → ∀ ignoreReadOnlyValue,
    (σ.transact E (.removeById id ignoreReadOnlyValue)).1 ≠ .success ∧
      (σ.transact E (.removeById id ignoreReadOnlyValue)).2.db = σ.db

variable {E : Env} {σ : Collection} {id : QByteArray}

theorem jsonOfDocument_eq_undefined_iff {o : Option QJsonObject} :
    jsonOfDocument o = .undefined ↔ o = none := by
  cases o <;> simp [jsonOfDocument]

/-! ## What insert and removeById make of a lookup -/

/-- Inserting without overwriting is refused when the lookup finds something. -/
theorem insert_errorAlreadyExists_iff {doc d : QJsonObject} {gen : Transaction.IdGen}
    (hid : Transaction.documentId doc gen = some (id, d)) (ignoreReadOnlyValue : Bool) :
    (σ.newTransaction.insert E σ.db doc gen false ignoreReadOnlyValue).1 = .errorAlreadyExists ↔
      (σ.reader E).getJsonValue E id ≠ .undefined := by
  have hlook : (σ.newTransaction.reader E σ.db).getJsonValue E id =
      (σ.reader E).getJsonValue E id := rfl
  rw [Transaction.insert, hid]
  simp only [hlook]
  generalize (σ.reader E).getJsonValue E id = docOld
  cases docOld with
  | undefined => simp [QJsonValue.isUndefined]
  | _ => simp [QJsonValue.isUndefined]

/-- A commit does not make up the refusal of an insertion. -/
theorem transact_errorAlreadyExists_iff {op : TxOp} :
    (σ.transact E op).1 = .errorAlreadyExists ↔
      (op.run E σ.db σ.newTransaction).1 = .errorAlreadyExists := by
  rw [Collection.transact]
  rcases hop : op.run E σ.db σ.newTransaction with ⟨r, tx⟩
  have hwrite : (σ.writeTransaction E tx).1 ≠ .errorAlreadyExists := by
    rw [Collection.writeTransaction]
    rcases tx.kvdb.writeTransaction E.backend σ.db with ⟨- | -, db⟩ <;> simp
  simp only
  split
  · rename_i hr
    simp [hr, hwrite]
  · rfl

/-- Removing an id that the lookup does not find fails and writes nothing. -/
theorem transact_removeById_of_undefined (hlook : (σ.reader E).getJsonValue E id = .undefined)
    (ignoreReadOnlyValue : Bool) :
    (σ.transact E (.removeById id ignoreReadOnlyValue)).1 ≠ .success ∧
      (σ.transact E (.removeById id ignoreReadOnlyValue)).2.db = σ.db := by
  obtain ⟨r, ws, hw, -, hc, hr⟩ :=
    Collection.transact_removeById (E := E) (σ := σ) id ignoreReadOnlyValue
  cases hw with
  | refused hne =>
    have hcommit : commit E.backend σ.db [] = (.success, σ.db) :=
      commit_of_disjoint fun k hk => absurd hk (List.not_mem_nil)
    rw [hr (by rw [hcommit]), hc.db, hcommit]
    exact ⟨hne, rfl⟩
  | removed hseek hdoc =>
    -- the scan it needs returned an object
    have hget : (σ.reader E).getJsonValue E id =
        Qdocdb.getJsonValue E.backend σ.db σ.snapshotId id := rfl
    rw [hget, getJsonValue, hseek] at hlook
    exact absurd (hdoc.symm.trans hlook) (by simp)

/-- An exact lookup is enough for `insert` and `removeById`. -/
theorem lookupExact_of_lookup
    (h : (σ.reader E).getJsonValue E id = jsonOfDocument (visible σ.db σ.snapshotId id)) :
    LookupExact E σ id where
  lookup := h
  insert := by
    intro doc gen ignoreReadOnlyValue d hid
    rw [transact_errorAlreadyExists_iff, TxOp.run, ← not_iff_not, not_not,
      ← jsonOfDocument_eq_undefined_iff, ← h, ← not_not (a := _ = QJsonValue.undefined), not_iff_not]
    exact insert_errorAlreadyExists_iff hid ignoreReadOnlyValue
  removeById := by
    intro hnone ignoreReadOnlyValue
    refine transact_removeById_of_undefined ?_ ignoreReadOnlyValue
    rw [h, hnone]
    rfl

/-! ## When the lookup is exact -/

/-- **Point lookup** of an id is exact in a reachable state if and only if its start
key is stored, or the id is not visible and LevelDB's seek does not land on the start
key of a visible document instead. -/
theorem lookupExact_iff {F : Set QByteArray} (hF : SafeIds F) (h : Reachable E (PointOp F) σ)
    (hid : id ∈ F) :
    LookupExact E σ id ↔
      σ.db.find? (constructDocumentStartKey id) ≠ none ∨
        visible σ.db σ.snapshotId id = none ∧
          (E.backend = .map ∨
            ∀ J ∈ F, FollowedBy σ.db id J → visible σ.db σ.snapshotId J = none) := by
  have hgood : GoodStore F σ.db := goodStore_of_reachable (fun _ _ => PointOp.opIds) h
  have hsep := hF.separated
  constructor
  · intro hexact
    rw [or_iff_not_imp_left, not_not]
    intro hnone
    have hlook : getJsonValue E.backend σ.db σ.snapshotId id =
        jsonOfDocument (visible σ.db σ.snapshotId id) := hexact.lookup
    rcases hB : E.backend with - | -
    · -- another document found instead would have to carry `id`
      rw [hB] at hlook
      have hnext : ∀ J ∈ F, FollowedBy σ.db id J → visible σ.db σ.snapshotId J = none := by
        intro J hJ hfollow
        rw [getJsonValue_levelDB_of_followedBy hsep hgood.shape hJ hfollow] at hlook
        cases hvis : visible σ.db σ.snapshotId J with
        | none => rfl
        | some o =>
          rw [hvis] at hlook
          cases hvis' : visible σ.db σ.snapshotId id with
          | none => rw [hvis'] at hlook; cases hlook
          | some o' =>
            rw [hvis'] at hlook
            obtain rfl : o = o' := QJsonValue.object.inj hlook
            obtain ⟨sid, hsid, rfl⟩ := hgood.id_of_visible hvis
            obtain ⟨sid', hsid', rfl⟩ := hgood.id_of_visible hvis'
            obtain rfl : sid = sid' := QJsonValue.string.inj (hsid.symm.trans hsid')
            exact absurd hnone hfollow.stored
      rw [getJsonValue_levelDB_of_startKey_none hsep hgood.shape hid hnone hnext] at hlook
      exact ⟨jsonOfDocument_eq_undefined_iff.mp hlook.symm, .inr hnext⟩
    · rw [hB, getJsonValue, seekValue_map_of_startKey_none hnone] at hlook
      exact ⟨jsonOfDocument_eq_undefined_iff.mp hlook.symm, .inl rfl⟩
  · intro hcond
    refine lookupExact_of_lookup (show getJsonValue E.backend σ.db σ.snapshotId id = _ from ?_)
    by_cases hstart : σ.db.find? (constructDocumentStartKey id) = none
    · obtain ⟨hvis, hB⟩ := hcond.resolve_left (not_not.mpr hstart)
      rw [hvis]
      rcases hB' : E.backend with - | -
      · have hnext := hB.resolve_left (by rw [hB']; simp)
        exact getJsonValue_levelDB_of_startKey_none hsep hgood.shape hid hstart hnext
      · rw [getJsonValue, seekValue_map_of_startKey_none hstart]
        rfl
    · exact getJsonValue_of_startKey hsep hgood.shape hid hstart

/-! ## A lookup that finds another document -/

/-- A LevelDB collection in which `b` was inserted. -/
def insertedB : Collection :=
  ((Collection.open (Env.plain .levelDB) .empty).transact (Env.plain .levelDB)
    (.insertField "b" "n" .null)).2

theorem reachable_insertedB :
    Reachable (Env.plain .levelDB) (PointOp oneByteIds) insertedB := by
  refine Reachable.opened.transact ?_
  intro id d h
  obtain rfl : bytes "b" = id := (Prod.mk.inj (Option.some.inj h)).1
  decide

/-- With `b` stored, looking up `b` is exact. -/
theorem lookupExact_insertedB : LookupExact (Env.plain .levelDB) insertedB (bytes "b") :=
  (lookupExact_iff safeIds_oneByteIds reachable_insertedB (by decide)).mpr
    (.inl (by decide))

/-- With `b` stored, LevelDB's lookup of `a` returns `b`. -/
theorem not_lookupExact :
    ¬ ∀ (E : Env) (F : Set QByteArray) (σ : Collection), SafeIds F → Reachable E (PointOp F) σ →
      ∀ id ∈ F, LookupExact E σ id := by
  intro h
  have hlook := (h (Env.plain .levelDB) oneByteIds insertedB safeIds_oneByteIds
    reachable_insertedB (bytes "a") (by decide)).lookup
  revert hlook
  decide

end Qdocdb
