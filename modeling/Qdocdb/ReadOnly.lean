import Qdocdb.Operations
import Qdocdb.Serial

/-!
# Read-only documents

`insert` and `removeById` look at the document they are about to replace and refuse it
when it carries the read-only mark. Both look through the iterator, and in serial use the
lookup of a visible document is exact, so such a document is never overwritten or removed;
what is done to the other ids touches other keys. It also has to outlive `newSnapshot`:
there the invariant is that no version, not even a tombstone, is numbered above the
current snapshot (`VersionsUpTo`). Together a document with the mark stays as it is in
the whole rest of the run (`readOnly_stays`).
-/

namespace Qdocdb

/-- `true` or `1` at the read-only path. -/
def HasReadOnlyMark (E : Env) (o : QJsonObject) : Prop :=
  (getJsonValueByPath (.object o) E.readOnlyKey).toBool = true ∨
    (getJsonValueByPath (.object o) E.readOnlyKey).toInt = 1

/-- Insertions and removals that respect the mark, each in its own transaction, and new
snapshots while there are at most 254 named ones. -/
def RespectfulOp (E : Env) (F : Set QByteArray) (σ : Collection) : Op → Prop
  | .transact (.insert doc gen overwrite ignoreReadOnlyValue) =>
    ignoreReadOnlyValue = false ∧ TxIds F (.insert doc gen overwrite ignoreReadOnlyValue)
  | .transact (.removeById id ignoreReadOnlyValue) => ignoreReadOnlyValue = false ∧ id ∈ F
  | .newSnapshot snapshotName =>
    ∀ l, σ.getSnapshotsValue E = .ok l → snapshotName ∈ l ∨ l.length ≤ 255
  | _ => False

/-- One request is served. -/
def ServedBy (E : Env) (ok : Collection → Op → Prop) (σ σ' : Collection) : Prop :=
  ∃ op r, ok σ op ∧ op.apply E σ = some (r, σ')

/-- The states of the rest of a run. -/
abbrev Later (E : Env) (ok : Collection → Op → Prop) : Collection → Collection → Prop :=
  Relation.ReflTransGen (ServedBy E ok)

variable {E : Env} {F : Set QByteArray} {σ σ' : Collection} {I : QByteArray} {o : QJsonObject}

theorem isReadOnly_of_mark (h : HasReadOnlyMark E o) :
    Transaction.isReadOnly E (.object o) = true := by
  rw [HasReadOnlyMark] at h
  rw [Transaction.isReadOnly]
  cases hv : getJsonValueByPath (.object o) E.readOnlyKey with
  | undefined =>
    -- nothing at the path is neither `true` nor `1`
    rw [hv] at h
    exact absurd h (by decide)
  | _ =>
    rw [hv] at h
    simpa [QJsonValue.isUndefined] using h

/-- With a read-only key configured the guards refuse a document with the mark. -/
theorem isProtected_of_mark (hkey : E.readOnlyKey ≠ []) (h : HasReadOnlyMark E o) :
    Transaction.isProtected E (.object o) false = true := by
  simp [Transaction.isProtected, hkey, isReadOnly_of_mark h]

theorem RespectfulOp.serialOp {op : Op} (h : RespectfulOp E F σ op) : SerialOp E F σ op := by
  cases op with
  | transact op =>
    cases op with
    | insert => exact h.2
    | removeById => exact h.2
    | _ => exact h.elim
  | newSnapshot => exact h
  | _ => exact h.elim

/-! ## One request -/

/-- The document that an operation is about. -/
def TxOp.id? : TxOp → Option QByteArray
  | .insert doc gen _ _ => (Transaction.documentId doc gen).map Prod.fst
  | .removeById id _ => some id
  | _ => none

/-- An operation on one document leaves the keys of the others alone. -/
theorem find?_transact_of_ne (hF : Separated F) {op : TxOp} (hop : TxIds F op) (hI : I ∈ F)
    (hne : op.id? ≠ some I) {k : QByteArray} (hk : IsKeyOf I k) :
    (σ.transact E op).2.db.find? k = σ.db.find? k := by
  obtain ⟨wss, hwss, hc⟩ := Collection.transactAll_spec (E := E) (σ := σ)
    (List.forall_mem_singleton.mpr hop.onDocuments)
  refine hc.find?_of_forall_ne fun w hw hwk => ?_
  obtain ⟨ws, hws, hmem⟩ := List.mem_flatten.mp hw
  obtain ⟨op', hop', hwrites⟩ := hwss ws hws
  obtain rfl := List.mem_singleton.mp hop'
  subst hwk
  -- a call on a key of `I` would be for another id, or for an index entry
  have hother : ∀ {id}, id ∈ F → op'.id? = some id → IsKeyOf id w.key → False := by
    intro id hid heq hkey
    rw [hF.eq_of_isKeyOf hI hid hk hkey] at heq
    exact hne heq
  cases op' with
  | insert doc gen _ _ =>
    obtain ⟨r, id, hwrites⟩ := hwrites
    cases hwrites with
    | refused => cases hmem
    | stored hid ho hiws =>
      rcases List.mem_append.mp hmem with hput | hindex
      · exact hother (hop _ _ hid) (by simp [TxOp.id?, hid]) (Transaction.putJsonValue_key hput)
      · exact (hiws _ hindex).isMetaKey.not_isKeyOf hk
  | removeById id _ =>
    obtain ⟨r, hwrites⟩ := hwrites
    cases hwrites with
    | refused => cases hmem
    | removed _ _ hiws =>
      rcases List.mem_append.mp hmem with hput | hindex
      · exact hother hop rfl (Transaction.removeVersion_key hput)
      · exact (hiws _ hindex).isMetaKey.not_isKeyOf hk
  | _ => exact hop.elim

/-- **The guards**: an operation on the id of a visible document with the mark is refused. -/
theorem db_transact_of_mark (hkey : E.readOnlyKey ≠ [])
    (hlook : (σ.reader E).getJsonValue E I = .object o) (hmark : HasReadOnlyMark E o)
    {op : TxOp} (hop : RespectfulOp E F σ (.transact op)) (hid : op.id? = some I) :
    (σ.transact E op).2.db = σ.db := by
  have hprotected := isProtected_of_mark hkey hmark
  cases op with
  | insert doc gen overwrite ignoreReadOnlyValue =>
    obtain ⟨rfl, -⟩ := hop
    obtain ⟨⟨id, d⟩, hd, rfl⟩ := Option.map_eq_some_iff.mp hid
    have hnone : Transaction.accepted E σ.db σ.snapshotId doc gen overwrite false = none := by
      have hold : Qdocdb.getJsonValue E.backend σ.db σ.snapshotId id = .object o := hlook
      rw [Transaction.accepted, hd, Option.bind_some]
      dsimp only
      rw [hold, hprotected]
      simp [QJsonValue.isUndefined]
    obtain ⟨r, id', lastError, -, heq⟩ := @Transaction.insert_of_accepted_eq_none E σ.db
      σ.newTransaction _ _ _ _ hnone
    exact (Collection.transact_of_refused (r := r) (by rw [TxOp.run, heq])).1
  | removeById id ignoreReadOnlyValue =>
    obtain ⟨rfl, -⟩ := hop
    obtain rfl := Option.some.inj hid
    have hnone : Transaction.removable E σ.db σ.snapshotId id false = none := by
      have hscan : ((seekValue E.backend σ.db σ.snapshotId id).getD .init).jsonValue =
          .object o := by
        rw [← hlook]
        change _ = Qdocdb.getJsonValue E.backend σ.db σ.snapshotId id
        rw [getJsonValue]
        cases seekValue E.backend σ.db σ.snapshotId id <;> rfl
      rw [Transaction.removable]
      rw [hscan]
      dsimp only
      rw [hprotected, if_pos rfl]
    obtain ⟨r, lastError, -, heq⟩ := @Transaction.removeById_of_removable_eq_none E σ.db
      σ.newTransaction _ _ hnone
    exact (Collection.transact_of_refused (r := r) (by rw [TxOp.run, heq])).1
  | _ => exact hop.elim

/-! ## Runs -/

/-- What the rest of a run keeps: the invariant of serial use, the versions' numbers, and
the visible document. -/
structure StillVisible (F : Set QByteArray) (I : QByteArray) (o : QJsonObject)
    (σ : Collection) : Prop where
  serial : SerialInv F σ
  versions : VersionsUpTo F σ.snapshotId σ.db
  visible : Qdocdb.visible σ.db σ.snapshotId I = some o

/-- A visible document is what its lookup returns. -/
theorem SerialStore.getJsonValue_of_visible (hF : Separated F) (h : SerialInv F σ) (hI : I ∈ F)
    (hv : visible σ.db σ.snapshotId I = some o) :
    (σ.reader E).getJsonValue E I = .object o := by
  have hstart := h.documentStore.startKey_of_visible hI hv
  have hlook := getJsonValue_of_startKey hF h.good.shape (B := E.backend) (s := σ.snapshotId)
    hI hstart
  rw [hv] at hlook
  exact hlook

/-- **Step**: a request leaves a visible document with the mark as it is. -/
theorem StillVisible.served (hF : PlainIds F) (hkey : E.readOnlyKey ≠ []) (hI : I ∈ F)
    (hmark : HasReadOnlyMark E o) (h : StillVisible F I o σ)
    (hstep : ServedBy E (RespectfulOp E F) σ σ') : StillVisible F I o σ' := by
  obtain ⟨op, r, hop, happly⟩ := hstep
  refine ⟨serialInv_served hF hop.serialOp happly h.serial,
    versionsUpTo_served hF hop.serialOp happly h.serial h.versions, ?_⟩
  cases op with
  | transact op =>
    obtain rfl := congrArg Prod.snd (Option.some.inj happly)
    have hserial : TxIds F op := hop.serialOp
    have hsnapshot : (σ.transact E op).2.snapshotId = σ.snapshotId :=
      (h.serial.transactAll (E := E) hF (List.forall_mem_singleton.mpr hserial)).2
    rw [hsnapshot]
    by_cases hid : op.id? = some I
    · -- the document itself: refused
      rw [db_transact_of_mark hkey (h.serial.getJsonValue_of_visible hF.separated hI h.visible)
        hmark hop hid]
      exact h.visible
    · rw [visible_congr fun t _ =>
        find?_transact_of_ne hF.separated hserial hI hid (isKeyOf_linkKey I t)]
      exact h.visible
  | newSnapshot snapshotName =>
    obtain rfl := congrArg Prod.snd (Option.some.inj happly)
    obtain ⟨-, hle, hkeep⟩ := h.serial.toNumberedStore.newSnapshot (E := E) hop
    rw [visible_congr fun t _ => hkeep _ (isKeyOf_linkKey I t).ne_snapshotsKey,
      h.versions.visible_of_le hI hle]
    exact h.visible
  | _ => exact hop.elim

theorem StillVisible.later (hF : PlainIds F) (hkey : E.readOnlyKey ≠ []) (hI : I ∈ F)
    (hmark : HasReadOnlyMark E o) (h : StillVisible F I o σ)
    (hlater : Later E (RespectfulOp E F) σ σ') : StillVisible F I o σ' := by
  induction hlater with
  | refl => exact h
  | tail _ hstep ih => exact ih.served hF hkey hI hmark hstep

/-- **Protection**: with a read-only key configured, a visible document that has the mark
is visible with the same value in every later state, for the lookup of its id as well as
in the enumeration. -/
theorem readOnly_stays (hF : SafeIds F) (hkey : E.readOnlyKey ≠ [])
    (h : Reachable E (RespectfulOp E F) σ) (hvisible : (I, o) ∈ (σ.reader E).documents E)
    (hmark : HasReadOnlyMark E o) (hlater : Later E (RespectfulOp E F) σ σ') :
    (I, o) ∈ (σ'.reader E).documents E ∧ (σ'.reader E).getJsonValue E I = .object o := by
  obtain ⟨hserial, hversions⟩ :=
    versionsUpTo_of_reachable hF.plain (h.mono fun _ _ => RespectfulOp.serialOp)
  obtain ⟨hI, hv⟩ := (hserial.mem_documents_iff hF.separated).mp hvisible
  have hlast := StillVisible.later hF.plain hkey hI hmark ⟨hserial, hversions, hv⟩ hlater
  exact ⟨(hlast.serial.mem_documents_iff hF.separated).mpr ⟨hI, hlast.visible⟩,
    hlast.serial.getJsonValue_of_visible hF.separated hI hlast.visible⟩

/-! ## A protected document -/

/-- A configuration with the read-only key `r`. -/
def Env.readOnly (B : Backend) : Env := { Env.plain B with readOnlyKey := qs "r" }

/-- A collection with the read-only document `a`. -/
def insertedReadOnly : Collection :=
  ((Collection.open (Env.readOnly .levelDB) .empty).transact (Env.readOnly .levelDB)
    (.insertField "a" "r" (.bool true))).2

theorem reachable_insertedReadOnly : Reachable (Env.readOnly .levelDB)
    (RespectfulOp (Env.readOnly .levelDB) oneByteIds) insertedReadOnly := by
  refine Reachable.opened.transact ⟨rfl, ?_⟩
  intro id d h
  obtain rfl : bytes "a" = id := (Prod.mk.inj (Option.some.inj h)).1
  decide

/-- Overwriting and removing `a` behind a new snapshot are both refused. -/
theorem readOnly_stays_insertedReadOnly :
    let E := Env.readOnly .levelDB
    let σ := (insertedReadOnly.newSnapshot E (qs "A")).2
    let σ' := (σ.transact E (.removeById (bytes "a") false)).2
    (bytes "a", [(qs "_id", .string (qs "a")), (qs "r", .bool true)]) ∈
        (σ'.reader E).documents E ∧
      (σ'.reader E).getJsonValue E (bytes "a") =
        .object [(qs "_id", .string (qs "a")), (qs "r", .bool true)] := by
  refine readOnly_stays safeIds_oneByteIds (by decide) reachable_insertedReadOnly ?_ (.inl rfl)
    (.tail (.single ⟨.newSnapshot (qs "A"), _, ?_, rfl⟩)
      ⟨.transact (.removeById (bytes "a") false), _, ⟨rfl, by decide⟩, rfl⟩)
  · exact List.mem_singleton.mpr rfl
  · intro l hl
    exact .inr (by cases hl; decide)

end Qdocdb
