import Qdocdb.Serial

/-!
# Named snapshots do not change

A run is recorded together with the documents that were seen on the current
collection each time `newSnapshot` succeeded. In a serial run, what is seen through a
snapshot that is still listed is what was recorded for it
(`documents_getSnapshot_of_recordedRun`): transactions only write versions of the
current number, and a revert only deletes versions behind the snapshots it keeps.
-/

namespace Qdocdb

/-- What was seen when each snapshot was taken. -/
abbrev SeenDocuments : Type := QString → Set (QByteArray × QJsonObject)

/-- Note the documents of the current collection when a snapshot is taken. -/
def record (E : Env) (σ : Collection) (op : Op) (r : ResultEnum) (seen : SeenDocuments) :
    SeenDocuments :=
  match op with
  | .newSnapshot snapshotName =>
    if r = .success then Function.update seen snapshotName ((σ.reader E).documents E) else seen
  | _ => seen

/-- The states of a run as in `Reachable`, with what was recorded on the way. -/
inductive RecordedRun (E : Env) (ok : Collection → Op → Prop) :
    Collection → SeenDocuments → Prop
  | opened (seen : SeenDocuments) : RecordedRun E ok (Collection.open E .empty) seen
  | served {σ σ' : Collection} {seen : SeenDocuments} {op : Op} {r : ResultEnum} :
    RecordedRun E ok σ seen → ok σ op → op.apply E σ = some (r, σ') →
    RecordedRun E ok σ' (record E σ op r seen)

theorem RecordedRun.transact {E : Env} {ok : Collection → Op → Prop} {σ : Collection}
    {seen : SeenDocuments} (h : RecordedRun E ok σ seen) {op : TxOp} (hok : ok σ (.transact op)) :
    RecordedRun E ok (σ.transact E op).2 seen :=
  h.served hok rfl

theorem RecordedRun.newSnapshot {E : Env} {ok : Collection → Op → Prop} {σ : Collection}
    {seen : SeenDocuments} (h : RecordedRun E ok σ seen) {snapshotName : QString}
    (hok : ok σ (.newSnapshot snapshotName)) :
    RecordedRun E ok (σ.newSnapshot E snapshotName).2
      (record E σ (.newSnapshot snapshotName) (σ.newSnapshot E snapshotName).1 seen) :=
  h.served hok rfl

/-- What was recorded for each name of the list of snapshots is what its number sees. -/
def Recorded (F : Set QByteArray) (σ : Collection) (seen : SeenDocuments) : Prop :=
  ∃ names, σ.db.find? snapshotsKey = some (.snapshots (names ++ [currentName])) ∧
    names.length = σ.snapshotId.val ∧
    ∀ n ∈ names, ∀ I o, (I, o) ∈ seen n ↔
      I ∈ F ∧ visible σ.db (Fin.ofNat 256 (names.idxOf n)) I = some o

variable {E : Env} {F : Set QByteArray} {σ σ' : Collection} {seen : SeenDocuments}

theorem Recorded.documentSteps (hF : PlainIds F) (h : Recorded F σ seen)
    (hsteps : DocumentSteps F σ.snapshotId σ.db σ'.db) (hid : σ'.snapshotId = σ.snapshotId) :
    Recorded F σ' seen := by
  obtain ⟨names, hnames, hlen, hseen⟩ := h
  refine ⟨names, ?_, by rw [hid, hlen], fun n hn I o => ?_⟩
  · rw [DocumentSteps.find?_of_isMetaKey hsteps isMetaKey_snapshotsKey, hnames]
  · rw [hseen n hn I o]
    refine and_congr_right fun hI => ?_
    rw [DocumentSteps.visible_of_lt hF.separated hsteps hI (ofNat_idxOf_lt hlen hn).2]

theorem Recorded.newSnapshot (hF : PlainIds F) (hσ : SerialInv F σ) (h : Recorded F σ seen)
    (snapshotName : QString)
    (hroom : ∀ l, σ.getSnapshotsValue E = .ok l → snapshotName ∈ l ∨ l.length ≤ 255) :
    Recorded F (σ.newSnapshot E snapshotName).2
      (record E σ (.newSnapshot snapshotName) (σ.newSnapshot E snapshotName).1 seen) := by
  have hinv := hσ.newSnapshot (E := E) hroom
  rcases hσ.newSnapshot_cases (E := E) snapshotName with
    ⟨hdb, hid, hr⟩ | ⟨names, hl, hlen, hnot, hr, hdb, hid⟩
  · rw [record, if_neg hr, Recorded, hdb, hid]
    exact h
  · obtain ⟨names', hnames', -, hseen⟩ := h
    obtain rfl : names' = names := by
      obtain ⟨b, hb, hbl⟩ := Collection.getSnapshotsValue_eq_ok_iff.mp hl
      rw [hnames'] at hb
      cases hb
      exact List.append_cancel_right hbl
    have hvis : ∀ j I, visible (σ.newSnapshot E snapshotName).2.db j I = visible σ.db j I :=
      fun j I => visible_congr fun t _ => by
        rw [hdb, SortedMap.find?_insert_of_ne _ _ (isKeyOf_linkKey I t).ne_snapshotsKey]
    have hnotMem : snapshotName ∉ names' := fun hmem => hnot (List.mem_append_left _ hmem)
    obtain ⟨names'', hnames'', hlen''⟩ := hinv.names
    have hlist : names'' = names' ++ [snapshotName] := by
      rw [hdb, SortedMap.find?_insert_self] at hnames''
      exact (List.append_cancel_right (Blob.snapshots.inj (Option.some.inj hnames''))).symm
    rw [hlist] at hnames'' hlen''
    rw [record, if_pos hr]
    refine ⟨names' ++ [snapshotName], hnames'', hlen'', fun n hn I o => ?_⟩
    rw [hvis]
    by_cases hnew : n = snapshotName
    · subst hnew
      have hidx : Fin.ofNat 256 ((names' ++ [n]).idxOf n) = σ.snapshotId := by
        refine Fin.ext ?_
        rw [List.idxOf_append_of_notMem hnotMem, List.idxOf_cons_self, Nat.add_zero, hlen]
        exact Nat.mod_eq_of_lt σ.snapshotId.isLt
      rw [Function.update_self, hidx]
      exact SerialStore.mem_documents_iff hF.separated (R := σ.reader E) hσ
    · have hmem : n ∈ names' := by
        rcases List.mem_append.mp hn with hn | hn
        · exact hn
        · exact absurd (List.mem_singleton.mp hn) hnew
      rw [Function.update_of_ne hnew, List.idxOf_append_of_mem hmem]
      exact hseen n hmem I o

theorem Recorded.revertToSnapshot (hF : PlainIds F) (hσ : SerialInv F σ) (h : Recorded F σ seen)
    (snapshotName : QString) : Recorded F (σ.revertToSnapshot E snapshotName).2 seen := by
  rcases Collection.revertToSnapshot_cases (E := E) hσ.names snapshotName with
    ⟨hdb, hid⟩ | ⟨names, i, hl, hlen, -, -, hi, hdb, hid, hnames⟩
  · rw [Recorded, hdb, hid]
    exact h
  · obtain ⟨names', hnames', -, hseen⟩ := h
    obtain rfl : names' = names := by
      obtain ⟨b, hb, hbl⟩ := Collection.getSnapshotsValue_eq_ok_iff.mp hl
      rw [hnames'] at hb
      cases hb
      exact List.append_cancel_right hbl
    have htake : (names'.take i.val).length = i.val := by
      rw [List.length_take, hlen]
      exact Nat.min_eq_left hi
    refine ⟨names'.take i.val, hnames, by rw [hid, htake], fun n hn I o => ?_⟩
    have hidx : (names'.take i.val).idxOf n = names'.idxOf n := by
      rw [← List.idxOf_append_of_mem hn, List.take_append_drop]
    have hlt := (ofNat_idxOf_lt htake hn).2
    rw [hidx] at hlt ⊢
    rw [hseen n (List.mem_of_mem_take hn) I o]
    refine and_congr_right fun hI => ?_
    -- the versions up to a kept snapshot are not dropped
    have hvis : visible (σ.revertToSnapshot E snapshotName).2.db (Fin.ofNat 256 (names'.idxOf n)) I =
        visible σ.db (Fin.ofNat 256 (names'.idxOf n)) I := by
      refine visible_congr fun t ht => ?_
      rw [hdb, Collection.find?_revert_linkKey hF.colonFree hσ.good.shape hI, if_neg]
      rw [Collection.mem_droppedIds hlen]
      exact fun hd => absurd hd.1 (not_lt_of_gt (ht.trans_lt hlt))
    rw [hvis]

theorem recorded_open (seen : SeenDocuments) : Recorded F (Collection.open E .empty) seen := by
  obtain ⟨hdb, hid⟩ := Collection.open_empty (E := E)
  refine ⟨[], ?_, by rw [hid]; rfl, fun n hn => absurd hn List.not_mem_nil⟩
  rw [hdb, SortedMap.find?_insert_self, List.nil_append]

/-- **Step**: a request of a serial run keeps what was recorded. -/
theorem recorded_served (hF : PlainIds F) {op : Op} {r : ResultEnum} (hop : SerialOp E F σ op)
    (happly : op.apply E σ = some (r, σ')) (hσ : SerialInv F σ) (h : Recorded F σ seen) :
    Recorded F σ' (record E σ op r seen) := by
  cases op with
  | transact op =>
    obtain rfl := congrArg Prod.snd (Option.some.inj happly)
    obtain ⟨hsteps, hid⟩ := hσ.transactAll (E := E) hF (List.forall_mem_singleton.mpr hop)
    exact h.documentSteps hF hsteps hid
  | batch ops =>
    obtain rfl := congrArg Prod.snd (Option.some.inj happly)
    obtain ⟨hsteps, hid⟩ := hσ.transactAll (E := E) hF hop
    exact h.documentSteps hF hsteps hid
  | newSnapshot snapshotName =>
    obtain rfl := congrArg Prod.snd (Option.some.inj happly)
    obtain rfl := congrArg Prod.fst (Option.some.inj happly)
    exact h.newSnapshot hF hσ snapshotName hop
  | revertToSnapshot snapshotName =>
    obtain rfl := congrArg Prod.snd (Option.some.inj happly)
    exact h.revertToSnapshot hF hσ snapshotName
  | removeSnapshot => exact hop.elim

theorem recorded_of_run (hF : PlainIds F) (h : RecordedRun E (SerialOp E F) σ seen) :
    SerialInv F σ ∧ Recorded F σ seen := by
  induction h with
  | opened seen => exact ⟨serialInv_open, recorded_open seen⟩
  | served _ hop happly ih =>
    exact ⟨serialInv_served hF hop happly ih.1, recorded_served hF hop happly ih.1 ih.2⟩

/-- **Immutability**: in a serial run, the documents seen through a named snapshot are
those of the current collection at the moment the snapshot was taken. -/
theorem documents_getSnapshot_of_recordedRun (hF : SafeIds F)
    (h : RecordedRun E (SerialOp E F) σ seen) (snapshotName : QString)
    (hname : snapshotName ≠ currentName) (snapshotId : Byte)
    (hid : σ.getSnapshotId E snapshotName = .ok snapshotId) :
    (σ.getSnapshot E snapshotId).documents E = seen snapshotName := by
  obtain ⟨hσ, names, hnames, -, hseen⟩ := recorded_of_run hF.plain h
  have hl : σ.getSnapshotsValue E = .ok (names ++ [currentName]) :=
    Collection.getSnapshotsValue_eq_ok_iff.mpr ⟨_, hnames, rfl⟩
  obtain ⟨hmem, rfl⟩ := (Collection.getSnapshotId_eq_ok_iff hl hname).mp hid
  ext ⟨I, o⟩
  rw [hseen snapshotName hmem I o]
  exact SerialStore.mem_documents_iff hF.separated
    (R := σ.getSnapshot E (Fin.ofNat 256 (names.idxOf snapshotName))) hσ

/-- A snapshot `A` is taken and the document removed: `A` still shows it. -/
theorem documents_getSnapshot_insertedA :
    (((((insertedA .map).newSnapshot (Env.plain .map) (qs "A")).2).transact (Env.plain .map)
        (.removeById (bytes "a") false)).2.getSnapshot (Env.plain .map) 0).documents
          (Env.plain .map) =
      ((insertedA .map).reader (Env.plain .map)).documents (Env.plain .map) := by
  have hinsert := (RecordedRun.opened fun _ => ∅).transact (E := Env.plain .map)
    (show SerialOp (Env.plain .map) oneByteIds _ (.transact (.insertField "a" "n" .null)) from
      txIds_insertFieldA)
  have hsnapshot := hinsert.newSnapshot
    (show SerialOp _ _ _ (.newSnapshot (qs "A")) from fun l hl => .inr (by cases hl; decide))
  have hremove := hsnapshot.transact
    (show SerialOp _ _ _ (.transact (.removeById (bytes "a") false)) from
      show bytes "a" ∈ oneByteIds by decide)
  have hsame := documents_getSnapshot_of_recordedRun safeIds_oneByteIds hremove
    (qs "A") (by decide) 0 (by decide)
  rw [record, if_pos (by decide), Function.update_self] at hsame
  exact hsame

end Qdocdb
