import Qdocdb.Serial

/-!
# Removing a snapshot

`removeSnapshot` passes once over the document keys: a version behind the removed
number moves down by one, a tombstone deletes the version it would replace, and the
last version that moved is deleted under its old number. So a tombstone turns into
the absence of a version (`removedAt_history`), and what it hid comes back unless it
hid nothing that survives (`snapshotRemoved_iff`).
-/

namespace Qdocdb

namespace Collection

variable {E : Env} {σ σ' : Collection}

/-! ## The loop over the versions -/

section ShiftVersions

variable {F : Set QByteArray} {i : Byte} {l : List (QByteArray × Blob)}
  {lastKey startKey : QByteArray} {removeStartKey : Bool}

theorem shiftVersions_linkKey (J : QByteArray) (t : Byte) (v : Blob) :
    shiftVersions i ((constructDocumentLinkKey J t, v) :: l) lastKey startKey removeStartKey =
      if i < t then
        if v.unmarshal.isUndefined = false then
          .put (constructDocumentLinkKey J (t - 1)) v ::
            shiftVersions i l (constructDocumentLinkKey J t) startKey false
        else
          .delete (constructDocumentLinkKey J (t - 1)) ::
            shiftVersions i l (constructDocumentLinkKey J t) startKey
              (removeStartKey || decide (t.val = i.val + 1))
      else shiftVersions i l lastKey startKey removeStartKey := by
  have hnew : (constructDocumentLinkKey J t).dropLast ++ [t - 1] =
      constructDocumentLinkKey J (t - 1) := by
    rw [constructDocumentLinkKey, List.dropLast_concat, constructDocumentLinkKey]
  rw [shiftVersions, isVersionKey_linkKey, if_pos rfl, lastByte_linkKey]
  simp only [hnew, Bool.not_eq_true']

theorem shiftVersions_startKey (hF : ColonFree F) {J : QByteArray} (hJ : J ∈ F) (v : Blob) :
    shiftVersions i ((constructDocumentStartKey J, v) :: l) lastKey startKey removeStartKey =
      deleteKey lastKey ++ (if removeStartKey then deleteKey startKey else []) ++
        shiftVersions i l [] (constructDocumentStartKey J) false := by
  rw [shiftVersions, isVersionKey_startKey (hF.ne_nil J hJ) (hF.colon_notMem J hJ),
    if_neg Bool.false_ne_true]

theorem mem_deleteKey {k : QByteArray} {w : WriteOp QByteArray Blob} :
    w ∈ deleteKey k ↔ w = .delete k ∧ k ≠ [] := by
  rw [deleteKey]
  by_cases h : k = []
  · simp [h]
  · simp [h]

theorem mem_ite_deleteKey {c : Bool} {k : QByteArray} {w : WriteOp QByteArray Blob} :
    w ∈ (if c then deleteKey k else []) ↔ c = true ∧ w = .delete k ∧ k ≠ [] := by
  cases c with
  | false => simp
  | true => simp [mem_deleteKey]

/-- The byte below a positive one. -/
theorem val_sub_one {i t : Byte} (h : i < t) : (t - 1).val = t.val - 1 := by
  have hlt : i.val < t.val := h
  have ht := t.isLt
  rw [Fin.sub_def]
  show (256 - 1 + t.val) % 256 = t.val - 1
  omega

/-- **Puts**: a value behind the removed number is put one number lower. -/
theorem put_mem_shiftVersions_iff (hF : ColonFree F) (hl : ∀ e ∈ l, ∃ J ∈ F, IsKeyOf J e.1)
    {k : QByteArray} {v : Blob} :
    .put k v ∈ shiftVersions i l lastKey startKey removeStartKey ↔
      ∃ J ∈ F, ∃ t, (constructDocumentLinkKey J t, v) ∈ l ∧ i < t ∧
        v.unmarshal.isUndefined = false ∧ k = constructDocumentLinkKey J (t - 1) := by
  induction l generalizing lastKey startKey removeStartKey with
  | nil =>
    rw [shiftVersions, List.mem_append, mem_deleteKey, mem_ite_deleteKey]
    simp
  | cons e l ih =>
    obtain ⟨⟨J, hJ, hk⟩, hl'⟩ := List.forall_mem_cons.mp hl
    obtain ⟨k', w⟩ := e
    rcases hk with rfl | ⟨s, rfl⟩
    · rw [shiftVersions_startKey hF hJ, List.mem_append, List.mem_append, mem_deleteKey,
        mem_ite_deleteKey, ih hl']
      constructor
      · rintro ((⟨h, -⟩ | ⟨-, h, -⟩) | ⟨J', hJ', t, hmem, h⟩)
        · cases h
        · cases h
        · exact ⟨J', hJ', t, List.mem_cons_of_mem _ hmem, h⟩
      · rintro ⟨J', hJ', t, hmem, h⟩
        refine .inr ⟨J', hJ', t, (List.mem_cons.mp hmem).resolve_left fun heq => ?_, h⟩
        exact hF.startKey_ne_linkKey hJ t (Prod.mk.inj heq).1.symm
    · have hrest : ∀ {lastKey removeStartKey}, (i < s → w.unmarshal.isUndefined = true) →
          (.put k v ∈ shiftVersions i l lastKey startKey removeStartKey ↔
            ∃ J' ∈ F, ∃ t, (constructDocumentLinkKey J' t, v) ∈
              (constructDocumentLinkKey J s, w) :: l ∧ i < t ∧ v.unmarshal.isUndefined = false ∧
                k = constructDocumentLinkKey J' (t - 1)) := by
        intro lastKey removeStartKey hundef
        rw [ih hl']
        refine exists_congr fun J' => and_congr_right fun _ => exists_congr fun t => ?_
        refine and_congr_left fun ⟨hit, hv, _⟩ => ⟨List.mem_cons_of_mem _, fun hmem => ?_⟩
        refine (List.mem_cons.mp hmem).resolve_left fun heq => ?_
        obtain ⟨hkey, rfl⟩ := Prod.mk.inj heq
        obtain ⟨-, rfl⟩ := constructDocumentLinkKey_inj.mp hkey
        rw [hundef hit] at hv
        cases hv
      rw [shiftVersions_linkKey]
      by_cases his : i < s
      · rw [if_pos his]
        cases hw : w.unmarshal.isUndefined with
        | true =>
          rw [if_neg (by simp), List.mem_cons, or_iff_right (by simp)]
          exact hrest fun _ => hw
        | false =>
          rw [if_pos rfl, List.mem_cons, ih hl', WriteOp.put.injEq]
          constructor
          · rintro (⟨rfl, rfl⟩ | ⟨J', hJ', t, hmem, h⟩)
            · exact ⟨J, hJ, s, List.mem_cons_self, his, hw, rfl⟩
            · exact ⟨J', hJ', t, List.mem_cons_of_mem _ hmem, h⟩
          · rintro ⟨J', hJ', t, hmem, hit, hv, rfl⟩
            rcases List.mem_cons.mp hmem with heq | hmem
            · obtain ⟨hkey, rfl⟩ := Prod.mk.inj heq
              obtain ⟨rfl, rfl⟩ := constructDocumentLinkKey_inj.mp hkey
              exact .inl ⟨rfl, rfl⟩
            · exact .inr ⟨J', hJ', t, hmem, hit, hv, rfl⟩
      · rw [if_neg his]
        exact hrest fun h => absurd h his

/-- A tombstone behind the removed number deletes the version below it. -/
theorem delete_mem_shiftVersions (hF : ColonFree F) (hl : ∀ e ∈ l, ∃ J ∈ F, IsKeyOf J e.1)
    {J : QByteArray} {t : Byte} {v : Blob}
    (hv : (constructDocumentLinkKey J t, v) ∈ l) (hit : i < t)
    (hundef : v.unmarshal.isUndefined = true) :
    .delete (constructDocumentLinkKey J (t - 1)) ∈
      shiftVersions i l lastKey startKey removeStartKey := by
  induction l generalizing lastKey startKey removeStartKey with
  | nil => cases hv
  | cons e l ih =>
    obtain ⟨⟨J', hJ', hk⟩, hl'⟩ := List.forall_mem_cons.mp hl
    obtain ⟨k', w⟩ := e
    rcases hk with rfl | ⟨s, rfl⟩
    · rw [shiftVersions_startKey hF hJ']
      refine List.mem_append_right _ (ih hl' ((List.mem_cons.mp hv).resolve_left fun heq => ?_))
      exact hF.startKey_ne_linkKey hJ' t (Prod.mk.inj heq).1.symm
    · rw [shiftVersions_linkKey]
      rcases List.mem_cons.mp hv with heq | hv
      · obtain ⟨hkey, rfl⟩ := Prod.mk.inj heq
        obtain ⟨rfl, rfl⟩ := constructDocumentLinkKey_inj.mp hkey
        rw [if_pos hit, hundef, if_neg (by simp)]
        exact List.mem_cons_self
      · split
        · split
          · exact List.mem_cons_of_mem _ (ih hl' hv)
          · exact List.mem_cons_of_mem _ (ih hl' hv)
        · exact ih hl' hv

/-- The last version that moved, and the entries still to come. -/
structure IsLast (F : Set QByteArray) (i : Byte) (l : List (QByteArray × Blob))
    (k : QByteArray) : Prop where
  eq : k = [] ∨ ∃ J ∈ F, ∃ s, i < s ∧ k = constructDocumentLinkKey J s
  lt : ∀ e ∈ l, k < e.1

/-- Why a version is deleted: a tombstone follows it, or it is the last one of its id. -/
inductive Deleted (i : Byte) (l : List (QByteArray × Blob)) (lastKey I : QByteArray) (t : Byte) :
    Prop
  | tombstone {t' : Byte} {v : Blob} (hval : t'.val = t.val + 1) (hit : i < t')
    (hmem : (constructDocumentLinkKey I t', v) ∈ l) (hv : v.unmarshal.isUndefined = true)
  | last (hit : i < t)
    (hmem : lastKey = constructDocumentLinkKey I t ∨ ∃ v, (constructDocumentLinkKey I t, v) ∈ l)
    (hnext : ∀ t' : Byte, t'.val = t.val + 1 → ∀ v, (constructDocumentLinkKey I t', v) ∉ l)

/-- A start key in front of the entries. -/
theorem Deleted.cons_startKey (hF : ColonFree F) {I J : QByteArray} (hJ : J ∈ F) {t : Byte}
    {w : Blob} (h : Deleted i l [] I t) :
    Deleted i ((constructDocumentStartKey J, w) :: l) lastKey I t := by
  have hhead : ∀ {t' v}, (constructDocumentLinkKey I t', v) ∈
      (constructDocumentStartKey J, w) :: l → (constructDocumentLinkKey I t', v) ∈ l :=
    fun hmem => (List.mem_cons.mp hmem).resolve_left fun heq =>
      hF.startKey_ne_linkKey hJ _ (Prod.mk.inj heq).1.symm
  cases h with
  | tombstone hval hit hmem hv => exact .tombstone hval hit (List.mem_cons_of_mem _ hmem) hv
  | last hit hmem hnext =>
    obtain ⟨v, hmem⟩ := hmem.resolve_left fun heq => absurd (congrArg List.length heq) (by simp)
    exact .last hit (.inr ⟨v, List.mem_cons_of_mem _ hmem⟩) fun t' ht' v' hmem' =>
      hnext t' ht' v' (hhead hmem')

/-- A version in front of the entries that became the last one. -/
theorem Deleted.cons_moved {I J : QByteArray} {s t : Byte} {w : Blob}
    (hes : ∀ e ∈ l, constructDocumentLinkKey J s < e.1)
    (h : Deleted i l (constructDocumentLinkKey J s) I t) :
    Deleted i ((constructDocumentLinkKey J s, w) :: l) lastKey I t := by
  cases h with
  | tombstone hval hit hmem hv => exact .tombstone hval hit (List.mem_cons_of_mem _ hmem) hv
  | last hit hmem hnext =>
    refine .last hit (.inr ?_) fun t' ht' v' hmem' => ?_
    · rcases hmem with heq | ⟨v, hmem⟩
      · exact ⟨w, by rw [← heq]; exact List.mem_cons_self⟩
      · exact ⟨v, List.mem_cons_of_mem _ hmem⟩
    · rcases List.mem_cons.mp hmem' with heq | hmem'
      · -- the version itself is not behind the one deleted
        obtain ⟨rfl, rfl⟩ := constructDocumentLinkKey_inj.mp (Prod.mk.inj heq).1
        rcases hmem with heq | ⟨v, hmem⟩
        · have hst := congrArg Fin.val (constructDocumentLinkKey_inj.mp heq).2
          omega
        · have hst : t'.val < t.val := linkKey_lt_linkKey_iff.mp (hes _ hmem)
          omega
      · exact hnext t' ht' v' hmem'

/-- A version in front of the entries that stays. -/
theorem Deleted.cons_kept {I J : QByteArray} {s t : Byte} {w : Blob} (his : ¬ i < s)
    (h : Deleted i l lastKey I t) :
    Deleted i ((constructDocumentLinkKey J s, w) :: l) lastKey I t := by
  cases h with
  | tombstone hval hit hmem hv => exact .tombstone hval hit (List.mem_cons_of_mem _ hmem) hv
  | last hit hmem hnext =>
    refine .last hit (hmem.imp_right fun h => h.imp fun _ => List.mem_cons_of_mem _)
      fun t' ht' v' hmem' => ?_
    rcases List.mem_cons.mp hmem' with heq | hmem'
    · obtain ⟨rfl, rfl⟩ := constructDocumentLinkKey_inj.mp (Prod.mk.inj heq).1
      have hlt' : i.val < t.val := hit
      exact absurd (Fin.lt_def.mpr (by omega)) his
    · exact hnext t' ht' v' hmem'

/-- **Deletions** have a reason. By induction on the entries, sorted and behind the last key. -/
theorem of_delete_linkKey_mem_shiftVersions (hF : ColonFree F)
    (hl : ∀ e ∈ l, ∃ J ∈ F, IsKeyOf J e.1) (hs : l.Pairwise fun a b => a.1 < b.1)
    (hlast : IsLast F i l lastKey) (hstart : IsStart F startKey) {I : QByteArray} (hI : I ∈ F)
    {t : Byte}
    (h : .delete (constructDocumentLinkKey I t) ∈
      shiftVersions i l lastKey startKey removeStartKey) : Deleted i l lastKey I t := by
  have hlastKey : lastKey = constructDocumentLinkKey I t → i < t := by
    intro heq
    rcases hlast.eq with hnil | ⟨J, -, s, his, hkey⟩
    · rw [hnil] at heq
      exact absurd (congrArg List.length heq) (by simp)
    · rwa [(constructDocumentLinkKey_inj.mp (heq.symm.trans hkey)).2]
  induction l generalizing lastKey startKey removeStartKey with
  | nil =>
    rw [shiftVersions, List.mem_append, mem_deleteKey, mem_ite_deleteKey] at h
    rcases h with ⟨h, -⟩ | ⟨-, h, -⟩
    · have heq := (WriteOp.delete.inj h).symm
      exact .last (hlastKey heq) (.inl heq) (by simp)
    · exact absurd (WriteOp.delete.inj h).symm (hstart.ne_linkKey hF t)
  | cons e l ih =>
    obtain ⟨⟨J, hJ, hk⟩, hl'⟩ := List.forall_mem_cons.mp hl
    obtain ⟨hes, hs'⟩ := List.pairwise_cons.mp hs
    obtain ⟨hle, hlt⟩ := List.forall_mem_cons.mp hlast.lt
    obtain ⟨k, w⟩ := e
    rcases hk with rfl | ⟨s, rfl⟩
    · rw [shiftVersions_startKey hF hJ, List.mem_append, List.mem_append, mem_deleteKey,
        mem_ite_deleteKey] at h
      rcases h with (⟨h, -⟩ | ⟨-, h, -⟩) | h
      · -- no version of `I` comes behind another start key
        have heq := (WriteOp.delete.inj h).symm
        refine .last (hlastKey heq) (.inl heq) fun t' _ v hmem => ?_
        have hmem := (List.mem_cons.mp hmem).resolve_left fun heq =>
          hF.startKey_ne_linkKey hJ t' (Prod.mk.inj heq).1.symm
        refine startKey_notBetween hF hI hJ (isKeyOf_linkKey I t) ?_ (hes _ hmem)
        rw [← heq]
        exact hle
      · exact absurd (WriteOp.delete.inj h).symm (hstart.ne_linkKey hF t)
      · have hlast' : IsLast F i l [] := ⟨.inl rfl, fun e he => by
          obtain ⟨J', -, hk⟩ := hl' e he
          obtain ⟨r, -, hr⟩ := hk.exists_eq
          rw [hr]
          exact List.nil_lt_cons _ _⟩
        exact (ih hl' hs' hlast' (.inr ⟨J, hJ, rfl⟩) h fun heq =>
          absurd (congrArg List.length heq) (by simp)).cons_startKey hF hJ
    · rw [shiftVersions_linkKey] at h
      by_cases his : i < s
      · -- the version becomes the last one
        rw [if_pos his] at h
        have hmoved : ∀ {b}, .delete (constructDocumentLinkKey I t) ∈
            shiftVersions i l (constructDocumentLinkKey J s) startKey b →
            Deleted i ((constructDocumentLinkKey J s, w) :: l) lastKey I t := fun h =>
          (ih hl' hs' ⟨.inr ⟨J, hJ, s, his, rfl⟩, hes⟩ hstart h fun heq => by
            rwa [← (constructDocumentLinkKey_inj.mp heq).2]).cons_moved hes
        split at h
        · rcases List.mem_cons.mp h with h | h
          · cases h
          · exact hmoved h
        · rename_i hundef
          rcases List.mem_cons.mp h with h | h
          · obtain ⟨rfl, rfl⟩ := constructDocumentLinkKey_inj.mp (WriteOp.delete.inj h)
            have hpos : i.val < s.val := his
            refine .tombstone ?_ his List.mem_cons_self (by simpa using hundef)
            rw [val_sub_one his]
            omega
          · exact hmoved h
      · rw [if_neg his] at h
        exact (ih hl' hs' ⟨hlast.eq, hlt⟩ hstart h hlastKey).cons_kept his

/-- The loop deletes keys of documents. -/
theorem isKeyOf_of_delete_mem_shiftVersions (hF : ColonFree F)
    (hl : ∀ e ∈ l, ∃ J ∈ F, IsKeyOf J e.1)
    (hlast : lastKey = [] ∨ ∃ J ∈ F, IsKeyOf J lastKey) (hstart : IsStart F startKey)
    {k : QByteArray} (h : .delete k ∈ shiftVersions i l lastKey startKey removeStartKey) :
    ∃ J ∈ F, IsKeyOf J k := by
  induction l generalizing lastKey startKey removeStartKey with
  | nil =>
    rw [shiftVersions, List.mem_append, mem_deleteKey, mem_ite_deleteKey] at h
    rcases h with ⟨h, hne⟩ | ⟨-, h, hne⟩
    · rw [WriteOp.delete.inj h]
      exact hlast.resolve_left hne
    · rw [WriteOp.delete.inj h]
      obtain ⟨J, hJ, rfl⟩ := hstart.resolve_left hne
      exact ⟨J, hJ, isKeyOf_startKey J⟩
  | cons e l ih =>
    obtain ⟨⟨J, hJ, hk⟩, hl'⟩ := List.forall_mem_cons.mp hl
    obtain ⟨k', w⟩ := e
    rcases hk with rfl | ⟨s, rfl⟩
    · rw [shiftVersions_startKey hF hJ, List.mem_append, List.mem_append, mem_deleteKey,
        mem_ite_deleteKey] at h
      rcases h with (⟨h, hne⟩ | ⟨-, h, hne⟩) | h
      · rw [WriteOp.delete.inj h]
        exact hlast.resolve_left hne
      · rw [WriteOp.delete.inj h]
        obtain ⟨J, hJ, rfl⟩ := hstart.resolve_left hne
        exact ⟨J, hJ, isKeyOf_startKey J⟩
      · exact ih hl' (.inl rfl) (.inr ⟨J, hJ, rfl⟩) h
    · rw [shiftVersions_linkKey] at h
      have hnew : ∃ J' ∈ F, IsKeyOf J' (constructDocumentLinkKey J s) :=
        ⟨J, hJ, isKeyOf_linkKey J s⟩
      split at h
      · split at h
        · rcases List.mem_cons.mp h with h | h
          · cases h
          · exact ih hl' (.inr hnew) hstart h
        · rcases List.mem_cons.mp h with h | h
          · rw [WriteOp.delete.inj h]
            exact ⟨J, hJ, isKeyOf_linkKey J _⟩
          · exact ih hl' (.inr hnew) hstart h
      · exact ih hl' hlast hstart h

end ShiftVersions

/-! ## The writes -/

/-- The writes of `removeSnapshot` on a collection without indexes. -/
def removeWrites (σ : Collection) (l : List QString) (i : Byte) :
    List (WriteOp QByteArray Blob) :=
  shiftVersions i (documentEntries σ.db) [] [] false ++
    Transaction.putSnapshotsValue (l.eraseIdx i.val)

/-- **removeSnapshot** of a listed name commits its writes, and then the current snapshot
number goes down by one. -/
theorem removeSnapshot_of_mem {n : QString} (hindexes : (σ.reader E).getIndexes = [])
    {l : List QString} (hl : σ.getSnapshotsValue E = .ok l) (hmem : n ∈ l) :
    ∃ r σ', σ.removeSnapshot E n = some (r, σ') ∧
      σ'.db = (commit E.backend σ.db (removeWrites σ l (Fin.ofNat 256 (l.idxOf n)))).2 ∧
      (r = .success ↔
        (commit E.backend σ.db (removeWrites σ l (Fin.ofNat 256 (l.idxOf n)))).1 = .success) ∧
      σ'.snapshotId = if r = .success then σ.snapshotId - 1 else σ.snapshotId := by
  rw [removeSnapshot, getSnapshotId, hl, hindexes]
  simp only [hmem, if_true, List.flatMap_nil, Option.map_some]
  generalize Fin.ofNat 256 (l.idxOf n) = i
  have hw := (Transaction.wrote_writes (E := E) σ.newTransaction
    (shiftVersions i (documentEntries σ.db) [] [] false)).trans
    ((Transaction.wrote_writes _ []).trans (Transaction.wrote_writes _
      (Transaction.putSnapshotsValue (l.eraseIdx i.val))))
  rw [List.nil_append, ← removeWrites] at hw
  obtain ⟨hc, hs⟩ := writeTransaction_spec (σ := σ) hw.kvdb
  generalize σ.writeTransaction E _ = result at hc hs
  obtain ⟨r, τ⟩ := result
  by_cases hr : r = .success
  · subst hr
    refine ⟨_, _, rfl, ?_, ?_, ?_⟩
    · rw [db_reloadObservers]
      exact hc.db
    · exact hs
    · rw [snapshotId_reloadObservers, if_pos rfl, ← hc.snapshotId]
  · refine ⟨r, τ, ?_, hc.db, hs, ?_⟩
    · cases r <;> first | rfl | exact absurd rfl hr
    · rw [if_neg hr, ← hc.snapshotId]

/-- A name that is not listed is not removed. -/
theorem removeSnapshot_of_notMem {n : QString} {l : List QString}
    (hl : σ.getSnapshotsValue E = .ok l) (hmem : n ∉ l) :
    σ.removeSnapshot E n = some (.errorInvalidObject, σ.noteSnapshotsError E) := by
  rw [removeSnapshot, getSnapshotId, hl]
  simp [hmem]

/-- **removeSnapshot**: when it succeeds the name is listed, and its writes are
committed; the current snapshot number goes down by one. -/
theorem removeSnapshot_spec {n : QString} (hindexes : (σ.reader E).getIndexes = [])
    (hr : σ.removeSnapshot E n = some (.success, σ')) :
    ∃ l, σ.getSnapshotsValue E = .ok l ∧ n ∈ l ∧
      (commit E.backend σ.db (removeWrites σ l (Fin.ofNat 256 (l.idxOf n)))).1 = .success ∧
      σ'.db = (commit E.backend σ.db (removeWrites σ l (Fin.ofNat 256 (l.idxOf n)))).2 ∧
      σ'.snapshotId = σ.snapshotId - 1 := by
  rcases hl : σ.getSnapshotsValue E with e | l
  · rw [removeSnapshot, getSnapshotId, hl] at hr
    simp at hr
  · by_cases hmem : n ∈ l
    · obtain ⟨r, τ, heq, hdb, hs, hid⟩ := removeSnapshot_of_mem hindexes hl hmem
      obtain ⟨rfl, rfl⟩ : r = .success ∧ τ = σ' := by simpa [hr, eq_comm] using heq
      exact ⟨l, rfl, hmem, hs.mp rfl, hdb, by rw [hid, if_pos rfl]⟩
    · rw [removeSnapshot_of_notMem hl hmem] at hr
      cases hr

section Writes

variable {F : Set QByteArray} (hF : ColonFree F) (hS : Shape F σ.db) {l : List QString} {i : Byte}
include hF hS

/-- The version put under a number was one number higher. -/
theorem put_linkKey_mem_removeWrites_iff {I : QByteArray} (hI : I ∈ F) {t : Byte} {v : Blob} :
    .put (constructDocumentLinkKey I t) v ∈ removeWrites σ l i ↔
      ∃ t', t'.val = t.val + 1 ∧ i < t' ∧ σ.db.find? (constructDocumentLinkKey I t') = some v ∧
        v.unmarshal.isUndefined = false := by
  have hnot : WriteOp.put (constructDocumentLinkKey I t) v ∉
      Transaction.putSnapshotsValue (l.eraseIdx i.val) := fun h =>
    (isKeyOf_linkKey I t).ne_snapshotsKey (WriteOp.put.inj (List.mem_singleton.mp h)).1
  rw [removeWrites, List.mem_append, or_iff_left hnot,
    put_mem_shiftVersions_iff hF fun e he => ((mem_documentEntries_iff hS).mp he).2]
  constructor
  · rintro ⟨J, hJ, t', hmem, hit, hv, hk⟩
    obtain ⟨rfl, rfl⟩ := constructDocumentLinkKey_inj.mp hk
    have hpos : i.val < t'.val := hit
    refine ⟨t', ?_, hit, SortedMap.find?_eq_some_iff.mpr ((mem_documentEntries_iff hS).mp hmem).1, hv⟩
    rw [val_sub_one hit]
    omega
  · rintro ⟨t', hval, hit, hfind, hv⟩
    refine ⟨I, hI, t', (mem_documentEntries_iff hS).mpr
      ⟨SortedMap.find?_eq_some_iff.mp hfind, I, hI, isKeyOf_linkKey I t'⟩, hit, hv, ?_⟩
    have ht : t' - 1 = t := Fin.ext (by rw [val_sub_one hit]; omega)
    rw [ht]

/-- A version is deleted when a tombstone was one number higher, or nothing. -/
theorem of_delete_linkKey_mem_removeWrites {I : QByteArray} (hI : I ∈ F) {t : Byte}
    (h : .delete (constructDocumentLinkKey I t) ∈ removeWrites σ l i) :
    (∃ t' v, t'.val = t.val + 1 ∧ i < t' ∧
        σ.db.find? (constructDocumentLinkKey I t') = some v ∧ v.unmarshal.isUndefined = true) ∨
      (i < t ∧ σ.db.find? (constructDocumentLinkKey I t) ≠ none ∧
        ∀ t' : Byte, t'.val = t.val + 1 →
          σ.db.find? (constructDocumentLinkKey I t') = none) := by
  have hmem : .delete (constructDocumentLinkKey I t) ∈
      shiftVersions i (documentEntries σ.db) [] [] false :=
    (List.mem_append.mp h).resolve_right fun h => by cases List.mem_singleton.mp h
  have hentries : ∀ e ∈ documentEntries σ.db, ∃ J ∈ F, IsKeyOf J e.1 := fun e he =>
    ((mem_documentEntries_iff hS).mp he).2
  have hlast : IsLast F i (documentEntries σ.db) [] := ⟨.inl rfl, fun e he => by
    obtain ⟨J, -, hk⟩ := hentries e he
    obtain ⟨r, -, hr⟩ := hk.exists_eq
    rw [hr]
    exact List.nil_lt_cons _ _⟩
  have hfind : ∀ {t' : Byte} {v}, (constructDocumentLinkKey I t', v) ∈ documentEntries σ.db ↔
      σ.db.find? (constructDocumentLinkKey I t') = some v := fun {t' v} => by
    rw [mem_documentEntries_iff hS, SortedMap.find?_eq_some_iff]
    exact and_iff_left ⟨I, hI, isKeyOf_linkKey I t'⟩
  cases of_delete_linkKey_mem_shiftVersions hF hentries (sorted_documentEntries _) hlast
    (.inl rfl) hI hmem with
  | tombstone hval hit hv hundef => exact .inl ⟨_, _, hval, hit, hfind.mp hv, hundef⟩
  | last hit hthere hnext =>
    refine .inr ⟨hit, ?_, fun t' ht' => ?_⟩
    · obtain ⟨v, hv⟩ := hthere.resolve_left fun h => by
        simpa using congrArg List.length h
      simp [hfind.mp hv]
    rw [Option.eq_none_iff_forall_not_mem]
    exact fun v hv => hnext t' ht' v (hfind.mpr hv)

/-- No key is both put and deleted. -/
theorem put_notMem_removeWrites_of_delete_mem {k : QByteArray}
    (h : .delete k ∈ removeWrites σ l i) (v : Blob) : .put k v ∉ removeWrites σ l i := by
  have hentries : ∀ e ∈ documentEntries σ.db, ∃ J ∈ F, IsKeyOf J e.1 := fun e he =>
    ((mem_documentEntries_iff hS).mp he).2
  have hdel : .delete k ∈ shiftVersions i (documentEntries σ.db) [] [] false :=
    (List.mem_append.mp h).resolve_right fun h => by cases List.mem_singleton.mp h
  obtain ⟨J, hJ, hk⟩ :=
    isKeyOf_of_delete_mem_shiftVersions hF hentries (.inl rfl) (.inl rfl) hdel
  intro hput
  rcases hk with rfl | ⟨t, rfl⟩
  · -- only versions are put
    rcases List.mem_append.mp hput with hput | hput
    · obtain ⟨I, hI, t, -, -, -, hkey⟩ := (put_mem_shiftVersions_iff hF hentries).mp hput
      exact hF.startKey_ne_linkKey hJ _ hkey
    · exact (isKeyOf_startKey J).ne_snapshotsKey (WriteOp.put.inj (List.mem_singleton.mp hput)).1
  · obtain ⟨t', hval, -, hfind, hv⟩ := (put_linkKey_mem_removeWrites_iff hF hS hJ).mp hput
    rcases of_delete_linkKey_mem_removeWrites hF hS hJ h with
      ⟨s, w, hval', -, hfind', hundef⟩ | ⟨-, -, hnone⟩
    · obtain rfl : s = t' := Fin.ext (hval'.trans hval.symm)
      obtain rfl := Option.some.inj (hfind'.symm.trans hfind)
      rw [hundef] at hv
      cases hv
    · rw [hnone t' hval] at hfind
      cases hfind

/-- A successful commit applies the writes in order. -/
theorem commit_removeWrites
    (hs : (commit E.backend σ.db (removeWrites σ l i)).1 = .success) :
    (commit E.backend σ.db (removeWrites σ l i)).2 = σ.db.applyLog (removeWrites σ l i) := by
  refine commit_eq_applyLog hs fun _ k hk => lastPut_eq_none_iff.mpr ?_
  obtain ⟨w, hw, hwk, hwo⟩ := exists_mem_of_lastWrite_eq_some hk
  have hdel : w = .delete k := WriteOp.ext_key_outcome hwk hwo
  exact put_notMem_removeWrites_of_delete_mem hF hS (hdel ▸ hw)

/-- Keys of documents are written, and the list of snapshots. -/
theorem key_of_mem_removeWrites {w : WriteOp QByteArray Blob} (hw : w ∈ removeWrites σ l i) :
    (∃ J ∈ F, IsKeyOf J w.key) ∨ w = .put snapshotsKey (.snapshots (l.eraseIdx i.val)) := by
  have hentries : ∀ e ∈ documentEntries σ.db, ∃ J ∈ F, IsKeyOf J e.1 := fun e he =>
    ((mem_documentEntries_iff hS).mp he).2
  refine (List.mem_append.mp hw).imp (fun hw => ?_) List.mem_singleton.mp
  cases w with
  | put k v =>
    obtain ⟨J, hJ, t, -, -, -, hk⟩ := (put_mem_shiftVersions_iff hF hentries).mp hw
    exact ⟨J, hJ, .inr ⟨t - 1, hk⟩⟩
  | delete k => exact isKeyOf_of_delete_mem_shiftVersions hF hentries (.inl rfl) (.inl rfl) hw

omit hF hS in
/-- Versions that the writes do not mention stay. -/
theorem find?_removeWrites_of_notMem {I : QByteArray} {t : Byte}
    (hput : ∀ v, .put (constructDocumentLinkKey I t) v ∉ removeWrites σ l i)
    (hdel : .delete (constructDocumentLinkKey I t) ∉ removeWrites σ l i) :
    (σ.db.applyLog (removeWrites σ l i)).find? (constructDocumentLinkKey I t) =
      σ.db.find? (constructDocumentLinkKey I t) := by
  refine SortedMap.find?_applyLog_of_forall_ne _ fun w hw hwk => ?_
  cases w with
  | put k v => exact hput v (hwk ▸ hw)
  | delete k => exact hdel (hwk ▸ hw)

end Writes

/-! ## The history of an id -/

/-- What is no empty value is a document, or undefined. -/
theorem isUndefined_unmarshal_eq {v : Blob} (hv : v ≠ .empty) :
    v.unmarshal.isUndefined = v.document?.isNone := by
  cases v with
  | empty => exact absurd rfl hv
  | _ => rfl

/-- **Renumbering**: removing the snapshot `i` renumbers the history of every id. -/
theorem removedAt_history {F : Set QByteArray} (hF : PlainIds F) (h : SerialInv F σ)
    {l : List QString} {i : Byte} {I : QByteArray} (hI : I ∈ F) :
    History.RemovedAt i.val (history σ.db I)
      (history (σ.db.applyLog (removeWrites σ l i)) I) := by
  have hS := h.good.shape
  have hput := fun t v =>
    put_linkKey_mem_removeWrites_iff hF.colonFree hS (l := l) (i := i) hI (t := t) (v := v)
  have hdel := fun t =>
    of_delete_linkKey_mem_removeWrites hF.colonFree hS (l := l) (i := i) hI (t := t)
  -- the version one number higher, as a byte
  have hsucc : ∀ t e, history σ.db I (t + 1) = some e →
      ∃ s s' : Byte, s.val = t ∧ s'.val = s.val + 1 ∧
        ∃ v, σ.db.find? (constructDocumentLinkKey I s') = some v ∧ v.document? = e := by
    intro t e he
    obtain ⟨v, hv, hdoc⟩ := Option.map_eq_some_iff.mp he
    have hlt : t + 1 < 256 := by
      by_contra hge
      rw [version_of_le _ _ (by omega)] at hv
      cases hv
    rw [version, dif_pos hlt] at hv
    exact ⟨⟨t, by omega⟩, ⟨t + 1, hlt⟩, rfl, rfl, v, hv, hdoc⟩
  refine ⟨fun t ht => ?_, fun t o hit he => ?_, fun t hit he => ?_, fun t hit he => ?_⟩
  · have htb : t < 256 := ht.trans i.isLt
    obtain ⟨s, rfl⟩ : ∃ s : Byte, s.val = t := ⟨⟨t, htb⟩, rfl⟩
    rw [history_val, history_val, find?_removeWrites_of_notMem (fun v hv => ?_) fun hd => ?_]
    · obtain ⟨s', hval, his, -⟩ := (hput s v).mp hv
      have his' : i.val < s'.val := his
      omega
    · rcases hdel s hd with ⟨s', -, hval, his, -⟩ | ⟨his, -⟩
      · have his' : i.val < s'.val := his
        omega
      · exact absurd his (not_lt_of_gt ht)
  · obtain ⟨s, s', rfl, hval, v, hv, hdoc⟩ := hsucc t (some o) he
    have his : i < s' := Fin.lt_def.mpr (by omega)
    have hundef := isUndefined_unmarshal_eq (h.value I hI s' v hv)
    rw [hdoc, Option.isNone_some] at hundef
    have hmem := (hput s v).mpr ⟨s', hval, his, hv, hundef⟩
    rw [history_val, SortedMap.find?_applyLog_of_put _ hmem, Option.map_some, hdoc]
    intro w hw hwk
    cases w with
    | put k v' =>
      obtain rfl : k = _ := hwk
      obtain ⟨s'', hval', -, hv', -⟩ := (hput s v').mp hw
      obtain rfl : s'' = s' := Fin.ext (hval'.trans hval.symm)
      rw [Option.some.inj (hv'.symm.trans hv)]
    | delete k =>
      obtain rfl : k = _ := hwk
      exact absurd hmem (put_notMem_removeWrites_of_delete_mem hF.colonFree hS hw v)
  · obtain ⟨s, s', rfl, hval, v, hv, hdoc⟩ := hsucc t none he
    have his : i < s' := Fin.lt_def.mpr (by omega)
    have hundef := isUndefined_unmarshal_eq (h.value I hI s' v hv)
    rw [hdoc, Option.isNone_none] at hundef
    have hs : s' - 1 = s := Fin.ext (by rw [val_sub_one his]; omega)
    have hmem : .delete (constructDocumentLinkKey I s) ∈ removeWrites σ l i := by
      refine List.mem_append_left _ (hs ▸ delete_mem_shiftVersions hF.colonFree
        (fun e he => ((mem_documentEntries_iff hS).mp he).2) ?_ his hundef)
      exact (mem_documentEntries_iff hS).mpr
        ⟨SortedMap.find?_eq_some_iff.mp hv, I, hI, isKeyOf_linkKey I s'⟩
    rw [history_val, SortedMap.find?_applyLog_of_delete _ hmem
      (put_notMem_removeWrites_of_delete_mem hF.colonFree hS hmem), Option.map_none]
  · by_cases htb : t < 256
    · obtain ⟨s, rfl⟩ : ∃ s : Byte, s.val = t := ⟨⟨t, htb⟩, rfl⟩
      have hnext : ∀ s' : Byte, s'.val = s.val + 1 →
          σ.db.find? (constructDocumentLinkKey I s') = none := by
        intro s' hval
        rw [← hval, history_val, Option.map_eq_none_iff] at he
        exact he
      have hnoput : ∀ v, .put (constructDocumentLinkKey I s) v ∉ removeWrites σ l i := by
        intro v hv
        obtain ⟨s', hval, -, hfind, -⟩ := (hput s v).mp hv
        rw [hnext s' hval] at hfind
        cases hfind
      by_cases hd : .delete (constructDocumentLinkKey I s) ∈ removeWrites σ l i
      · rcases hdel s hd with ⟨s', v, hval, -, hfind, -⟩ | ⟨his, -⟩
        · rw [hnext s' hval] at hfind
          cases hfind
        · refine .inr ⟨his, ?_⟩
          rw [history_val, SortedMap.find?_applyLog_of_delete _ hd hnoput, Option.map_none]
      · refine .inl ?_
        rw [history_val, history_val, find?_removeWrites_of_notMem hnoput hd]
    · refine .inl ?_
      rw [history, history, version_of_le _ _ (by omega), version_of_le _ _ (by omega)]

end Collection

/-! ## When removing leaves the other views alone -/

/-- What removing the snapshot number `i` should lead to: the current documents and
those seen from the numbers below `i` stay, and the other views move down by one. -/
structure SnapshotRemoved (F : Set QByteArray) (i : ℕ) (σ σ' : Collection) : Prop where
  current : ∀ I ∈ F, visible σ'.db σ'.snapshotId I = visible σ.db σ.snapshotId I
  before : ∀ I ∈ F, ∀ j < i, (history σ'.db I).view j = (history σ.db I).view j
  after : ∀ I ∈ F, ∀ j, i ≤ j → (history σ'.db I).view j = (history σ.db I).view (j + 1)

variable {E : Env} {F : Set QByteArray} {σ σ' : Collection} {n : QString} {i : Byte}

/-- **removeSnapshot** of a named snapshot commits its writes in order. -/
theorem NumberedStore.removeSnapshot_cases (hF : PlainIds F)
    (h : NumberedStore F σ.snapshotId σ.db) (hn : n ≠ currentName)
    (hr : σ.removeSnapshot E n = some (.success, σ')) :
    ∃ names i, σ.getSnapshotsValue E = .ok (names ++ [currentName]) ∧
      names.length = σ.snapshotId.val ∧ n ∈ names ∧ i.val = names.idxOf n ∧ i < σ.snapshotId ∧
      σ'.db = σ.db.applyLog (Collection.removeWrites σ (names ++ [currentName]) i) ∧
      σ'.snapshotId.val + 1 = σ.snapshotId.val := by
  obtain ⟨l, hl, hmem, hs, hdb, hid⟩ := Collection.removeSnapshot_spec h.getIndexes_eq_nil hr
  obtain ⟨names, hnames, hlen⟩ := Collection.exists_names h.names E
  obtain rfl := Except.ok.inj (hl.symm.trans hnames)
  have hmem' : n ∈ names := (List.mem_append.mp hmem).resolve_right fun h =>
    hn (List.mem_singleton.mp h)
  rw [List.idxOf_append_of_mem hmem'] at hs hdb
  rw [Collection.commit_removeWrites hF.colonFree h.good.shape hs] at hdb
  obtain ⟨hval, hlt⟩ := ofNat_idxOf_lt hlen hmem'
  have hpos : (Fin.ofNat 256 (names.idxOf n)).val < σ.snapshotId.val := hlt
  refine ⟨names, _, hl, hlen, hmem', hval, hlt, hdb, ?_⟩
  rw [hid, Collection.val_sub_one hlt]
  omega

/-- Removing a named snapshot keeps the numbers. -/
theorem NumberedStore.removeSnapshot (hF : PlainIds F) (h : NumberedStore F σ.snapshotId σ.db)
    (hn : n ≠ currentName) (hr : σ.removeSnapshot E n = some (.success, σ')) :
    NumberedStore F σ'.snapshotId σ'.db := by
  obtain ⟨names, i, -, hlen, hmem, hval, hlt, hdb, hcur⟩ := h.removeSnapshot_cases hF hn hr
  have hS := h.good.shape
  have hkey := fun {w} => Collection.key_of_mem_removeWrites hF.colonFree hS
    (l := names ++ [currentName]) (i := i) (w := w)
  have hidx : i.val < names.length := hval ▸ List.idxOf_lt_length_of_mem hmem
  refine ⟨fun k v hkv => ?_, ?_, names.eraseIdx i.val, ?_, ?_⟩
  · rw [hdb] at hkv
    rcases SortedMap.find?_applyLog_eq_some hkv with hkv | hput
    · exact h.good k v hkv
    · rcases hkey hput with ⟨J, hJ, hk⟩ | heq
      · rcases hk with rfl | ⟨t, rfl⟩
        · rcases List.mem_append.mp hput with hput | hput
          · obtain ⟨I, hI, t, -, -, -, hk⟩ := (Collection.put_mem_shiftVersions_iff hF.colonFree
              fun e he => ((Collection.mem_documentEntries_iff hS).mp he).2).mp hput
            exact absurd hk (hF.separated.startKey_ne_linkKey hJ hI _)
          · exact absurd (WriteOp.put.inj (List.mem_singleton.mp hput)).1
              (isKeyOf_startKey J).ne_snapshotsKey
        · -- the value moved from a version of the same id
          obtain ⟨t', -, -, hfind, -⟩ :=
            (Collection.put_linkKey_mem_removeWrites_iff hF.colonFree hS hJ).mp hput
          refine ⟨.inl ⟨J, hJ, isKeyOf_linkKey J t⟩, ?_⟩
          rintro o rfl
          obtain ⟨sid, s, hsid, hk⟩ := (h.good _ _ hfind).document o rfl
          exact ⟨sid, t, hsid, by rw [(constructDocumentLinkKey_inj.mp hk).1]⟩
      · cases heq
        exact goodBinding_of_isMetaKey isMetaKey_snapshotsKey (by simp)
  · rw [hdb, SortedMap.find?_applyLog_of_forall_ne _ fun w hw hwk => ?_, h.noIndexes]
    rcases hkey hw with ⟨J, -, hk⟩ | rfl
    · exact hk.ne_indexesKey hwk
    · exact absurd hwk (show snapshotsKey ≠ indexesKey by decide)
  · rw [← List.eraseIdx_append_of_lt_length hidx]
    have hput : WriteOp.put snapshotsKey (.snapshots ((names ++ [currentName]).eraseIdx i.val)) ∈
        Collection.removeWrites σ (names ++ [currentName]) i :=
      List.mem_append_right _ (List.mem_singleton.mpr rfl)
    rw [hdb]
    refine SortedMap.find?_applyLog_of_put _ hput fun w hw hwk => ?_
    rcases hkey hw with ⟨J, -, hk⟩ | rfl
    · exact absurd hwk hk.ne_snapshotsKey
    · rfl
  · rw [List.length_eraseIdx_of_lt hidx]
    omega

/-- **Removing a snapshot** after serial use leaves the other views alone if and only
if no tombstone behind it hides a document that survives. -/
theorem snapshotRemoved_iff (hF : SafeIds F) (h : Reachable E (SerialOp E F) σ)
    (hn : n ≠ currentName) (hi : σ.getSnapshotId E n = .ok i)
    (hr : σ.removeSnapshot E n = some (.success, σ')) :
    SnapshotRemoved F i.val σ σ' ↔
      ∀ I ∈ F, ∀ t, i.val < t → history σ.db I t = some none →
        (history σ.db I).HidesNothing i.val t := by
  have hσ := serialInv_of_reachable hF.plain h
  obtain ⟨names, i', hnames, -, hmem, hval, hlt, hdb, hcur⟩ :=
    hσ.removeSnapshot_cases hF.plain hn hr
  obtain rfl : i = i' := by
    rw [← ((Collection.getSnapshotId_eq_ok_iff hnames hn).mp hi).2, ← hval, Fin.ofNat_val_eq_self]
  have hremoved : ∀ I ∈ F, History.RemovedAt i.val (history σ.db I) (history σ'.db I) :=
    fun I hI => by
      rw [hdb]
      exact Collection.removedAt_history hF.plain hσ hI
  constructor
  · exact fun hrem I hI => (hremoved I hI).view_iff.mp (hrem.after I hI)
  · intro hc
    have hafter : ∀ I ∈ F, ∀ j, i.val ≤ j →
        (history σ'.db I).view j = (history σ.db I).view (j + 1) := fun I hI =>
      (hremoved I hI).view_iff.mpr (hc I hI)
    refine ⟨fun I hI => ?_, fun I hI j hj => (hremoved I hI).view_lt hj, hafter⟩
    have hle : i.val ≤ σ'.snapshotId.val := by
      have hpos : i.val < σ.snapshotId.val := hlt
      omega
    rw [visible, hafter I hI _ hle, hcur, visible]

/-- Behind the snapshot `A`, `a` is removed and `b` is inserted, and then `B` is taken. -/
def insertedBehindA : Collection :=
  ((((snapshotA .levelDB).transact (Env.plain .levelDB) (.removeById (bytes "a") false)).2.transact
    (Env.plain .levelDB) (.insertField "b" "n" .null)).2.newSnapshot (Env.plain .levelDB)
      (qs "B")).2

theorem reachable_insertedBehindA :
    Reachable (Env.plain .levelDB) (SerialOp (Env.plain .levelDB) oneByteIds) insertedBehindA := by
  have hremoved := reachable_snapshotA.transact
    (show SerialOp (Env.plain .levelDB) oneByteIds _ (.transact (.removeById (bytes "a") false)) from
      show bytes "a" ∈ oneByteIds by decide)
  have hok : SerialOp (Env.plain .levelDB) oneByteIds
      ((snapshotA .levelDB).transact (Env.plain .levelDB) (.removeById (bytes "a") false)).2
      (.transact (.insertField "b" "n" .null)) := fun id d h => by
    obtain rfl : bytes "b" = id := (Prod.mk.inj (Option.some.inj h)).1
    decide
  refine (hremoved.transact hok).newSnapshot fun l hl => .inr ?_
  cases hl
  decide

theorem entries_insertedBehindA : insertedBehindA.db.entries =
    [(constructDocumentStartKey (bytes "a"), .empty),
      (constructDocumentLinkKey (bytes "a") 0,
        .document (QJsonObject.insert [(qs "_id", .string (qs "a"))] (qs "n") .null)),
      (constructDocumentLinkKey (bytes "a") 1, .tombstone),
      (constructDocumentStartKey (bytes "b"), .empty),
      (constructDocumentLinkKey (bytes "b") 1,
        .document (QJsonObject.insert [(qs "_id", .string (qs "b"))] (qs "n") .null)),
      (snapshotsKey, .snapshots [qs "A", qs "B", currentName])] := by
  decide

/-- Removing `A` takes `a` away together with its tombstone, and `b` moves down. -/
theorem snapshotRemoved_insertedBehindA :
    ∃ σ', insertedBehindA.removeSnapshot (Env.plain .levelDB) (qs "A") = some (.success, σ') ∧
      σ'.db.entries = [(constructDocumentStartKey (bytes "b"), .empty),
        (constructDocumentLinkKey (bytes "b") 0,
          .document (QJsonObject.insert [(qs "_id", .string (qs "b"))] (qs "n") .null)),
        (snapshotsKey, .snapshots [qs "B", currentName])] ∧
      SnapshotRemoved oneByteIds 0 insertedBehindA σ' := by
  have hremoved : (insertedBehindA.removeSnapshot (Env.plain .levelDB) (qs "A")).map
      (fun r => (r.1, r.2.db.entries)) = some (.success,
        [(constructDocumentStartKey (bytes "b"), .empty),
          (constructDocumentLinkKey (bytes "b") 0,
            .document (QJsonObject.insert [(qs "_id", .string (qs "b"))] (qs "n") .null)),
          (snapshotsKey, .snapshots [qs "B", currentName])]) := by decide
  obtain ⟨⟨r, σ'⟩, hr, hres⟩ := Option.map_eq_some_iff.mp hremoved
  obtain ⟨rfl, hentries⟩ := Prod.mk.inj hres
  refine ⟨σ', hr, hentries, (snapshotRemoved_iff safeIds_oneByteIds reachable_insertedBehindA
    (by decide) (i := 0) (by decide) hr).mpr fun I hI t ht he => ?_⟩
  -- the only tombstone has the number 1, and nothing is below it and `A`
  obtain ⟨b, hb, hundef⟩ := Option.map_eq_some_iff.mp he
  rw [version] at hb
  split at hb
  · rename_i hlt
    have hmem := SortedMap.find?_eq_some_iff.mp hb
    simp only [entries_insertedBehindA, List.mem_cons, Prod.mk.injEq, List.not_mem_nil,
      or_false] at hmem
    have hlink : ∀ {J s}, constructDocumentLinkKey I ⟨t, hlt⟩ = constructDocumentLinkKey J s →
        t = s.val := fun hk => congrArg Fin.val (constructDocumentLinkKey_inj.mp hk).2
    have hstart : ∀ {J}, J ∈ oneByteIds →
        constructDocumentLinkKey I ⟨t, hlt⟩ ≠ constructDocumentStartKey J := fun hJ hk =>
      safeIds_oneByteIds.separated.startKey_ne_linkKey hJ hI _ hk.symm
    rcases hmem with ⟨hk, -⟩ | ⟨hk, -⟩ | ⟨hk, -⟩ | ⟨hk, -⟩ | ⟨hk, rfl⟩ | ⟨hk, -⟩
    · exact absurd hk (hstart (by decide))
    · exact absurd (hlink hk) ht.ne'
    · have hone : t = 1 := hlink hk
      rw [hone, History.HidesNothing]
      exact if_pos rfl ▸ fun j hj => absurd hj (Nat.succ_ne_zero j).symm
    · exact absurd hk (hstart (by decide))
    · cases hundef
    · exact absurd hk (isKeyOf_linkKey I _).ne_snapshotsKey
  · cases hb

/-- `a` is removed behind two snapshots. -/
def removedBehindB : Collection :=
  (((snapshotA .levelDB).newSnapshot (Env.plain .levelDB) (qs "B")).2.transact
    (Env.plain .levelDB) (.removeById (bytes "a") false)).2

theorem reachable_removedBehindB :
    Reachable (Env.plain .levelDB) (SerialOp (Env.plain .levelDB) oneByteIds) removedBehindB := by
  refine (reachable_snapshotA.newSnapshot fun l hl => .inr ?_).transact
    (show SerialOp _ _ _ (.transact (.removeById (bytes "a") false)) from
      show bytes "a" ∈ oneByteIds by decide)
  cases hl
  decide

/-- Removing the younger snapshot brings `a` back. -/
theorem not_snapshotRemoved :
    ¬ ∀ (E : Env) (F : Set QByteArray) (σ σ' : Collection) (n : QString) (i : Byte), SafeIds F →
      Reachable E (SerialOp E F) σ → n ≠ currentName → σ.getSnapshotId E n = .ok i →
      σ.removeSnapshot E n = some (.success, σ') → SnapshotRemoved F i.val σ σ' := by
  intro h
  have hseen : (removedBehindB.removeSnapshot (Env.plain .levelDB) (qs "B")).map
      (fun r => (r.1, (visible r.2.db r.2.snapshotId (bytes "a")).isSome)) =
        some (.success, true) := by decide
  obtain ⟨⟨r, σ'⟩, hr, hres⟩ := Option.map_eq_some_iff.mp hseen
  obtain ⟨rfl, hvis⟩ := Prod.mk.inj hres
  have hcur := (h (Env.plain .levelDB) oneByteIds removedBehindB σ' (qs "B") 1 safeIds_oneByteIds
    reachable_removedBehindB (by decide) (by decide) hr).current (bytes "a") (by decide)
  have hnone : visible removedBehindB.db removedBehindB.snapshotId (bytes "a") = none := by decide
  rw [hcur, hnone] at hvis
  cases hvis

end Qdocdb
