import Qdocdb.Enumeration
import Qdocdb.IndexCompleteness
import Qdocdb.Server

/-!
# The ids modified after a snapshot

`getModified` of a snapshot walks over the documents and lists those of which
`isModifiedLater` finds a version with a greater number. It reads the number into an `int`
from a `char`, which is signed, so the numbers from 128 on look negative and are not
greater than any snapshot. The list has every id that differs from the current view if and
only if each of them has a version behind the snapshot below 128
(`modifiedComplete_iff`).
-/

namespace Qdocdb

/-- A byte as a `char`. -/
def signedChar (b : Byte) : ℤ := if b.val < 128 then b.val else b.val - 256

/-- The loop of `isModifiedLater` behind a prefix, with the flag `isNotModifiedLater`. -/
def scanModified (keyPrefix : QByteArray) (s : Byte) :
    List (QByteArray × Blob) → Bool → Bool × List (QByteArray × Blob)
  | [], isNotModifiedLater => (isNotModifiedLater, [])
  | e :: es, isNotModifiedLater =>
    if keyPrefix <+: e.1 ∧ isNotModifiedLater = true then
      scanModified keyPrefix s es
        (if keyPrefix.length + 1 < e.1.length ∧ (s.val : ℤ) < signedChar (lastByte e.1) then false
        else isNotModifiedLater)
    else (isNotModifiedLater, e :: es)

/-- `iterator::isModifiedLater`; it leaves `kvit` where the loop ended. -/
def Iterator.isModifiedLater (B : Backend) (db : Store) (it : Iterator) : Bool × Iterator :=
  let scan := scanModified it.keyPrefix it.snapshotId (kvSeek B db it.beginKey) true
  (!scan.1, { it with rest := scan.2 })

/-- The loop of `getModified`. -/
def modifiedFrom (B : Backend) (db : Store) : ℕ → Iterator → List QByteArray
  | 0, _ => []
  | fuel + 1, it =>
    if it.isValid then
      let modified := it.isModifiedLater B db
      (if modified.1 then [it.key] else []) ++ modifiedFrom B db fuel modified.2.next
    else []

/-- `QDocCollectionSnapshot::getModified`. -/
def Reader.getModified (E : Env) (R : Reader) : List QByteArray :=
  modifiedFrom E.backend R.db (R.db.entries.length + 1)
    ((newIterator R.db R.snapshotId).seekToFirst R.db)

/-! ## The test of one document -/

/-- Only the numbers below 128 are seen to be greater. -/
theorem lt_signedChar_iff {s t : Byte} :
    (s.val : ℤ) < signedChar t ↔ s.val < t.val ∧ t.val < 128 := by
  have ht := t.isLt
  rw [signedChar]
  split
  · omega
  · omega

/-- The loop looks for a version whose number is seen to be greater. -/
theorem scanModified_eq (p : QByteArray) (s : Byte) (l : List (QByteArray × Blob)) :
    (scanModified p s l true).1 = !modifiedLater p s l := by
  induction l with
  | nil => rfl
  | cons e es ih =>
    rw [scanModified, modifiedLater]
    by_cases hp : p <+: e.1
    · rw [if_pos ⟨hp, rfl⟩, if_pos hp]
      by_cases hlater : p.length + 1 < e.1.length ∧ (s.val : ℤ) < signedChar (lastByte e.1)
      · -- the flag ends the loop
        rw [if_pos hlater, decide_eq_true ⟨hlater.1, lt_signedChar_iff.mp hlater.2⟩, Bool.true_or]
        cases es with
        | nil => rfl
        | cons e' es => rw [scanModified, if_neg fun h => Bool.false_ne_true h.2]; rfl
      · rw [if_neg hlater, ih, decide_eq_false fun h => hlater ⟨h.1, lt_signedChar_iff.mpr h.2⟩,
          Bool.false_or]
    · rw [if_neg fun h => hp h.1, if_neg hp]
      rfl

theorem modifiedLater_eq (p : QByteArray) (s : Byte) (l : List (QByteArray × Blob)) :
    modifiedLater p s l =
      ((l.takeWhile fun e => p <+: e.1).filterMap (versionEntry p)).any
        fun v => s < v.1 ∧ v.1.val < 128 := by
  induction l with
  | nil => rfl
  | cons e es ih =>
    rw [modifiedLater]
    by_cases hp : p <+: e.1
    · rw [if_pos hp, List.takeWhile_cons_of_pos (by simpa using hp), ih]
      by_cases hlen : p.length + 1 < e.1.length
      · have hv : versionEntry p e = some (lastByte e.1, e.2) := if_pos hlen
        rw [List.filterMap_cons_some hv, List.any_cons]
        simp [hlen]
      · have hv : versionEntry p e = none := if_neg hlen
        rw [List.filterMap_cons_none hv, decide_eq_false fun h => hlen h.1, Bool.false_or]
    · rw [if_neg hp, List.takeWhile_cons_of_neg (by simpa using hp)]
      rfl

/-- The loop only passes over entries that match. -/
theorem scanModified_rest (p : QByteArray) (s : Byte) (l : List (QByteArray × Blob)) (b : Bool) :
    (scanModified p s l b).2.dropWhile (fun e => p <+: e.1) =
      l.dropWhile fun e => p <+: e.1 := by
  induction l generalizing b with
  | nil => rfl
  | cons e es ih =>
    rw [scanModified]
    by_cases h : p <+: e.1 ∧ b = true
    · rw [if_pos h, ih, List.dropWhile_cons_of_pos (by simpa using h.1)]
    · rw [if_neg h]

/-- Calling `isModifiedLater` does not influence where `next` goes. -/
theorem Iterator.Positioned.next_isModifiedLater {db : Store} {it : Iterator}
    (h : it.Positioned db) (hv : it.isValid = true) (B : Backend) :
    (it.isModifiedLater B db).2.next = it.next := by
  rw [isModifiedLater, next, next, h.kvSeek_beginKey (ne_nil_of_isValid hv) B]
  simp only
  rw [scanModified_rest]

theorem Iterator.Positioned.isModifiedLater_eq {db : Store} {it : Iterator}
    (h : it.Positioned db) (hv : it.isValid = true) (B : Backend) :
    (it.isModifiedLater B db).1 = modifiedLater it.keyPrefix it.snapshotId it.rest := by
  rw [Iterator.isModifiedLater, h.kvSeek_beginKey (Iterator.ne_nil_of_isValid hv) B]
  simp only
  rw [scanModified_eq, Bool.not_not]

/-- **The test at a start key**: a version behind the snapshot with a number below 128. -/
theorem isModifiedLater_iff {F : Set QByteArray} (hF : Separated F) {db : Store} (hS : Shape F db)
    {it : Iterator} (h : it.Positioned db) (hv : it.isValid = true) {I : QByteArray} (hI : I ∈ F)
    (hb : it.beginKey = constructDocumentStartKey I) (hp : it.keyPrefix = documentPrefix I)
    (B : Backend) :
    (it.isModifiedLater B db).1 = true ↔
      ∃ t, it.snapshotId < t ∧ t.val < 128 ∧ db.find? (constructDocumentLinkKey I t) ≠ none := by
  have hstop : StopAt db I it := .inl ⟨hb, hp⟩
  rw [h.isModifiedLater_eq hv, modifiedLater_eq,
    List.takeWhile_eq_filter_of_pairwise (h.pairwise_keyPrefix hstop), List.any_eq_true]
  constructor
  · rintro ⟨⟨t, b⟩, hmem, hlt⟩
    obtain ⟨hst, ht⟩ := of_decide_eq_true hlt
    refine ⟨t, hst, ht, ?_⟩
    rw [(mem_versionEntries_iff hF hS h hv hI hb hp).mp hmem]
    exact Option.some_ne_none b
  · rintro ⟨t, hst, ht, hfind⟩
    obtain ⟨b, hfind⟩ := Option.ne_none_iff_exists'.mp hfind
    exact ⟨(t, b), (mem_versionEntries_iff hF hS h hv hI hb hp).mpr hfind,
      decide_eq_true ⟨hst, ht⟩⟩

/-! ## The list -/

/-- The loop lists the keys of the stops at which the test holds. -/
theorem modifiedFrom_eq (B : Backend) {db : Store} (fuel : ℕ) {it : Iterator}
    (h : it.Positioned db) :
    modifiedFrom B db fuel it =
      ((stopsFrom B db fuel it).filter fun it => (it.isModifiedLater B db).1).map
        Iterator.key := by
  induction fuel generalizing it with
  | zero => rfl
  | succ fuel ih =>
    cases hv : it.isValid with
    | false =>
      rw [modifiedFrom, hv, if_neg Bool.false_ne_true, stopsFrom_of_not_isValid hv]
      rfl
    | true =>
      rw [modifiedFrom, hv, if_pos rfl, stopsFrom_succ h hv]
      simp only
      rw [h.next_isModifiedLater hv, ih (Iterator.positioned_next h), List.filter_cons]
      split
      · rfl
      · rfl

/-- The list that the server replies. -/
theorem getModified_eq (E : Env) (R : Reader) : R.getModified E = Qdocdb.getModified E R := by
  rw [Reader.getModified, modifiedFrom_eq E.backend _ (Iterator.positioned_seekToFirst _ _),
    Qdocdb.getModified, ← stops]
  congr 1
  refine List.filter_congr fun it hit => ?_
  obtain ⟨hp, hv⟩ := stops_passing.1 it hit
  rw [hp.isModifiedLater_eq hv, hp.kvSeek_beginKey (Iterator.ne_nil_of_isValid hv)]

/-- **getModified** lists the ids with a start key and a version behind the snapshot with a
number below 128. -/
theorem mem_getModified_iff {E : Env} {F : Set QByteArray} (hF : PlainIds F) {R : Reader}
    (hS : Shape F R.db) {I : QByteArray} (hI : I ∈ F) :
    I ∈ R.getModified E ↔ R.db.find? (constructDocumentStartKey I) ≠ none ∧
      ∃ t, R.snapshotId < t ∧ t.val < 128 ∧
        R.db.find? (constructDocumentLinkKey I t) ≠ none := by
  have hspec := stops_spec hF.separated hS E.backend R.snapshotId
  rw [Reader.getModified, modifiedFrom_eq E.backend _ (Iterator.positioned_seekToFirst _ _),
    ← stops, List.mem_map]
  constructor
  · rintro ⟨it, hit, hkey⟩
    obtain ⟨hit, hmodified⟩ := List.mem_filter.mp hit
    obtain ⟨h, hv, hs, ⟨w, hw⟩, J, hJ, hstop⟩ := hspec.sound it hit
    rcases hstop with ⟨hb, hp⟩ | ⟨-, hp, -⟩
    · obtain rfl : J = I := by
        rw [← hkey, Iterator.key, hp]
        rfl
      refine ⟨?_, ?_⟩
      · rw [← hb, SortedMap.find?_eq_some_iff.mpr hw]
        exact Option.some_ne_none w
      · rw [← hs]
        exact (isModifiedLater_iff hF.separated hS h hv hJ hb hp E.backend).mp hmodified
    · -- without a start key the iterator's id ends with a colon
      refine absurd ?_ (hF.colon_notMem I hI)
      rw [← hkey, Iterator.key, hp]
      simp [constructDocumentStartKey, documentPrefix]
  · rintro ⟨hstart, hversion⟩
    obtain ⟨b, hb⟩ := Option.ne_none_iff_exists'.mp hstart
    obtain ⟨it, hit, hbegin⟩ := hspec.complete I hI b (SortedMap.find?_eq_some_iff.mp hb)
    obtain ⟨h, hv, hs, -, J, hJ, hstop⟩ := hspec.sound it hit
    obtain rfl : J = I :=
      hF.separated.eq_of_isKeyOf hI hJ (hbegin ▸ isKeyOf_startKey I) hstop.isKeyOf
    refine ⟨it, List.mem_filter.mpr ⟨hit, ?_⟩, hstop.key_eq hstart⟩
    rcases hstop with ⟨-, hp⟩ | ⟨-, -, hnone⟩
    · rw [← hs] at hversion
      exact (isModifiedLater_iff hF.separated hS h hv hJ hbegin hp E.backend).mpr hversion
    · exact absurd hnone hstart

/-! ## When the list is complete -/

/-- The documents seen under `id`: one, or none. -/
def Reader.documentsAt (E : Env) (R : Reader) (id : QByteArray) : Set QJsonObject :=
  {o | (id, o) ∈ R.documents E}

/-- `getModified` of each named snapshot lists every id whose document in the current view is
not the one that the snapshot shows. -/
def ModifiedComplete (E : Env) (σ : Collection) : Prop :=
  ∀ n s, n ≠ currentName → σ.getSnapshotId E n = .ok s →
    ∀ id, (σ.reader E).documentsAt E id ≠ (σ.getSnapshot E s).documentsAt E id →
      id ∈ (σ.getSnapshot E s).getModified E

/-- Insertions, overwrites and removals of ids in `F`, each on its own, and new snapshots while
there are at most 254 named ones. -/
def ModifiedOp (E : Env) (F : Set QByteArray) (σ : Collection) (op : Op) : Prop :=
  SerialOp E F σ op ∧ ∀ n, op ≠ .revertToSnapshot n

/-- There is room for one more snapshot. -/
theorem modifiedOp_newSnapshot {E : Env} {F : Set QByteArray} (σ : Collection) (name : QString)
    (l : List QString) (hl : σ.getSnapshotsValue E = .ok l) (hroom : l.length ≤ 255) :
    ModifiedOp E F σ (.newSnapshot name) := by
  refine ⟨fun l' hl' => .inr ?_, fun n => nofun⟩
  obtain rfl := Except.ok.inj (hl.symm.trans hl')
  exact hroom

section Serial

variable {E : Env} {F : Set QByteArray} {σ : Collection}

theorem serialInv_of_modifiedRun (hF : PlainIds F) (h : Reachable E (ModifiedOp E F) σ) :
    SerialInv F σ :=
  serialInv_of_reachable hF (h.mono fun _ _ hop => hop.1)

/-- What is seen under an id, read off its visible document. -/
theorem SerialInv.mem_documentsAt_iff (hF : PlainIds F) (h : SerialInv F σ) {s : Byte}
    {id : QByteArray} {o : QJsonObject} :
    o ∈ (σ.getSnapshot E s).documentsAt E id ↔ id ∈ F ∧ visible σ.db s id = some o :=
  SerialStore.mem_documents_iff hF.separated (R := σ.getSnapshot E s) h

/-- The ids that differ are those of `F` whose visible document is another one. -/
theorem SerialInv.documentsAt_ne_iff (hF : PlainIds F) (h : SerialInv F σ) {s t : Byte}
    {id : QByteArray} :
    (σ.getSnapshot E t).documentsAt E id ≠ (σ.getSnapshot E s).documentsAt E id ↔
      id ∈ F ∧ visible σ.db t id ≠ visible σ.db s id := by
  rw [← not_iff_not, not_not, not_and, not_not, Set.ext_iff]
  simp only [h.mem_documentsAt_iff (E := E) hF]
  constructor
  · intro heq hid
    exact Option.ext fun o => by simpa [hid] using heq o
  · intro heq o
    exact and_congr_right fun hid => by rw [heq hid]

/-- A document that differs has a start key. -/
theorem SerialInv.startKey_of_visible_ne (h : SerialInv F σ) {s t : Byte} {id : QByteArray}
    (hid : id ∈ F) (hne : visible σ.db t id ≠ visible σ.db s id) :
    σ.db.find? (constructDocumentStartKey id) ≠ none := by
  cases ht : visible σ.db t id with
  | some o => exact h.documentStore.startKey_of_visible hid ht
  | none =>
    cases hs : visible σ.db s id with
    | some o => exact h.documentStore.startKey_of_visible hid hs
    | none => exact absurd (ht.trans hs.symm) hne

/-- What `getModified` of a snapshot lists. -/
theorem SerialInv.mem_getModified_iff (hF : PlainIds F) (h : SerialInv F σ) (s : Byte)
    {id : QByteArray} (hid : id ∈ F) :
    id ∈ (σ.getSnapshot E s).getModified E ↔
      σ.db.find? (constructDocumentStartKey id) ≠ none ∧
        ∃ t, s < t ∧ t.val < 128 ∧ σ.db.find? (constructDocumentLinkKey id t) ≠ none :=
  Qdocdb.mem_getModified_iff hF (R := σ.getSnapshot E s) h.good.shape hid

theorem modifiedComplete_of_exists_version (hF : PlainIds F) (h : SerialInv F σ)
    (hversion : ∀ n s, n ≠ currentName → σ.getSnapshotId E n = .ok s →
      ∀ id ∈ F, visible σ.db σ.snapshotId id ≠ visible σ.db s id →
        ∃ t, s < t ∧ t.val < 128 ∧ σ.db.find? (constructDocumentLinkKey id t) ≠ none) :
    ModifiedComplete E σ := by
  intro n s hn hs id hne
  obtain ⟨hid, hne⟩ := (h.documentsAt_ne_iff (E := E) hF).mp hne
  exact (h.mem_getModified_iff hF s hid).mpr
    ⟨h.startKey_of_visible_ne hid hne, hversion n s hn hs id hid hne⟩

theorem ModifiedComplete.exists_version (hcomplete : ModifiedComplete E σ) (hF : PlainIds F)
    (h : SerialInv F σ) {n : QString} {s : Byte} (hn : n ≠ currentName)
    (hs : σ.getSnapshotId E n = .ok s) {id : QByteArray} (hid : id ∈ F)
    (hne : visible σ.db σ.snapshotId id ≠ visible σ.db s id) :
    ∃ t, s < t ∧ t.val < 128 ∧ σ.db.find? (constructDocumentLinkKey id t) ≠ none :=
  ((h.mem_getModified_iff hF s hid).mp
    (hcomplete n s hn hs id ((h.documentsAt_ne_iff (E := E) hF).mpr ⟨hid, hne⟩))).2

/-- **Completeness of getModified**: in every state of a run, the lists are complete if and
only if each document that differs from a snapshot was written behind it under a number
below 128. -/
theorem modifiedComplete_iff (hF : SafeIds F) (h : Reachable E (ModifiedOp E F) σ) :
    ModifiedComplete E σ ↔
      ∀ n s, n ≠ currentName → σ.getSnapshotId E n = .ok s →
        ∀ id ∈ F, visible σ.db σ.snapshotId id ≠ visible σ.db s id →
          ∃ t, s < t ∧ t.val < 128 ∧ σ.db.find? (constructDocumentLinkKey id t) ≠ none := by
  have hσ := serialInv_of_modifiedRun hF.plain h
  refine ⟨?_, modifiedComplete_of_exists_version hF.plain hσ⟩
  exact fun hcomplete n s hn hs id hid hne => hcomplete.exists_version hF.plain hσ hn hs hid hne

/-- Up to 127 named snapshots every version has a number below 128. -/
theorem SerialInv.exists_version (h : SerialInv F σ) (hlt : σ.snapshotId.val < 128) {n : QString}
    {s : Byte} (hn : n ≠ currentName) (hs : σ.getSnapshotId E n = .ok s) {id : QByteArray}
    (hne : visible σ.db σ.snapshotId id ≠ visible σ.db s id) :
    ∃ t, s < t ∧ t.val < 128 ∧ σ.db.find? (constructDocumentLinkKey id t) ≠ none := by
  obtain ⟨names, hl, hlen⟩ := Collection.exists_names h.names E
  obtain ⟨hmem, rfl⟩ := (Collection.getSnapshotId_eq_ok_iff hl hn).mp hs
  by_contra! hnone
  refine hne (visible_eq_of_forall_none (ofNat_idxOf_lt hlen hmem).2.le fun t ht hts => ?_)
  exact hnone t ht (lt_of_le_of_lt (Fin.le_def.mp hts) hlt)

/-- **Up to 127 named snapshots** the lists are complete. -/
theorem modifiedComplete_of_lt (hF : SafeIds F) (h : Reachable E (ModifiedOp E F) σ)
    (hlt : σ.snapshotId.val < 128) : ModifiedComplete E σ := by
  have hσ := serialInv_of_modifiedRun hF.plain h
  exact modifiedComplete_of_exists_version hF.plain hσ fun _ _ hn hs _ _ hne =>
    hσ.exists_version hlt hn hs hne

end Serial

/-- The document `a` removed behind the snapshot `A`. -/
def removedBehindA : Collection :=
  ((snapshotA .levelDB).transact (Env.plain .levelDB) (.removeById (bytes "a") false)).2

theorem reachable_removedBehindA :
    Reachable (Env.plain .levelDB) (ModifiedOp (Env.plain .levelDB) oneByteIds) removedBehindA := by
  have hinserted : Reachable (Env.plain .levelDB) (ModifiedOp (Env.plain .levelDB) oneByteIds)
      (insertedA .levelDB) :=
    Reachable.opened.transact ⟨txIds_insertFieldA, fun _ => nofun⟩
  refine (hinserted.newSnapshot ⟨fun l hl => .inr ?_, fun _ => nofun⟩).transact
    ⟨show bytes "a" ∈ oneByteIds by decide, fun _ => nofun⟩
  cases hl
  decide

/-- The list of the snapshot `A` has the document `a` that was removed behind it. -/
theorem modifiedComplete_removedBehindA :
    ModifiedComplete (Env.plain .levelDB) removedBehindA :=
  (modifiedComplete_iff safeIds_oneByteIds reachable_removedBehindA).mpr fun _ _ hn hs _ _ hne =>
    (serialInv_of_modifiedRun safeIds_oneByteIds.plain reachable_removedBehindA).exists_version
      (by decide) hn hs hne

/-! ## The number 128 -/

/-- A map collection takes a document whose id has no start key. -/
theorem accepted_of_startKey_none {E : Env} (hE : E.backend = .map) {db : Store} {s : Byte}
    {doc d : QJsonObject} {gen : Transaction.IdGen} {id : QByteArray}
    (hid : Transaction.documentId doc gen = some (id, d))
    (hnone : db.find? (constructDocumentStartKey id) = none)
    (overwrite ignoreReadOnlyValue : Bool) :
    Transaction.accepted E db s doc gen overwrite ignoreReadOnlyValue =
      some (id, Transaction.withUUID E gen d, false) := by
  have hlook : getJsonValue E.backend db s id = .undefined := by
    rw [getJsonValue, hE, seekValue_map_of_startKey_none hnone]
  rw [Transaction.accepted, hid, Option.bind_some]
  simp only
  rw [hlook]
  rfl

/-- A document that is taken is stored under the current number. -/
theorem Collection.find?_linkKey_insert {E : Env} {F : Set QByteArray} (hF : Separated F)
    {σ : Collection} {doc o : QJsonObject} {gen : Transaction.IdGen}
    {overwrite ignoreReadOnlyValue isOld : Bool} {id : QByteArray}
    (hacc : Transaction.accepted E σ.db σ.snapshotId doc gen overwrite ignoreReadOnlyValue =
      some (id, o, isOld)) (hid : id ∈ F) {I : QByteArray} (hI : I ∈ F) (t : Byte) :
    (σ.transact E (.insert doc gen overwrite ignoreReadOnlyValue)).2.db.find?
        (constructDocumentLinkKey I t) =
      if I = id ∧ t = σ.snapshotId then some (.document o)
      else σ.db.find? (constructDocumentLinkKey I t) := by
  obtain ⟨iws, hiws, hdb, -, -⟩ := transact_insert_of_accepted hacc
  have hother : ∀ w ∈ iws, w.key ≠ constructDocumentLinkKey I t := fun w hw hwk =>
    (hiws w hw).isMetaKey.not_isKeyOf (hwk ▸ isKeyOf_linkKey I t)
  rw [hdb, SortedMap.applyLog_append, SortedMap.find?_applyLog_of_forall_ne _ hother,
    find?_putJsonValue_linkKey hF hid hI]

/-- A run to each snapshot number, behind which the document `a` is inserted. -/
theorem exists_insertedBehind {ok : Collection → Op → Prop}
    (hok : ∀ (σ : Collection) name l, σ.getSnapshotsValue (Env.plain .map) = .ok l →
      l.length ≤ 255 → ok σ (.newSnapshot name))
    (hinsert : ∀ σ, ok σ (.transact (.insertField "a" "n" .null))) {k : ℕ} (hk : k ≤ 255) :
    ∃ σ names, Reachable (Env.plain .map) ok σ ∧ σ.snapshotId.val = k ∧
      σ.getSnapshotsValue (Env.plain .map) = .ok (names ++ [currentName]) ∧ names.length = k ∧
      currentName ∉ names ∧ visible σ.db σ.snapshotId (bytes "a") ≠ none ∧
      ∀ t ≠ σ.snapshotId, σ.db.find? (constructDocumentLinkKey (bytes "a") t) = none := by
  obtain ⟨σ, names, hσ, hs, hl, hlen, hcur, hempty⟩ :=
    exists_reachable_snapshotId (Env.plain .map) hok hk
  have hid : bytes "a" ∈ oneByteIds := by decide
  let doc : QJsonObject := QJsonObject.insert [(qs "_id", .string (qs "a"))] (qs "n") .null
  have hdoc : Transaction.documentId doc ⟨[], []⟩ = some (bytes "a", doc) := rfl
  have hacc := accepted_of_startKey_none (E := Env.plain .map) rfl (s := σ.snapshotId)
    hdoc (hempty _ _ (isKeyOf_startKey (bytes "a"))) false false
  have hversion := Collection.find?_linkKey_insert safeIds_oneByteIds.separated hacc hid hid
  have hcurrent := Collection.snapshotId_transact (E := Env.plain .map) (σ := σ)
    (.insertField "a" "n" .null)
  refine ⟨_, names, hσ.transact (hinsert σ), by rw [hcurrent, hs], ?_, hlen, hcur, ?_,
    fun t ht => ?_⟩
  · have hops : ∀ op ∈ [TxOp.insertField "a" "n" .null], Transaction.OnDocuments op :=
      List.forall_mem_singleton.mpr trivial
    have hsame := Collection.find?_snapshotsKey_transactAll (E := Env.plain .map) (σ := σ) hops
    rw [Collection.transactAll_singleton] at hsame
    exact (Collection.getSnapshotsValue_congr hsame).trans hl
  · have hseen := visible_of_document ((hversion σ.snapshotId).trans (if_pos ⟨rfl, rfl⟩))
    rw [hcurrent]
    exact fun hnone => Option.some_ne_none _ (hseen.symm.trans hnone)
  · rw [hcurrent] at ht
    rw [TxOp.insertField, hversion, if_neg fun heq => ht heq.2, hempty _ _ (isKeyOf_linkKey _ t)]

/-- A document that is inserted behind 128 snapshots is not in the list of any of them. -/
theorem not_modifiedComplete :
    ¬ ∀ (E : Env) (F : Set QByteArray) (σ : Collection), SafeIds F →
      Reachable E (ModifiedOp E F) σ → ModifiedComplete E σ := by
  intro h
  obtain ⟨σ, names, hσ, hs, hl, hlen, hcur, hseen, hnone⟩ :=
    @exists_insertedBehind (ModifiedOp (Env.plain .map) oneByteIds) modifiedOp_newSnapshot
      (fun _ => ⟨txIds_insertFieldA, fun _ => nofun⟩) 128 (by decide)
  obtain ⟨n, hn⟩ := List.exists_mem_of_length_pos (l := names) (by omega)
  have hne : n ≠ currentName := fun heq => hcur (heq ▸ hn)
  obtain ⟨-, hlt⟩ := ofNat_idxOf_lt (hlen.trans hs.symm) hn
  have hdiffers : visible σ.db σ.snapshotId (bytes "a") ≠
      visible σ.db (Fin.ofNat 256 (names.idxOf n)) (bytes "a") := by
    rwa [visible_eq_none_of_forall fun t ht => hnone t (ht.trans_lt hlt).ne]
  obtain ⟨t, -, ht, hfind⟩ := (h _ _ _ safeIds_oneByteIds hσ).exists_version
    safeIds_oneByteIds.plain (serialInv_of_modifiedRun safeIds_oneByteIds.plain hσ) hne
    ((Collection.getSnapshotId_eq_ok_iff hl hne).mpr ⟨hn, rfl⟩) (by decide) hdiffers
  -- its only version has the number 128
  refine hfind (hnone t fun heq => ?_)
  rw [heq] at ht
  omega

end Qdocdb
