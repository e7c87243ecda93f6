import Qdocdb.KV
import Qdocdb.Keys

/-!
# The document iterator

`QDocCollection::iterator` walks the documents of a store. It reads the id off the
key it stands on, as a prefix with the last byte cut off, and moves on by skipping
the keys with that prefix; `value` scans the versions behind the prefix for the
newest one that the iterator's snapshot may see.

An iterator only moves forward over the sorted entries, so it is modelled by the
suffix of the entries that starts where it stands.
-/

namespace Qdocdb

/-- The content of a collection's key/value store. -/
abbrev Store : Type := SortedMap QByteArray Blob

/-- `QDocCollection::iterator`. -/
structure Iterator where
  /-- the entries from where `kvit` stands -/
  rest : List (QByteArray × Blob)
  /-- `snapshotId` -/
  snapshotId : Byte
  /-- `beginKey` -/
  beginKey : QByteArray
  /-- `prefix` -/
  keyPrefix : QByteArray

/-- The local variables and output parameters of `value`. -/
structure ValueScan where
  /-- `valueData` -/
  valueData : Blob
  /-- `snapshotId`; nothing while the parameter is not written -/
  snapshotId : Option Byte
  /-- `isNotModifiedLater` -/
  isNotModifiedLater : Bool
  /-- `isNaked` -/
  isNaked : Bool
  /-- `find` -/
  find : Bool

namespace ValueScan

/-- The values before the loop. -/
def init : ValueScan := ⟨.empty, none, true, true, false⟩

/-- One version met by the loop, seen from snapshot `s`. -/
def visit (s : Byte) (r : ValueScan) (t : Byte) (data : Blob) : ValueScan :=
  if t < s then { r with snapshotId := some t, valueData := data, isNaked := false }
  else if t = s then { r with snapshotId := some t, valueData := data, find := true }
  else { r with snapshotId := some t, isNotModifiedLater := false, isNaked := false }

@[simp] theorem snapshotId_visit (s : Byte) (r : ValueScan) (t : Byte) (data : Blob) :
    (r.visit s t data).snapshotId = some t := by
  unfold visit
  split
  · rfl
  · split <;> rfl

theorem find_visit_of_ne {s t : Byte} (h : t ≠ s) (r : ValueScan) (data : Blob) :
    (r.visit s t data).find = r.find := by
  unfold visit
  split
  · rfl
  · rfl

theorem isNaked_visit_of_ne {s t : Byte} (h : t ≠ s) (r : ValueScan) (data : Blob) :
    (r.visit s t data).isNaked = false := by
  unfold visit
  split
  · rfl
  · rfl

theorem visit_self (s : Byte) (r : ValueScan) (data : Blob) :
    r.visit s s data = { r with snapshotId := some s, valueData := data, find := true } := by
  rw [visit, if_neg (lt_irrefl s), if_pos rfl]

/-- The value returned at the end. -/
def jsonValue (r : ValueScan) : QJsonValue :=
  if r.valueData.isEmpty then .undefined else r.valueData.unmarshal

end ValueScan

/-- The loop of `value`: it runs while the prefix matches and the version of the
iterator's own snapshot was not found, and passes over keys that are no versions. -/
def scanVersions (keyPrefix : QByteArray) (s : Byte) :
    List (QByteArray × Blob) → ValueScan → ValueScan × List (QByteArray × Blob)
  | [], r => (r, [])
  | e :: es, r =>
    if keyPrefix <+: e.1 ∧ r.find = false then
      scanVersions keyPrefix s es
        (if keyPrefix.length + 1 < e.1.length then r.visit s (lastByte e.1) e.2 else r)
    else (r, e :: es)

namespace Iterator

/-- `iterator::key`. -/
def key (it : Iterator) : QByteArray := it.keyPrefix.drop 2

/-- `iterator::setupPrefix`. -/
def setupPrefix (it : Iterator) : Iterator :=
  match it.rest with
  | [] => it
  | (key, _) :: _ =>
    { it with
      beginKey := key
      keyPrefix := if key.take 2 = bytes "d:" then key.dropLast else [] }

/-- `iterator::isValid`. -/
def isValid (it : Iterator) : Bool := !it.rest.isEmpty && !it.keyPrefix.isEmpty

/-- `iterator::seekToFirst`. -/
def seekToFirst (db : Store) (it : Iterator) : Iterator :=
  setupPrefix { it with rest := db.entries }

/-- `iterator::next`. -/
def next (it : Iterator) : Iterator :=
  setupPrefix { it with rest := it.rest.dropWhile fun e => it.keyPrefix <+: e.1 }

/-- `iterator::seek`. -/
def seek (B : Backend) (db : Store) (it : Iterator) (id : QByteArray) : Iterator :=
  setupPrefix { it with rest := kvSeek B db (bytes "d:" ++ id ++ bytes ":") }

/-- `iterator::value` with all its output parameters; it leaves `kvit` where the
loop ended. -/
def value (B : Backend) (db : Store) (it : Iterator) : ValueScan × Iterator :=
  let scan := scanVersions it.keyPrefix it.snapshotId (kvSeek B db it.beginKey) .init
  (scan.1, { it with rest := scan.2 })

end Iterator

/-- `QDocCollection::newIterator`. -/
def newIterator (db : Store) (s : Byte) : Iterator := ⟨db.entries, s, [], []⟩

/-- The iterators for which a loop `for (…; it->isValid(); it->next())` that calls
`value` runs its body. -/
def stopsFrom (B : Backend) (db : Store) : ℕ → Iterator → List Iterator
  | 0, _ => []
  | fuel + 1, it =>
    if it.isValid then it :: stopsFrom B db fuel (it.value B db).2.next else []

/-- The iterators met by such a loop from `seekToFirst` on. -/
def stops (B : Backend) (db : Store) (s : Byte) : List Iterator :=
  stopsFrom B db (db.entries.length + 1) ((newIterator db s).seekToFirst db)

/-- The values and keys such a loop reads. -/
def enumerate (B : Backend) (db : Store) (s : Byte) : List (QJsonValue × QByteArray) :=
  (stops B db s).map fun it => ((it.value B db).1.jsonValue, it.key)

/-- The `value` call behind `getJsonValue`; nothing when the iterator is not valid
after `seek`. -/
def seekValue (B : Backend) (db : Store) (s : Byte) (id : QByteArray) : Option ValueScan :=
  let it := (newIterator db s).seek B db id
  if it.isValid then some (it.value B db).1 else none

/-- `QDocCollection::getJsonValue`. -/
def getJsonValue (B : Backend) (db : Store) (s : Byte) (id : QByteArray) : QJsonValue :=
  match seekValue B db s id with
  | none => .undefined
  | some r => r.jsonValue

/-! ## The scan of the versions -/

/-- The version a scan behind `keyPrefix` sees in an entry. -/
def versionEntry (keyPrefix : QByteArray) (e : QByteArray × Blob) : Option (Byte × Blob) :=
  if keyPrefix.length + 1 < e.1.length then some (lastByte e.1, e.2) else none

/-- The loop of `value` on a list of versions. -/
def scanList (s : Byte) : List (Byte × Blob) → ValueScan → ValueScan
  | [], r => r
  | v :: vs, r => if r.find then r else scanList s vs (r.visit s v.1 v.2)

theorem scanList_of_find {s : Byte} {r : ValueScan} (h : r.find = true) (vs : List (Byte × Blob)) :
    scanList s vs r = r := by
  cases vs with
  | nil => rfl
  | cons v vs => rw [scanList, if_pos h]

/-- The loop reads the versions among the entries at the front that match. -/
theorem scanVersions_eq (p : QByteArray) (s : Byte) (l : List (QByteArray × Blob))
    (r : ValueScan) :
    (scanVersions p s l r).1 =
      scanList s ((l.takeWhile fun e => p <+: e.1).filterMap (versionEntry p)) r := by
  induction l generalizing r with
  | nil => rfl
  | cons e es ih =>
    rw [scanVersions]
    by_cases hp : p <+: e.1
    · rw [List.takeWhile_cons_of_pos (by simpa using hp)]
      cases hf : r.find with
      | true => rw [if_neg (by simp), scanList_of_find hf]
      | false =>
        rw [if_pos ⟨hp, rfl⟩, ih]
        by_cases hlen : p.length + 1 < e.1.length
        · have hv : versionEntry p e = some (lastByte e.1, e.2) := if_pos hlen
          rw [if_pos hlen, List.filterMap_cons_some hv, scanList, hf, if_neg Bool.false_ne_true]
        · have hv : versionEntry p e = none := if_neg hlen
          rw [if_neg hlen, List.filterMap_cons_none hv]
    · rw [if_neg fun h => hp h.1, List.takeWhile_cons_of_neg (by simpa using hp)]
      rfl

/-- The loop only passes over entries that match. -/
theorem scanVersions_rest (p : QByteArray) (s : Byte) (l : List (QByteArray × Blob))
    (r : ValueScan) :
    (scanVersions p s l r).2.dropWhile (fun e => p <+: e.1) =
      l.dropWhile fun e => p <+: e.1 := by
  induction l generalizing r with
  | nil => rfl
  | cons e es ih =>
    rw [scanVersions]
    by_cases h : p <+: e.1 ∧ r.find = false
    · rw [if_pos h, ih, List.dropWhile_cons_of_pos (by simpa using h.1)]
    · rw [if_neg h]

/-- On versions in ascending order the loop returns the newest one it may see. -/
theorem scanList_valueData {s : Byte} {vs : List (Byte × Blob)}
    (hs : vs.Pairwise fun v w => v.1 < w.1) {r : ValueScan} (hr : r.find = false) :
    (scanList s vs r).valueData =
      (((vs.filter fun v => v.1 ≤ s).getLast?).map Prod.snd).getD r.valueData := by
  induction vs generalizing r with
  | nil => rfl
  | cons v vs ih =>
    obtain ⟨hv, hs⟩ := List.pairwise_cons.mp hs
    rw [scanList, hr, if_neg Bool.false_ne_true]
    rcases lt_trichotomy v.1 s with h | h | h
    · rw [List.filter_cons_of_pos (by simpa using h.le),
        ih hs ((ValueScan.find_visit_of_ne h.ne r v.2).trans hr), List.getLast?_cons,
        ValueScan.visit, if_pos h]
      cases (vs.filter fun v => v.1 ≤ s).getLast? <;> rfl
    · -- the version of the snapshot itself ends the loop, and the others are newer
      have hnil : vs.filter (fun v => v.1 ≤ s) = [] := by
        rw [List.filter_eq_nil_iff]
        intro w hw
        simpa using h ▸ hv w hw
      rw [List.filter_cons_of_pos (by simpa using h.le), hnil, ValueScan.visit,
        if_neg h.not_lt, if_pos h, scanList_of_find rfl]
      rfl
    · have hnil : vs.filter (fun v => v.1 ≤ s) = [] := by
        rw [List.filter_eq_nil_iff]
        intro w hw
        simpa using h.trans (hv w hw)
      rw [List.filter_cons_of_neg (by simpa using h),
        ih hs ((ValueScan.find_visit_of_ne h.ne' r v.2).trans hr), hnil, ValueScan.visit,
        if_neg h.not_gt, if_neg h.ne']

/-- A scan ends on the iterator's own version with nothing older before it exactly
when the oldest version is that one. -/
theorem scanList_isNaked_iff {s : Byte} {vs : List (Byte × Blob)}
    (hs : vs.Pairwise fun v w => v.1 < w.1) {r : ValueScan} (hr : r.find = false)
    (hn : r.snapshotId ≠ some s) :
    (scanList s vs r).snapshotId = some s ∧ (scanList s vs r).isNaked = true ↔
      r.isNaked = true ∧ (∃ b, (s, b) ∈ vs) ∧ ∀ v ∈ vs, s ≤ v.1 := by
  induction vs generalizing r with
  | nil => simp [scanList, hn]
  | cons v vs ih =>
    obtain ⟨hv, hs⟩ := List.pairwise_cons.mp hs
    rw [scanList, hr, if_neg Bool.false_ne_true]
    rcases lt_trichotomy v.1 s with h | h | h
    · rw [ih hs ((ValueScan.find_visit_of_ne h.ne r v.2).trans hr) (by simpa using h.ne),
        ValueScan.isNaked_visit_of_ne h.ne]
      simp [h.not_ge]
    · have hle : ∀ w ∈ vs, s ≤ w.1 := fun w hw => h ▸ (hv w hw).le
      obtain ⟨t, b⟩ := v
      obtain rfl : t = s := h
      rw [ValueScan.visit_self, scanList_of_find rfl]
      simp only [true_and, List.mem_cons, Prod.mk.injEq, forall_eq_or_imp, le_refl]
      exact ⟨fun hnk => ⟨hnk, ⟨b, .inl rfl⟩, hle⟩, fun hnk => hnk.1⟩
    · have hnot : ∀ b, (s, b) ∉ v :: vs := by
        intro b hb
        rcases List.mem_cons.mp hb with rfl | hb
        · exact lt_irrefl _ h
        · exact lt_asymm h (hv _ hb)
      rw [ih hs ((ValueScan.find_visit_of_ne h.ne' r v.2).trans hr) (by simpa using h.ne'),
        ValueScan.isNaked_visit_of_ne h.ne']
      simp [hnot]

/-! ## Positions -/

/-- A seek to a key of the store puts either backend's iterator on it. -/
theorem kvSeek_of_suffix {db : Store} {k : QByteArray} {v : Blob} {l : List (QByteArray × Blob)}
    (h : (k, v) :: l <:+ db.entries) (B : Backend) : kvSeek B db k = (k, v) :: l := by
  obtain ⟨front, hfront⟩ := h
  cases B with
  | levelDB => exact SortedMap.seekGE_eq_cons_of_append hfront.symm
  | map => exact SortedMap.seekEq_eq_cons_of_append hfront.symm

namespace Iterator

/-- The iterator stands on an entry whose key it has read, or at the end. -/
structure Positioned (db : Store) (it : Iterator) : Prop where
  suffix : it.rest <:+ db.entries
  setup : it.setupPrefix = it

@[simp] theorem rest_setupPrefix (it : Iterator) : it.setupPrefix.rest = it.rest := by
  unfold setupPrefix
  split <;> rfl

@[simp] theorem snapshotId_setupPrefix (it : Iterator) :
    it.setupPrefix.snapshotId = it.snapshotId := by
  unfold setupPrefix
  split <;> rfl

@[simp] theorem snapshotId_next (it : Iterator) : it.next.snapshotId = it.snapshotId :=
  snapshotId_setupPrefix _

theorem positioned_setupPrefix {db : Store} {it : Iterator} (h : it.rest <:+ db.entries) :
    Positioned db it.setupPrefix := by
  refine ⟨by rwa [rest_setupPrefix], ?_⟩
  rcases it with ⟨- | ⟨e, l⟩, s, k, p⟩ <;> rfl

theorem positioned_seekToFirst (db : Store) (it : Iterator) :
    Positioned db (it.seekToFirst db) :=
  positioned_setupPrefix List.suffix_rfl

theorem positioned_next {db : Store} {it : Iterator} (h : Positioned db it) :
    Positioned db it.next :=
  positioned_setupPrefix ((List.dropWhile_suffix _).trans h.suffix)

theorem Positioned.beginKey_eq {db : Store} {it : Iterator} (h : Positioned db it)
    {k : QByteArray} {v : Blob} {l : List (QByteArray × Blob)} (hr : it.rest = (k, v) :: l) :
    it.beginKey = k := by
  rw [← h.setup, setupPrefix, hr]

theorem Positioned.keyPrefix_eq {db : Store} {it : Iterator} (h : Positioned db it)
    {k : QByteArray} {v : Blob} {l : List (QByteArray × Blob)} (hr : it.rest = (k, v) :: l) :
    it.keyPrefix = if k.take 2 = bytes "d:" then k.dropLast else [] := by
  rw [← h.setup, setupPrefix, hr]

/-- `value` seeks back to where the iterator stands. -/
theorem Positioned.kvSeek_beginKey {db : Store} {it : Iterator} (h : Positioned db it)
    (hv : it.rest ≠ []) (B : Backend) : kvSeek B db it.beginKey = it.rest := by
  rcases hr : it.rest with - | ⟨⟨k, v⟩, l⟩
  · exact absurd hr hv
  · rw [h.beginKey_eq hr, kvSeek_of_suffix (hr ▸ h.suffix) B]

theorem ne_nil_of_isValid {it : Iterator} (h : it.isValid = true) : it.rest ≠ [] := by
  rintro hr
  simp [isValid, hr] at h

/-- Calling `value` does not influence where `next` goes. -/
theorem Positioned.next_value {db : Store} {it : Iterator} (h : Positioned db it)
    (hv : it.isValid = true) (B : Backend) : (it.value B db).2.next = it.next := by
  rw [value, next, next, h.kvSeek_beginKey (ne_nil_of_isValid hv) B]
  simp only
  rw [scanVersions_rest]

/-- `next` leaves the entry it stands on, which carries its own prefix. -/
theorem Positioned.length_next_lt {db : Store} {it : Iterator} (h : Positioned db it)
    (hv : it.isValid = true) : it.next.rest.length < it.rest.length := by
  rcases hr : it.rest with - | ⟨⟨k, v⟩, l⟩
  · exact absurd hr (ne_nil_of_isValid hv)
  · have hp : it.keyPrefix <+: k := by
      rw [h.keyPrefix_eq hr]
      split
      · exact List.dropLast_prefix k
      · exact List.nil_prefix
    rw [next, rest_setupPrefix, hr, List.dropWhile_cons_of_pos (by simpa using hp),
      List.length_cons]
    exact Nat.lt_succ_of_le (List.dropWhile_suffix _).length_le

end Iterator

theorem stopsFrom_of_not_isValid {B : Backend} {db : Store} {it : Iterator}
    (hv : it.isValid = false) (fuel : ℕ) : stopsFrom B db fuel it = [] := by
  cases fuel with
  | zero => rfl
  | succ fuel => rw [stopsFrom, hv, if_neg Bool.false_ne_true]

theorem stopsFrom_succ {B : Backend} {db : Store} {it : Iterator} (h : it.Positioned db)
    (hv : it.isValid = true) (fuel : ℕ) :
    stopsFrom B db (fuel + 1) it = it :: stopsFrom B db fuel it.next := by
  rw [stopsFrom, if_pos hv, h.next_value hv B]

/-- The loop ends by itself: beyond the number of entries ahead, fuel does not matter. -/
theorem stopsFrom_eq_of_length_lt {B : Backend} {db : Store} {it : Iterator}
    (h : it.Positioned db) {n m : ℕ} (hn : it.rest.length < n) (hm : it.rest.length < m) :
    stopsFrom B db n it = stopsFrom B db m it := by
  induction n generalizing it m with
  | zero => omega
  | succ n ih =>
    obtain ⟨m, rfl⟩ : ∃ m', m = m' + 1 := ⟨m - 1, by omega⟩
    cases hv : it.isValid with
    | false => rw [stopsFrom_of_not_isValid hv, stopsFrom_of_not_isValid hv]
    | true =>
      have hlt := h.length_next_lt hv
      rw [stopsFrom_succ h hv, stopsFrom_succ h hv,
        ih (Iterator.positioned_next h) (m := m) (by omega) (by omega)]

end Qdocdb
