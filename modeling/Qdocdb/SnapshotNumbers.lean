import Qdocdb.Enumeration
import Qdocdb.ModifiedIds

/-!
# Snapshot numbers

`newSnapshot` gives the current number to the new name and makes the next number the
current one, without writing a document: what the next number shows has to be there
already. The number is a byte, and behind 255 it comes back to 0, which shows the documents
of the oldest snapshot. A new snapshot leaves every view as it was if and only if the next
number shows what the current one shows (`newSnapshotKeeps_iff`); the number that opening
reads off the list is always the current one.
-/

namespace Qdocdb

/-! ## The documents do not depend on the other keys -/

theorem IsMetaKey.of_lt {k k' : QByteArray} (h : IsMetaKey k) (hlt : k < k') : IsMetaKey k' := by
  obtain ⟨c, r, rfl, hc⟩ := h
  cases k' with
  | nil => exact absurd hlt (lt_asymm (List.nil_lt_cons c r))
  | cons c' r' =>
    rcases List.cons_lt_cons_iff.mp hlt with h | ⟨rfl, -⟩
    · exact ⟨c', r', rfl, hc.trans h⟩
    · exact ⟨c, r', rfl, hc⟩

/-- The keys of documents stand in front of the others. -/
theorem exists_front (db : Store) : ∃ front back, db.entries = front ++ back ∧
    (∀ e ∈ front, ¬ IsMetaKey e.1) ∧ ∀ e ∈ back, IsMetaKey e.1 := by
  obtain ⟨l, hsorted⟩ := db
  change ∃ front back, l = front ++ back ∧ _
  induction l with
  | nil => exact ⟨[], [], rfl, List.forall_mem_nil _, List.forall_mem_nil _⟩
  | cons e l ih =>
    obtain ⟨hlt, hsorted⟩ := List.pairwise_cons.mp hsorted
    by_cases he : IsMetaKey e.1
    · exact ⟨[], e :: l, rfl, List.forall_mem_nil _,
        List.forall_mem_cons.mpr ⟨he, fun e' he' => he.of_lt (hlt e' he')⟩⟩
    · obtain ⟨front, back, rfl, hfront, hback⟩ := ih hsorted
      exact ⟨e :: front, back, rfl, List.forall_mem_cons.mpr ⟨he, hfront⟩, hback⟩

/-- Two stores with the same keys of documents have the same front. -/
theorem exists_common_front {db db' : Store}
    (h : ∀ k, ¬ IsMetaKey k → db'.find? k = db.find? k) :
    ∃ front back back', db.entries = front ++ back ∧ db'.entries = front ++ back' ∧
      (∀ e ∈ back, IsMetaKey e.1) ∧ ∀ e ∈ back', IsMetaKey e.1 := by
  obtain ⟨front, back, heq, hfront, hback⟩ := exists_front db
  obtain ⟨front', back', heq', hfront', hback'⟩ := exists_front db'
  have hmem : ∀ {db : Store} {front back : List (QByteArray × Blob)},
      db.entries = front ++ back → (∀ e ∈ front, ¬ IsMetaKey e.1) → (∀ e ∈ back, IsMetaKey e.1) →
      ∀ e, e ∈ front ↔ ¬ IsMetaKey e.1 ∧ db.find? e.1 = some e.2 := by
    intro db front back heq hfront hback e
    rw [SortedMap.find?_eq_some_iff, heq, List.mem_append]
    exact ⟨fun he => ⟨hfront e he, .inl he⟩, fun ⟨hnot, he⟩ =>
      he.resolve_right fun he => hnot (hback e he)⟩
  have hirr : Std.Irrefl fun a b : QByteArray × Blob => a.1 < b.1 := ⟨fun a => lt_irrefl a.1⟩
  have hsorted := (List.pairwise_append.mp (heq ▸ db.sorted)).1
  have hsorted' := (List.pairwise_append.mp (heq' ▸ db'.sorted)).1
  obtain rfl : front' = front := hsorted'.eq_of_mem_iff hsorted fun e => by
    rw [hmem heq hfront hback, hmem heq' hfront' hback']
    exact and_congr_right fun hnot => by rw [h e.1 hnot]
  exact ⟨front', back, back', heq, heq', hback, hback'⟩

section Front

variable {B : Backend} {db db' : Store} {back back' : List (QByteArray × Blob)}
  (hback : ∀ e ∈ back, IsMetaKey e.1) (hback' : ∀ e ∈ back', IsMetaKey e.1)
  {it it' : Iterator} (h : it.Positioned db) (h' : it'.Positioned db')

/-- Both iterators have the same entries ahead, up to the keys behind the documents. -/
structure SameAhead (back back' : List (QByteArray × Blob)) (it it' : Iterator) : Prop where
  rest : ∃ ahead, it.rest = ahead ++ back ∧ it'.rest = ahead ++ back'
  snapshotId : it'.snapshotId = it.snapshotId

include hback h

/-- Behind the documents an iterator is not valid. -/
theorem not_isValid_of_rest_eq (hr : it.rest = back) : it.isValid = false := by
  rcases hb : back with - | ⟨⟨k, v⟩, l⟩
  · rw [Iterator.isValid, hr, hb]
    rfl
  · exact h.not_isValid_of_isMetaKey (hr.trans hb)
      (hback (k, v) (hb ▸ List.mem_cons_self))

/-- The prefix of a valid iterator marks no key behind the documents. -/
theorem not_prefix_of_mem_back (hv : it.isValid = true) :
    ∀ e ∈ back, ¬ it.keyPrefix <+: e.1 := by
  intro e he hp
  obtain ⟨v, l, -, htake, hchop⟩ := h.exists_of_isValid hv
  have hne : it.keyPrefix ≠ [] := by
    rintro hnil
    simp [Iterator.isValid, hnil] at hv
  -- the prefix starts with the `d` of the key
  obtain ⟨c, p, hcp⟩ := List.exists_cons_of_ne_nil hne
  obtain ⟨r, hr⟩ := take_two_eq_iff.mp htake
  rw [← hr] at hchop
  have hc : c = 100 := by
    rw [hcp] at hchop
    cases r with
    | nil => exact (List.cons.inj hchop).1
    | cons _ _ => exact (List.cons.inj hchop).1
  exact (hback e he).not_documentPrefix (hc ▸ hcp ▸ hp)

/-- The entries in front that match the prefix are all that match. -/
theorem takeWhile_append_back (hv : it.isValid = true) (ahead : List (QByteArray × Blob)) :
    (ahead ++ back).takeWhile (fun e => it.keyPrefix <+: e.1) =
      ahead.takeWhile fun e => it.keyPrefix <+: e.1 := by
  have hnot := not_prefix_of_mem_back hback h hv
  induction ahead with
  | nil =>
    rw [List.nil_append]
    cases back with
    | nil => rfl
    | cons e l => rw [List.takeWhile_cons_of_neg (by simpa using hnot e List.mem_cons_self)]; rfl
  | cons e ahead ih =>
    by_cases he : it.keyPrefix <+: e.1
    · rw [List.cons_append, List.takeWhile_cons_of_pos (by simpa using he),
        List.takeWhile_cons_of_pos (by simpa using he), ih]
    · rw [List.cons_append, List.takeWhile_cons_of_neg (by simpa using he),
        List.takeWhile_cons_of_neg (by simpa using he)]

theorem dropWhile_append_back (hv : it.isValid = true) (ahead : List (QByteArray × Blob)) :
    (ahead ++ back).dropWhile (fun e => it.keyPrefix <+: e.1) =
      (ahead.dropWhile fun e => it.keyPrefix <+: e.1) ++ back := by
  have htake := takeWhile_append_back hback h hv ahead
  have hsplit := List.takeWhile_append_dropWhile (p := fun e => decide (it.keyPrefix <+: e.1))
    (l := ahead ++ back)
  rw [htake] at hsplit
  have hsplit' := List.takeWhile_append_dropWhile (p := fun e => decide (it.keyPrefix <+: e.1))
    (l := ahead)
  rw [← List.append_cancel_left_eq (ahead.takeWhile fun e => it.keyPrefix <+: e.1), hsplit,
    ← List.append_assoc, hsplit']

omit hback in
/-- The value at a stop is read off the entries that match. -/
theorem value_eq_scanList_takeWhile (hv : it.isValid = true) (B : Backend) :
    (it.value B db).1 = scanList it.snapshotId
      ((it.rest.takeWhile fun e => it.keyPrefix <+: e.1).filterMap (versionEntry it.keyPrefix))
      .init := by
  rw [Iterator.value, h.kvSeek_beginKey (Iterator.ne_nil_of_isValid hv) B, scanVersions_eq]

include hback' h'

/-- **One stop**: both iterators are valid or not, read the same, and go on together. -/
theorem SameAhead.stop (hsame : SameAhead back back' it it') :
    it'.isValid = it.isValid ∧ (it.isValid = true →
      ((it'.value B db').1.jsonValue, it'.key) = ((it.value B db).1.jsonValue, it.key) ∧
        SameAhead back back' it.next it'.next) := by
  obtain ⟨⟨ahead, hr, hr'⟩, hs⟩ := hsame
  rcases ahead with - | ⟨⟨k, v⟩, ahead⟩
  · have hinvalid := not_isValid_of_rest_eq hback h hr
    refine ⟨(not_isValid_of_rest_eq hback' h' hr').trans hinvalid.symm, fun hv => ?_⟩
    rw [hinvalid] at hv
    cases hv
  · have hp : it'.keyPrefix = it.keyPrefix :=
      (h'.keyPrefix_eq hr').trans (h.keyPrefix_eq hr).symm
    have hvalid : it'.isValid = it.isValid := by
      rw [Iterator.isValid, Iterator.isValid, hr, hr', hp]
      rfl
    refine ⟨hvalid, fun hv => ⟨?_, ?_, ?_⟩⟩
    · have hv' := hvalid.trans hv
      have htake := takeWhile_append_back hback h hv ((k, v) :: ahead)
      have htake' := takeWhile_append_back hback' h' hv' ((k, v) :: ahead)
      rw [value_eq_scanList_takeWhile h hv, value_eq_scanList_takeWhile h' hv', hr, hr', htake,
        htake', hp, hs, Iterator.key, Iterator.key, hp]
    · have hdrop := dropWhile_append_back hback h hv ((k, v) :: ahead)
      have hdrop' := dropWhile_append_back hback' h' (hvalid.trans hv) ((k, v) :: ahead)
      refine ⟨((k, v) :: ahead).dropWhile fun e => it.keyPrefix <+: e.1, ?_, ?_⟩
      · rw [Iterator.next, Iterator.rest_setupPrefix, hr, hdrop]
      · rw [Iterator.next, Iterator.rest_setupPrefix, hr', hdrop', hp]
    · rw [Iterator.snapshotId_next, Iterator.snapshotId_next, hs]

/-- **The loop** reads the same on both stores. -/
theorem SameAhead.stopsFrom (hsame : SameAhead back back' it it') (fuel : ℕ) :
    ((Qdocdb.stopsFrom B db' fuel it').map fun it => ((it.value B db').1.jsonValue, it.key)) =
      (Qdocdb.stopsFrom B db fuel it).map fun it => ((it.value B db).1.jsonValue, it.key) := by
  induction fuel generalizing it it' with
  | zero => rfl
  | succ fuel ih =>
    obtain ⟨hvalid, hstop⟩ := hsame.stop (B := B) hback hback' h h'
    cases hv : it.isValid with
    | false =>
      rw [stopsFrom_of_not_isValid hv, stopsFrom_of_not_isValid (hvalid.trans hv)]
      rfl
    | true =>
      obtain ⟨hread, hnext⟩ := hstop hv
      rw [stopsFrom_succ h hv, stopsFrom_succ h' (hvalid.trans hv), List.map_cons, List.map_cons,
        hread, ih (Iterator.positioned_next h) (Iterator.positioned_next h') hnext]

end Front

/-- **The documents** only depend on the keys in front. -/
theorem documents_congr {B : Backend} {db db' : Store}
    (h : ∀ k, ¬ IsMetaKey k → db'.find? k = db.find? k) (s : Byte) :
    documents B db' s = documents B db s := by
  obtain ⟨front, back, back', heq, heq', hback, hback'⟩ := exists_common_front h
  have hp := Iterator.positioned_seekToFirst db (newIterator db s)
  have hp' := Iterator.positioned_seekToFirst db' (newIterator db' s)
  have hrest : ∀ db : Store, ((newIterator db s).seekToFirst db).rest = db.entries := fun db => by
    rw [Iterator.seekToFirst, Iterator.rest_setupPrefix]
  have hsame : SameAhead back back' ((newIterator db s).seekToFirst db)
      ((newIterator db' s).seekToFirst db') := by
    refine ⟨⟨front, (hrest db).trans heq, (hrest db').trans heq'⟩, ?_⟩
    rw [Iterator.seekToFirst, Iterator.seekToFirst, Iterator.snapshotId_setupPrefix,
      Iterator.snapshotId_setupPrefix]
    rfl
  -- beyond the entries ahead the fuel does not matter
  let fuel := db.entries.length + db'.entries.length + 1
  rw [documents, documents, enumerate, enumerate, stops, stops,
    stopsFrom_eq_of_length_lt hp (m := fuel) (by rw [hrest]; omega) (by rw [hrest]; omega),
    stopsFrom_eq_of_length_lt hp' (m := fuel) (by rw [hrest]; omega) (by rw [hrest]; omega),
    hsame.stopsFrom hback hback' hp hp']

/-! ## The law -/

/-- The list of snapshots ends with the current name, whose position, cut to a byte, is the
current number. -/
def NumbersListed (σ : Collection) : Prop :=
  ∃ names, σ.db.find? snapshotsKey = some (.snapshots (names ++ [currentName])) ∧
    σ.snapshotId = Fin.ofNat 256 names.length

/-- What a new snapshot that succeeds should leave, and what opening the store again shows. -/
structure SnapshotKeeps (E : Env) (σ σ' : Collection) (name : QString) : Prop where
  current : (σ'.reader E).documents E = (σ.reader E).documents E
  earlier : ∀ n i, n ≠ currentName → σ.getSnapshotId E n = .ok i →
    ∃ j, σ'.getSnapshotId E n = .ok j ∧
      (σ'.getSnapshot E j).documents E = (σ.getSnapshot E i).documents E
  named : ∃ j, σ'.getSnapshotId E name = .ok j ∧
    (σ'.getSnapshot E j).documents E = (σ'.reader E).documents E

/-- The law on one call: it fails and changes nothing, or leaves all views as they were and
makes the current view the one of the name; and opening the store again selects the current
view. -/
def NewSnapshotKeeps (E : Env) (σ : Collection) (name : QString) : Prop :=
  ((σ.newSnapshot E name).1 ≠ .success ∧ (σ.newSnapshot E name).2.db = σ.db ∧
        (σ.newSnapshot E name).2.snapshotId = σ.snapshotId ∨
      (σ.newSnapshot E name).1 = .success ∧ SnapshotKeeps E σ (σ.newSnapshot E name).2 name) ∧
    ((Collection.open E (σ.newSnapshot E name).2.db).reader E).documents E =
      ((σ.newSnapshot E name).2.reader E).documents E

/-- The next number shows what the current one shows. -/
def NextShowsCurrent (E : Env) (σ : Collection) : Prop :=
  (σ.getSnapshot E (σ.snapshotId + 1)).documents E = (σ.reader E).documents E

/-- Insertions and new snapshots. -/
def InsertOrSnapshot : Op → Prop
  | .transact (.insert _ _ _ _) => True
  | .newSnapshot _ => True
  | _ => False

/-- The states reached from `σ₀` by insertions and new snapshots. -/
inductive SnapshotRun (E : Env) (σ₀ : Collection) : Collection → Prop
  | start : SnapshotRun E σ₀ σ₀
  | served {σ σ' : Collection} {op : Op} {r : ResultEnum} :
    SnapshotRun E σ₀ σ → InsertOrSnapshot op → op.apply E σ = some (r, σ') →
    SnapshotRun E σ₀ σ'

section Law

variable {E : Env} {σ σ' : Collection}

/-- Opening the store again finds the current number. -/
theorem NumbersListed.open (h : NumbersListed σ) :
    (Collection.open E σ.db).db = σ.db ∧ (Collection.open E σ.db).snapshotId = σ.snapshotId := by
  obtain ⟨names, hnames, hs⟩ := h
  obtain ⟨n, rest, hcons⟩ := List.exists_cons_of_ne_nil (l := names ++ [currentName]) (by simp)
  have hlen : rest.length = names.length := by
    have hlen := congrArg List.length hcons
    rw [List.length_append, List.length_singleton, List.length_cons] at hlen
    omega
  have hl : Collection.getSnapshotsValue E ⟨σ.db, 0, ∅, "", []⟩ = .ok (n :: rest) :=
    Collection.getSnapshotsValue_eq_ok_iff.mpr ⟨_, hnames, hcons⟩
  let τ : Collection := ⟨σ.db, Fin.ofNat 256 rest.length, ∅, "", []⟩
  have hopen : Collection.open E σ.db = (τ.writeTransaction E τ.newTransaction).2 := by
    rw [Collection.open, hl]
  obtain ⟨hc, -⟩ := Collection.writeTransaction_spec (E := E) (σ := τ)
    (Collection.kvdb_newTransaction (E := E) (σ := τ))
  rw [hopen, hc.db, hc.snapshotId, commit_of_disjoint fun k hk => absurd hk List.not_mem_nil, hs]
  exact ⟨rfl, congrArg (Fin.ofNat 256) hlen⟩

/-- The number behind a position in the list. -/
theorem ofNat_succ (n : ℕ) : (Fin.ofNat 256 (n + 1) : Byte) = Fin.ofNat 256 n + 1 := by
  ext
  simp [Fin.val_add]

/-- **newSnapshot** of a name that is not listed, on a list that ends with the current name. -/
theorem NumbersListed.newSnapshot_of_notMem (h : NumbersListed σ) {name : QString}
    {names : List QString} (hl : σ.getSnapshotsValue E = .ok (names ++ [currentName]))
    (hname : name ∉ names ++ [currentName]) :
    (σ.newSnapshot E name).1 = .success ∧
      (σ.newSnapshot E name).2.snapshotId = σ.snapshotId + 1 ∧
      (σ.newSnapshot E name).2.getSnapshotsValue E = .ok (names ++ [name] ++ [currentName]) ∧
      NumbersListed (σ.newSnapshot E name).2 ∧
      ∀ s, documents E.backend (σ.newSnapshot E name).2.db s = documents E.backend σ.db s := by
  obtain ⟨names', hnames', hs⟩ := h
  obtain rfl : names' = names := by
    have hl' := Collection.getSnapshotsValue_eq_ok_iff (E := E).mpr ⟨_, hnames', rfl⟩
    exact List.append_cancel_right (Except.ok.inj (hl'.symm.trans hl))
  obtain ⟨hsuccess, hdb, hid⟩ := Collection.newSnapshot_of_notMem (E := E) hl hname
  have hlist : (σ.newSnapshot E name).2.db.find? snapshotsKey =
      some (.snapshots (names' ++ [name] ++ [currentName])) := by
    rw [hdb, Collection.find?_newSnapshotWrites_snapshotsKey, List.dropLast_concat,
      List.append_assoc]
    rfl
  refine ⟨hsuccess, hid, Collection.getSnapshotsValue_eq_ok_iff.mpr ⟨_, hlist, rfl⟩,
    ⟨_, hlist, ?_⟩, fun s => documents_congr (fun k hk => ?_) s⟩
  · rw [hid, hs, List.length_append, List.length_singleton, ofNat_succ]
  · rw [hdb, Collection.find?_newSnapshotWrites_of_not_isMetaKey hk]

/-- A name that is listed is refused, and nothing changes. -/
theorem newSnapshot_of_mem {name : QString} {l : List QString}
    (hl : σ.getSnapshotsValue E = .ok l) (hname : name ∈ l) :
    (σ.newSnapshot E name).1 ≠ .success ∧ (σ.newSnapshot E name).2.db = σ.db ∧
      (σ.newSnapshot E name).2.snapshotId = σ.snapshotId := by
  rcases Collection.newSnapshot_spec (E := E) (σ := σ) name with hfail | ⟨l', hl', hnot, -⟩
  · exact hfail
  · obtain rfl := Except.ok.inj (hl.symm.trans hl')
    exact absurd hname hnot

theorem NumbersListed.exists_names (h : NumbersListed σ) (E : Env) :
    ∃ names, σ.getSnapshotsValue E = .ok (names ++ [currentName]) ∧
      σ.snapshotId = Fin.ofNat 256 names.length := by
  obtain ⟨names, hnames, hs⟩ := h
  exact ⟨names, Collection.getSnapshotsValue_eq_ok_iff.mpr ⟨_, hnames, rfl⟩, hs⟩

/-- What is not written to the list keeps it. -/
theorem NumbersListed.congr (h : NumbersListed σ)
    (hdb : σ'.db.find? snapshotsKey = σ.db.find? snapshotsKey)
    (hid : σ'.snapshotId = σ.snapshotId) : NumbersListed σ' := by
  rw [NumbersListed, hdb, hid]
  exact h

theorem NumbersListed.newSnapshot (h : NumbersListed σ) (name : QString) :
    NumbersListed (σ.newSnapshot E name).2 := by
  obtain ⟨names, hl, -⟩ := h.exists_names E
  by_cases hname : name ∈ names ++ [currentName]
  · obtain ⟨-, hdb, hid⟩ := newSnapshot_of_mem hl hname
    exact h.congr (by rw [hdb]) hid
  · exact (h.newSnapshot_of_notMem hl hname).2.2.2.1

/-- Operations on documents leave the list alone. -/
theorem NumbersListed.transactAll (h : NumbersListed σ) {ops : List TxOp}
    (hops : ∀ op ∈ ops, Transaction.OnDocuments op) : NumbersListed (σ.transactAll E ops).2 := by
  obtain ⟨wss, -, hc⟩ := Collection.transactAll_spec (E := E) (σ := σ) hops
  exact h.congr (Collection.find?_snapshotsKey_transactAll hops) hc.snapshotId

theorem NumbersListed.revertToSnapshot (h : NumbersListed σ) (name : QString) :
    NumbersListed (σ.revertToSnapshot E name).2 := by
  rcases Collection.revertToSnapshot_spec (E := E) (σ := σ) name with
    ⟨-, -, hdb, hid⟩ | ⟨l, -, hmem, -, hdb, hid⟩
  · exact h.congr (by rw [hdb]) hid
  · -- the list is cut behind the name
    refine ⟨_, by rw [hdb, Collection.find?_revert_snapshotsKey], ?_⟩
    have hidx := List.idxOf_lt_length_of_mem hmem
    have hle : l.idxOf name % 256 ≤ l.idxOf name := Nat.mod_le _ _
    rw [hid, List.length_dropLast, List.length_take, Fin.val_ofNat]
    ext
    simp only [Fin.val_ofNat]
    omega

/-- **Every request** on documents and snapshots keeps the number listed. -/
theorem numbersListed_served {F : Set QByteArray} {op : Op} {r : ResultEnum} (hop : OpIds F op)
    (happly : op.apply E σ = some (r, σ')) (h : NumbersListed σ) : NumbersListed σ' := by
  match op with
  | .transact (.insert doc gen overwrite ignoreReadOnlyValue) =>
    obtain rfl := congrArg Prod.snd (Option.some.inj happly)
    have hops : ∀ op ∈ [TxOp.insert doc gen overwrite ignoreReadOnlyValue],
        Transaction.OnDocuments op := List.forall_mem_singleton.mpr trivial
    rw [← Collection.transactAll_singleton]
    exact h.transactAll hops
  | .transact (.removeById id ignoreReadOnlyValue) =>
    obtain rfl := congrArg Prod.snd (Option.some.inj happly)
    have hops : ∀ op ∈ [TxOp.removeById id ignoreReadOnlyValue], Transaction.OnDocuments op :=
      List.forall_mem_singleton.mpr trivial
    rw [← Collection.transactAll_singleton]
    exact h.transactAll hops
  | .transact (.createIndex fieldName indexName) =>
    obtain rfl := congrArg Prod.snd (Option.some.inj happly)
    obtain ⟨ws, hw, hc⟩ := Collection.transact_createIndex (E := E) (σ := σ) fieldName indexName
    refine h.congr (hc.find?_of_forall_ne fun w hmem hk => ?_) hc.snapshotId
    rcases hw w hmem with ⟨⟨n, t, d, hkey⟩, -⟩ | ⟨t, rfl⟩
    · exact constructIndexValueKey_ne_snapshotsKey n t d (hkey ▸ hk)
    · exact absurd hk (show indexesKey ≠ snapshotsKey by decide)
  | .batch ops =>
    obtain rfl := congrArg Prod.snd (Option.some.inj happly)
    exact h.transactAll fun op hmem => (hop op hmem).onDocuments
  | .newSnapshot name =>
    obtain rfl := congrArg Prod.snd (Option.some.inj happly)
    exact h.newSnapshot name
  | .revertToSnapshot name =>
    obtain rfl := congrArg Prod.snd (Option.some.inj happly)
    exact h.revertToSnapshot name

theorem numbersListed_open : NumbersListed (Collection.open E .empty) := by
  obtain ⟨hdb, hid⟩ := Collection.open_empty (E := E)
  exact ⟨[], by rw [hdb, SortedMap.find?_insert_self]; rfl, hid⟩

/-- **Every collection** that was opened on an empty store has its number listed, whatever
insertions, removals by id, indexes, snapshots and reverts it has served. -/
theorem numbersListed_of_reachable {F : Set QByteArray} (h : Reachable E (fun _ => OpIds F) σ) :
    NumbersListed σ := by
  induction h with
  | opened => exact numbersListed_open
  | served _ hop happly ih => exact numbersListed_served hop happly ih

theorem numbersListed_of_run {σ₀ : Collection} (h₀ : NumbersListed σ₀)
    (h : SnapshotRun E σ₀ σ) : NumbersListed σ := by
  induction h with
  | start => exact h₀
  | @served σ σ' op r _ hop happly ih =>
    refine numbersListed_served (F := Set.univ) ?_ happly ih
    match op with
    | .transact (.insert _ _ _ _) => exact fun _ _ _ => trivial
    | .newSnapshot _ => trivial

/-- All numbers show what they showed. -/
theorem NumbersListed.documents_newSnapshot (h : NumbersListed σ) {name : QString}
    {names : List QString} (hl : σ.getSnapshotsValue E = .ok (names ++ [currentName]))
    (hname : name ∉ names ++ [currentName]) (s : Byte) :
    ((σ.newSnapshot E name).2.getSnapshot E s).documents E = (σ.getSnapshot E s).documents E := by
  rw [Reader.documents, Reader.documents]
  exact congrArg (fun l : List (QByteArray × QJsonObject) => {p | p ∈ l})
    ((h.newSnapshot_of_notMem hl hname).2.2.2.2 s)

/-- The current view is the one of the next number. -/
theorem NumbersListed.documents_reader_newSnapshot (h : NumbersListed σ) {name : QString}
    {names : List QString} (hl : σ.getSnapshotsValue E = .ok (names ++ [currentName]))
    (hname : name ∉ names ++ [currentName]) :
    ((σ.newSnapshot E name).2.reader E).documents E =
      (σ.getSnapshot E (σ.snapshotId + 1)).documents E := by
  rw [← h.documents_newSnapshot hl hname, ← (h.newSnapshot_of_notMem hl hname).2.1]
  rfl

theorem NewSnapshotKeeps.nextShowsCurrent {name : QString} (hkeeps : NewSnapshotKeeps E σ name)
    (h : NumbersListed σ) {names : List QString}
    (hl : σ.getSnapshotsValue E = .ok (names ++ [currentName]))
    (hname : name ∉ names ++ [currentName]) : NextShowsCurrent E σ := by
  rcases hkeeps.1 with ⟨hfail, -⟩ | ⟨-, hkeeps⟩
  · exact absurd (h.newSnapshot_of_notMem hl hname).1 hfail
  · exact (h.documents_reader_newSnapshot hl hname).symm.trans hkeeps.current

/-- **New snapshots**: in every state that insertions and new snapshots lead to, a new snapshot
keeps all views, and opening the store again shows the current one, if and only if the name is
listed, so that it is refused, or the next number shows what the current one shows. -/
theorem newSnapshotKeeps_iff {σ₀ : Collection} (h₀ : NumbersListed σ₀) (h : SnapshotRun E σ₀ σ)
    (name : QString) :
    NewSnapshotKeeps E σ name ↔
      (∃ i, σ.getSnapshotId E name = .ok i) ∨ NextShowsCurrent E σ := by
  have hlisted := numbersListed_of_run h₀ h
  obtain ⟨names, hl, hs⟩ := hlisted.exists_names E
  have hreopened : ((Collection.open E (σ.newSnapshot E name).2.db).reader E).documents E =
      ((σ.newSnapshot E name).2.reader E).documents E := by
    obtain ⟨hdb, hs⟩ := (hlisted.newSnapshot (E := E) name).open (E := E)
    rw [Reader.documents, Reader.documents, Collection.reader, Collection.reader, hdb, hs]
  by_cases hname : name ∈ names ++ [currentName]
  · exact iff_of_true ⟨.inl (newSnapshot_of_mem hl hname), hreopened⟩
      (.inl ⟨_, Collection.getSnapshotId_of_mem hl hname⟩)
  rw [or_iff_right (mt (Collection.exists_getSnapshotId_iff hl).mp hname)]
  refine ⟨fun hkeeps => hkeeps.nextShowsCurrent hlisted hl hname, fun hsame => ⟨.inr ?_, hreopened⟩⟩
  obtain ⟨hsuccess, -, hl', -⟩ := hlisted.newSnapshot_of_notMem hl hname
  have hview : ∀ s, _ := hlisted.documents_newSnapshot hl hname
  have hcurrent := (hlisted.documents_reader_newSnapshot hl hname).trans hsame
  refine ⟨hsuccess, hcurrent, fun n i hn hi => ?_, ?_⟩
  · obtain ⟨hmem, rfl⟩ := (Collection.getSnapshotId_eq_ok_iff hl hn).mp hi
    refine ⟨_, (Collection.getSnapshotId_eq_ok_iff hl' hn).mpr
      ⟨List.mem_append_left _ hmem, rfl⟩, ?_⟩
    rw [List.idxOf_append_of_mem hmem, hview]
  · -- the position of the new name is the number that was the current one
    have hmem : name ∈ names ++ [name] ++ [currentName] := by simp
    have hnames : name ∉ names := fun h => hname (List.mem_append_left _ h)
    refine ⟨_, Collection.getSnapshotId_of_mem hl' hmem, ?_⟩
    rw [List.append_assoc, List.idxOf_append_of_notMem hnames, List.singleton_append,
      List.idxOf_cons_self, Nat.add_zero, ← hs, hview, hcurrent]
    rfl

/-- **Up to 254 snapshots** in serial use, the next number shows what the current one shows. -/
theorem nextShowsCurrent_of_reachable {F : Set QByteArray} (hF : SafeIds F)
    (h : Reachable E (SerialOp E F) σ) (hroom : σ.snapshotId.val < 255) :
    NextShowsCurrent E σ := by
  obtain ⟨hσ, hversions⟩ := versionsUpTo_of_reachable hF.plain h
  have hle : σ.snapshotId ≤ σ.snapshotId + 1 := by
    rw [Fin.le_def, Fin.val_add]
    exact (Nat.le_succ _).trans_eq
      (Nat.mod_eq_of_lt (show σ.snapshotId.val + 1 < 256 by omega)).symm
  ext ⟨I, o⟩
  rw [SerialStore.mem_documents_iff hF.separated (R := σ.getSnapshot E (σ.snapshotId + 1)) hσ,
    SerialStore.mem_documents_iff hF.separated (R := σ.reader E) hσ]
  exact and_congr_right fun hI => by
    rw [Collection.getSnapshot, Collection.reader, hversions.visible_of_le hI hle]

end Law

/-! ## The number 255 -/

theorem SnapshotRun.of_reachable {E : Env} {ok : Collection → Op → Prop}
    (hok : ∀ σ op, ok σ op → InsertOrSnapshot op) {σ : Collection} (h : Reachable E ok σ) :
    SnapshotRun E (Collection.open E .empty) σ := by
  induction h with
  | opened => exact .start
  | served _ hop happly ih => exact ih.served (hok _ _ hop) happly

/-- A snapshot `A` of the document `a`. -/
theorem newSnapshotKeeps_insertedA :
    NewSnapshotKeeps (Env.plain .levelDB) (insertedA .levelDB) (qs "A") := by
  have hop : InsertOrSnapshot (.transact (.insertField "a" "n" .null)) := trivial
  refine (newSnapshotKeeps_iff numbersListed_open (SnapshotRun.start.served hop rfl)
    (qs "A")).mpr (.inr (nextShowsCurrent_of_reachable safeIds_oneByteIds reachable_insertedA ?_))
  decide

/-- A document that is inserted behind 255 snapshots is gone after the next one. -/
theorem not_newSnapshotKeeps :
    ¬ ∀ (E : Env) (σ₀ σ : Collection) (name : QString), NumbersListed σ₀ →
      SnapshotRun E σ₀ σ → NewSnapshotKeeps E σ name := by
  intro h
  let ok : Collection → Op → Prop := fun σ op =>
    ModifiedOp (Env.plain .map) oneByteIds σ op ∧ InsertOrSnapshot op
  obtain ⟨σ, names, hσ, hs, hl, hlen, hcur, hseen, hnone⟩ :=
    @exists_insertedBehind ok
      (fun σ name l hl hroom => ⟨modifiedOp_newSnapshot σ name l hl hroom, trivial⟩)
      (fun _ => ⟨⟨txIds_insertFieldA, fun _ => nofun⟩, trivial⟩) 255 le_rfl
  have hinv := serialInv_of_modifiedRun safeIds_oneByteIds.plain (hσ.mono fun _ _ hop => hop.1)
  have hrun := SnapshotRun.of_reachable (fun _ _ hop => hop.2) hσ
  obtain ⟨name, hname⟩ := Infinite.exists_notMem_finset (names ++ [currentName]).toFinset
  rw [List.mem_toFinset] at hname
  have hnext := (h _ _ σ name numbersListed_open hrun).nextShowsCurrent
    (numbersListed_of_run numbersListed_open hrun) hl hname
  -- the number 0 does not show the document
  obtain ⟨o, ho⟩ := Option.ne_none_iff_exists'.mp hseen
  have hmem : (bytes "a", o) ∈ (σ.reader (Env.plain .map)).documents (Env.plain .map) :=
    (SerialStore.mem_documents_iff safeIds_oneByteIds.separated
      (R := σ.reader (Env.plain .map)) hinv).mpr ⟨by decide, ho⟩
  rw [← hnext] at hmem
  have hzero := ((SerialStore.mem_documents_iff safeIds_oneByteIds.separated
    (R := σ.getSnapshot (Env.plain .map) (σ.snapshotId + 1)) hinv).mp hmem).2
  have hwrap : (σ.snapshotId + 1).val = 0 := by
    rw [Fin.val_add, hs]
    rfl
  have hgone : visible σ.db (σ.snapshotId + 1) (bytes "a") = none :=
    visible_eq_none_of_forall fun t ht => hnone t fun heq => by
      rw [Fin.le_def, hwrap, heq, hs] at ht
      omega
  exact Option.some_ne_none o (hzero.symm.trans hgone)

end Qdocdb
