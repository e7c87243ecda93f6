import Mathlib.Data.List.AList
import Qdocdb.Lib.WriteLog
import Qdocdb.Text

/-!
# The key/value stores

`QDocKVInterface` has two implementations: LevelDB and an in-memory `QMap`. Both
keep their keys in bytewise order, so the content of either is a `SortedMap`; they
differ in where `seek` puts an iterator and in how a transaction is committed.

A transaction remembers the newest value of each key it put (`cache`) and whether
the newest write of a key was a deletion (`cacheDeleted`); the LevelDB one also
appends every write to a batch. Committing the batch replays it in order.
Committing the `QMap` transaction erases the deleted keys and then writes the
whole cache, deleted keys included, and stops half-way at a deleted key that is
not there.
-/

namespace Qdocdb

/-- The implementation behind `QDocKVInterface`. -/
inductive Backend where
  /-- `QDocKVLevelDB` -/
  | levelDB
  /-- `QDocKVMap` -/
  | map
  deriving DecidableEq

/-- The result codes of the key/value layer that the model produces. -/
inductive KVResult where
  | success
  | errorOperation
  deriving DecidableEq

/-- The text `getValue` leaves when the base does not hold the key. -/
def Backend.notFoundError : Backend → String
  | levelDB => "NotFound: "
  | map => "Not found"

/-- `QDocKVLevelDBTransaction` and `QDocKVMapTransaction`. -/
structure KVTransaction (K V : Type) where
  /-- `leveldb::WriteBatch`; stays empty on the map backend -/
  batch : List (WriteOp K V)
  /-- `cache` -/
  cache : AList fun _ : K => V
  /-- `cacheDeleted` -/
  cacheDeleted : AList fun _ : K => Bool

variable {K V : Type} [LinearOrder K]

/-- `getValue` of a store. -/
def kvGetValue (B : Backend) (db : SortedMap K V) (key : K) : Except String V :=
  match db.find? key with
  | some v => .ok v
  | none => .error B.notFoundError

/-- The entries from where `seek` positions an iterator. -/
def kvSeek (B : Backend) (db : SortedMap K V) (key : K) : List (K × V) :=
  match B with
  | .levelDB => db.seekGE key
  | .map => db.seekEq key

namespace KVTransaction

/-- A transaction that has not written. -/
def new : KVTransaction K V := ⟨[], ∅, ∅⟩

/-- `getValue`; the two transaction classes have the same body. -/
def getValue (B : Backend) (db : SortedMap K V) (tx : KVTransaction K V) (key : K) :
    Except String V :=
  if tx.cacheDeleted.lookup key = some true then .error "Not found"
  else
    match tx.cache.lookup key with
    | some v => .ok v
    | none => kvGetValue B db key

end KVTransaction

/-! ### QDocKVLevelDBTransaction -/

namespace QDocKVLevelDBTransaction

/-- `QDocKVLevelDBTransaction::putValue`. -/
def putValue (tx : KVTransaction K V) (key : K) (value : V) : KVTransaction K V where
  batch := tx.batch ++ [.put key value]
  cache := tx.cache.insert key value
  cacheDeleted := tx.cacheDeleted.insert key false

/-- `QDocKVLevelDBTransaction::deleteValue`. -/
def deleteValue (tx : KVTransaction K V) (key : K) : KVTransaction K V where
  batch := tx.batch ++ [.delete key]
  cache := tx.cache
  cacheDeleted := tx.cacheDeleted.insert key true

/-- `QDocKVLevelDBTransaction::writeTransaction`: the batch is applied in order. -/
def writeTransaction (db : SortedMap K V) (tx : KVTransaction K V) :
    KVResult × SortedMap K V :=
  (.success, db.applyLog tx.batch)

end QDocKVLevelDBTransaction

/-! ### QDocKVMapTransaction -/

namespace QDocKVMapTransaction

/-- `QDocKVMapTransaction::putValue`. -/
def putValue (tx : KVTransaction K V) (key : K) (value : V) : KVTransaction K V where
  batch := tx.batch
  cache := tx.cache.insert key value
  cacheDeleted := tx.cacheDeleted.insert key false

/-- `QDocKVMapTransaction::deleteValue`. -/
def deleteValue (tx : KVTransaction K V) (key : K) : KVTransaction K V where
  batch := tx.batch
  cache := tx.cache
  cacheDeleted := tx.cacheDeleted.insert key true

/-- The first loop of `writeTransaction`: erase the deleted keys, and return in the
middle of it at one that the store does not hold. -/
def eraseDeleted (tx : KVTransaction K V) : List K → SortedMap K V → KVResult × SortedMap K V
  | [], db => (.success, db)
  | key :: keys, db =>
    if tx.cacheDeleted.lookup key = some true then
      match db.find? key with
      | none => (.errorOperation, db)
      | some _ => eraseDeleted tx keys (db.erase key)
    else eraseDeleted tx keys db

/-- The second loop: write every cached value. -/
def putCached (tx : KVTransaction K V) : List K → SortedMap K V → SortedMap K V
  | [], db => db
  | key :: keys, db =>
    match tx.cache.lookup key with
    | some v => putCached tx keys (db.insert key v)
    | none => putCached tx keys db

/-- `QDocKVMapTransaction::writeTransaction`. -/
def writeTransaction (db : SortedMap K V) (tx : KVTransaction K V) :
    KVResult × SortedMap K V :=
  match eraseDeleted tx tx.cacheDeleted.keys db with
  | (.success, db') => (.success, putCached tx tx.cache.keys db')
  | (r, db') => (r, db')

end QDocKVMapTransaction

/-! ## Transactions of either backend -/

namespace KVTransaction

/-- `putValue`. -/
def putValue (B : Backend) (tx : KVTransaction K V) (key : K) (value : V) :
    KVTransaction K V :=
  match B with
  | .levelDB => QDocKVLevelDBTransaction.putValue tx key value
  | .map => QDocKVMapTransaction.putValue tx key value

/-- `deleteValue`. -/
def deleteValue (B : Backend) (tx : KVTransaction K V) (key : K) : KVTransaction K V :=
  match B with
  | .levelDB => QDocKVLevelDBTransaction.deleteValue tx key
  | .map => QDocKVMapTransaction.deleteValue tx key

/-- `writeTransaction`. -/
def writeTransaction (B : Backend) (db : SortedMap K V) (tx : KVTransaction K V) :
    KVResult × SortedMap K V :=
  match B with
  | .levelDB => QDocKVLevelDBTransaction.writeTransaction db tx
  | .map => QDocKVMapTransaction.writeTransaction db tx

/-- One call of `putValue` or `deleteValue`. -/
def write (B : Backend) (tx : KVTransaction K V) : WriteOp K V → KVTransaction K V
  | .put key value => tx.putValue B key value
  | .delete key => tx.deleteValue B key

/-- A sequence of calls. -/
def writes (B : Backend) (tx : KVTransaction K V) (ws : List (WriteOp K V)) :
    KVTransaction K V :=
  ws.foldl (fun tx w => tx.write B w) tx

@[simp] theorem writes_nil (B : Backend) (tx : KVTransaction K V) : tx.writes B [] = tx := rfl

theorem writes_append (B : Backend) (tx : KVTransaction K V) (ws ws' : List (WriteOp K V)) :
    tx.writes B (ws ++ ws') = (tx.writes B ws).writes B ws' :=
  List.foldl_append

theorem writes_concat (B : Backend) (tx : KVTransaction K V) (ws : List (WriteOp K V))
    (w : WriteOp K V) : tx.writes B (ws ++ [w]) = (tx.writes B ws).write B w := by
  rw [writes_append]
  rfl

/-! ### What the overlay remembers -/

theorem cacheDeleted_write (B : Backend) (tx : KVTransaction K V) (w : WriteOp K V) :
    (tx.write B w).cacheDeleted = tx.cacheDeleted.insert w.key w.outcome.isNone := by
  cases B <;> cases w <;> rfl

theorem cache_write (B : Backend) (tx : KVTransaction K V) (w : WriteOp K V) (k : K) :
    (tx.write B w).cache.lookup k =
      (if w.key = k then w.outcome else none).or (tx.cache.lookup k) := by
  have hput : ∀ key value, (tx.cache.insert key value).lookup k =
      (if key = k then some value else none).or (tx.cache.lookup k) := by
    intro key value
    by_cases h : key = k
    · subst h
      rw [AList.lookup_insert, if_pos rfl, Option.some_or]
    · rw [AList.lookup_insert_ne (Ne.symm h), if_neg h, Option.none_or]
  cases w with
  | put key value => cases B <;> exact hput key value
  | delete key =>
    rw [WriteOp.outcome_delete, ite_self, Option.none_or]
    cases B <;> rfl

theorem cacheDeleted_writes (B : Backend) (ws : List (WriteOp K V)) (k : K) :
    ((new : KVTransaction K V).writes B ws).cacheDeleted.lookup k =
      (lastWrite ws k).map Option.isNone := by
  induction ws using List.reverseRecOn with
  | nil => rfl
  | append_singleton ws w ih =>
    rw [writes_concat, cacheDeleted_write, lastWrite_concat]
    by_cases h : w.key = k
    · subst h
      rw [AList.lookup_insert, if_pos rfl, Option.map_some]
    · rw [AList.lookup_insert_ne (Ne.symm h), if_neg h, ih]

/-- Whether the newest write of a key is a deletion, for the keys that were written. -/
def isDeleted (tx : KVTransaction K V) (key : K) : Option Bool := tx.cacheDeleted.lookup key

theorem isDeleted_writes (B : Backend) (ws : List (WriteOp K V)) (k : K) :
    ((new : KVTransaction K V).writes B ws).isDeleted k = (lastWrite ws k).map Option.isNone :=
  cacheDeleted_writes B ws k

theorem cache_writes (B : Backend) (ws : List (WriteOp K V)) (k : K) :
    ((new : KVTransaction K V).writes B ws).cache.lookup k = lastPut ws k := by
  induction ws using List.reverseRecOn with
  | nil => rfl
  | append_singleton ws w ih => rw [writes_concat, cache_write, lastPut_concat, ih]

theorem notMem_cache_writes_iff {B : Backend} {ws : List (WriteOp K V)} {k : K} :
    k ∉ ((new : KVTransaction K V).writes B ws).cache ↔ ∀ v, WriteOp.put k v ∉ ws := by
  rw [← AList.lookup_eq_none, cache_writes, lastPut_eq_none_iff]

theorem batch_writes (ws : List (WriteOp K V)) :
    ((new : KVTransaction K V).writes .levelDB ws).batch = ws := by
  induction ws using List.reverseRecOn with
  | nil => rfl
  | append_singleton ws w ih =>
    rw [writes_concat]
    cases w <;>
      simp [write, putValue, deleteValue, QDocKVLevelDBTransaction.putValue,
        QDocKVLevelDBTransaction.deleteValue, ih]

/-- **Reads inside a transaction** are reads of the base with the writes so far
applied in order. -/
theorem getValue_writes (B : Backend) (db : SortedMap K V) (ws : List (WriteOp K V)) (k : K) :
    (((new : KVTransaction K V).writes B ws).getValue B db k).toOption =
      (db.applyLog ws).find? k := by
  rw [getValue, cacheDeleted_writes, cache_writes, SortedMap.find?_applyLog]
  rcases hl : lastWrite ws k with - | - | v
  · have hput : lastPut ws k = none := by
      rw [lastPut_eq_none_iff]
      exact fun v hv => lastWrite_eq_none_iff.mp hl _ hv rfl
    rw [hput, Option.map_none, if_neg (by simp), kvGetValue, Option.getD_none]
    cases db.find? k <;> rfl
  · rfl
  · rw [lastPut_of_lastWrite_eq_some hl]
    rfl

end KVTransaction

/-! ## Committing the map transaction -/

namespace QDocKVMapTransaction

/-- The erasing loop goes through when every deleted key is there. -/
theorem eraseDeleted_success_iff (tx : KVTransaction K V) :
    ∀ {keys : List K}, keys.Nodup → ∀ db : SortedMap K V,
      ((eraseDeleted tx keys db).1 = .success ↔
        ∀ k ∈ keys, tx.cacheDeleted.lookup k = some true → db.find? k ≠ none) := by
  intro keys
  induction keys with
  | nil => intro _ db; simp [eraseDeleted]
  | cons key keys ih =>
    intro hnd db
    obtain ⟨hkey, hnd⟩ := List.nodup_cons.mp hnd
    rw [eraseDeleted]
    by_cases hd : tx.cacheDeleted.lookup key = some true
    · rw [if_pos hd]
      rcases hf : db.find? key with - | v
      · simp [hd, hf]
      · -- erasing `key` does not touch the keys still to come
        have hstep : ∀ k ∈ keys, (db.erase key).find? k = db.find? k := fun k hk =>
          db.find?_erase_of_ne fun h => hkey (h ▸ hk)
        simp only [List.forall_mem_cons, hf, ne_eq, reduceCtorEq, not_false_eq_true, implies_true,
          true_and]
        rw [ih hnd]
        exact forall₂_congr fun k hk => by rw [hstep k hk]
    · rw [if_neg hd, ih hnd]
      simp [hd]

/-- What the erasing loop leaves: deleted keys are gone, the others stay. -/
theorem find?_eraseDeleted (tx : KVTransaction K V) :
    ∀ (keys : List K) (db : SortedMap K V), (eraseDeleted tx keys db).1 = .success →
      ∀ k, (eraseDeleted tx keys db).2.find? k =
        if k ∈ keys ∧ tx.cacheDeleted.lookup k = some true then none else db.find? k := by
  intro keys
  induction keys with
  | nil => intro db _ k; simp [eraseDeleted]
  | cons key keys ih =>
    intro db hs k
    rw [eraseDeleted] at hs ⊢
    by_cases hd : tx.cacheDeleted.lookup key = some true
    · rw [if_pos hd] at hs ⊢
      rcases hf : db.find? key with - | v
      · rw [hf] at hs
        cases hs
      · rw [hf] at hs
        simp only
        rw [ih _ hs k]
        rcases eq_or_ne k key with rfl | hne
        · simp [hd]
        · rw [db.find?_erase_of_ne hne]
          simp [hne]
    · rw [if_neg hd] at hs ⊢
      rw [ih _ hs k]
      rcases eq_or_ne k key with rfl | hne
      · simp [hd]
      · simp [hne]

/-- Whether or not it goes through, the erasing loop only removes deleted keys. -/
theorem find?_eraseDeleted_cases (tx : KVTransaction K V) (k : K) :
    ∀ (keys : List K) (db : SortedMap K V),
      (eraseDeleted tx keys db).2.find? k = db.find? k ∨
        ((eraseDeleted tx keys db).2.find? k = none ∧ tx.cacheDeleted.lookup k = some true) := by
  intro keys
  induction keys with
  | nil => exact fun _ => .inl rfl
  | cons key keys ih =>
    intro db
    rw [eraseDeleted]
    by_cases hd : tx.cacheDeleted.lookup key = some true
    · rw [if_pos hd]
      rcases hf : db.find? key with - | v
      · exact .inl rfl
      · simp only
        rcases ih (db.erase key) with h | ⟨h, hk⟩
        · rw [h]
          rcases eq_or_ne k key with rfl | hne
          · exact .inr ⟨db.find?_erase_self k, hd⟩
          · exact .inl (db.find?_erase_of_ne hne)
        · exact .inr ⟨h, hk⟩
    · rw [if_neg hd]
      exact ih db

theorem find?_putCached (tx : KVTransaction K V) :
    ∀ {keys : List K} {db : SortedMap K V} (k : K),
      (putCached tx keys db).find? k =
        if k ∈ keys then (tx.cache.lookup k).or (db.find? k) else db.find? k := by
  intro keys
  induction keys with
  | nil => intro db k; simp [putCached]
  | cons key keys ih =>
    intro db k
    rw [putCached]
    rcases hc : tx.cache.lookup key with - | v
    · simp only
      rw [ih k]
      rcases eq_or_ne k key with rfl | hne
      · simp [hc]
      · simp [hne]
    · simp only
      rw [ih k]
      rcases eq_or_ne k key with rfl | hne
      · simp [hc]
      · simp [hne, db.find?_insert_of_ne v hne]

/-- A map commit succeeds when every key it deletes is in the store. -/
theorem writeTransaction_success_iff {db : SortedMap K V} {tx : KVTransaction K V} :
    (writeTransaction db tx).1 = .success ↔
      ∀ k, tx.cacheDeleted.lookup k = some true → db.find? k ≠ none := by
  have hloop := eraseDeleted_success_iff tx tx.cacheDeleted.keys_nodup db
  have hiff : (writeTransaction db tx).1 = .success ↔
      (eraseDeleted tx tx.cacheDeleted.keys db).1 = .success := by
    rw [writeTransaction]
    rcases eraseDeleted tx tx.cacheDeleted.keys db with ⟨- | -, db'⟩ <;> simp
  rw [hiff, hloop]
  refine ⟨fun h k hk => h k ?_ hk, fun h k _ hk => h k hk⟩
  rw [← AList.mem_keys, ← AList.lookup_isSome, hk, Option.isSome_some]

/-- After a map commit a cached key holds its cached value, even when it was
deleted after it was put. -/
theorem find?_writeTransaction {db : SortedMap K V} {tx : KVTransaction K V}
    (hs : (writeTransaction db tx).1 = .success) (k : K) :
    (writeTransaction db tx).2.find? k =
      (tx.cache.lookup k).or (if tx.cacheDeleted.lookup k = some true then none else db.find? k) := by
  rw [writeTransaction] at hs ⊢
  rcases he : eraseDeleted tx tx.cacheDeleted.keys db with ⟨r, db'⟩
  cases r with
  | errorOperation =>
    rw [he] at hs
    cases hs
  | success =>
    have hdb' := find?_eraseDeleted tx tx.cacheDeleted.keys db (by rw [he]) k
    rw [he] at hdb'
    have hmem : (k ∈ tx.cacheDeleted.keys ∧ tx.cacheDeleted.lookup k = some true) ↔
        tx.cacheDeleted.lookup k = some true := by
      refine and_iff_right_of_imp fun h => ?_
      rw [← AList.mem_keys, ← AList.lookup_isSome, h, Option.isSome_some]
    simp only [hmem] at hdb'
    simp only
    rw [find?_putCached, hdb']
    by_cases hk : k ∈ tx.cache.keys
    · rw [if_pos hk]
    · have hnone : tx.cache.lookup k = none := by
        rw [AList.lookup_eq_none, AList.mem_keys]
        exact hk
      rw [if_neg hk, hnone, Option.none_or]

/-- A refused map commit has only erased. -/
theorem find?_writeTransaction_of_error {db : SortedMap K V} {tx : KVTransaction K V}
    (hs : (writeTransaction db tx).1 = .errorOperation) (k : K) :
    (writeTransaction db tx).2.find? k = db.find? k ∨
      ((writeTransaction db tx).2.find? k = none ∧ tx.cacheDeleted.lookup k = some true) := by
  have h := find?_eraseDeleted_cases tx k tx.cacheDeleted.keys db
  rw [writeTransaction] at hs ⊢
  rcases he : eraseDeleted tx tx.cacheDeleted.keys db with ⟨- | -, db'⟩
  · rw [he] at hs
    cases hs
  · rw [he] at h
    exact h

end QDocKVMapTransaction

/-! ## Committing a sequence of writes -/

/-- Commit a transaction that made the writes `ws`. -/
def commit (B : Backend) (db : SortedMap K V) (ws : List (WriteOp K V)) :
    KVResult × SortedMap K V :=
  ((KVTransaction.new : KVTransaction K V).writes B ws).writeTransaction B db

section Commit

variable {B : Backend} {db : SortedMap K V} {ws : List (WriteOp K V)}

theorem commit_levelDB : commit .levelDB db ws = (.success, db.applyLog ws) := by
  rw [commit, KVTransaction.writeTransaction, QDocKVLevelDBTransaction.writeTransaction,
    KVTransaction.batch_writes]

/-- Only the map backend refuses a commit: one that deletes a key it does not hold. -/
theorem commit_success_iff : (commit B db ws).1 = .success ↔
    (B = .map → ∀ k, lastWrite ws k = some none → db.find? k ≠ none) := by
  cases B with
  | levelDB => simp [commit_levelDB]
  | map =>
    rw [commit, KVTransaction.writeTransaction,
      QDocKVMapTransaction.writeTransaction_success_iff]
    refine ⟨fun h _ k hk => h k ?_, fun h k hk => h rfl k ?_⟩
    · rw [KVTransaction.cacheDeleted_writes, hk]
      rfl
    · rw [KVTransaction.cacheDeleted_writes, Option.map_eq_some_iff] at hk
      obtain ⟨o, ho, hnone⟩ := hk
      rw [ho, Option.isNone_iff_eq_none.mp hnone]

/-- On the map backend a key that was ever put ends up with its last put. -/
theorem find?_commit_map (hs : (commit .map db ws).1 = .success) (k : K) :
    (commit .map db ws).2.find? k =
      (lastPut ws k).or ((lastWrite ws k).getD (db.find? k)) := by
  rw [commit, KVTransaction.writeTransaction] at hs ⊢
  rw [QDocKVMapTransaction.find?_writeTransaction hs, KVTransaction.cache_writes,
    KVTransaction.cacheDeleted_writes]
  rcases hl : lastWrite ws k with - | - | v
  · simp
  · simp
  · rw [lastPut_of_lastWrite_eq_some hl, Option.some_or, Option.some_or]

/-- The map applies all deletions before all puts. -/
theorem commit_map (hs : (commit .map db ws).1 = .success) :
    (commit .map db ws).2 = db.applyLog
      (ws.filter (fun w => w.outcome.isNone) ++ ws.filter fun w => w.outcome.isSome) := by
  refine SortedMap.ext_find? fun k => ?_
  rw [find?_commit_map hs, SortedMap.find?_applyLog, lastWrite_append, lastWrite_filter_put]
  rcases hput : lastPut ws k with - | v
  · rw [Option.none_or, Option.map_none, Option.none_or]
    rcases hl : lastWrite ws k with - | - | v
    · rw [lastWrite_filter_delete_eq_none hl]
    · obtain ⟨w, hw, hk, ho⟩ := exists_mem_of_lastWrite_eq_some hl
      have hdel : w = .delete k := WriteOp.ext_key_outcome hk ho
      rw [lastWrite_filter_delete (hdel ▸ hw)]
    · rw [lastPut_of_lastWrite_eq_some hl] at hput
      cases hput
  · rfl

/-- After a commit that goes through, a key that was not put and deleted again holds
what applying the writes in order leaves there. -/
theorem find?_commit (hs : (commit B db ws).1 = .success) {k : K}
    (hput : B = .map → lastWrite ws k = some none → lastPut ws k = none) :
    (commit B db ws).2.find? k = (db.applyLog ws).find? k := by
  cases B with
  | levelDB => rw [commit_levelDB]
  | map =>
    rw [find?_commit_map hs, SortedMap.find?_applyLog]
    rcases hl : lastWrite ws k with - | - | v
    · have hnone : lastPut ws k = none :=
        lastPut_eq_none_iff.mpr fun v hv => lastWrite_eq_none_iff.mp hl _ hv rfl
      rw [hnone, Option.none_or]
    · rw [hput rfl hl, Option.none_or]
    · rw [lastPut_of_lastWrite_eq_some hl, Option.some_or, Option.getD_some]

/-- A key that was put last holds its value after a commit that goes through. -/
theorem find?_commit_of_put (hs : (commit B db ws).1 = .success) {k : K} {v : V}
    (h : lastWrite ws k = some (some v)) : (commit B db ws).2.find? k = some v := by
  have hput : B = .map → lastWrite ws k = some none → lastPut ws k = none := fun _ hd => by
    rw [h] at hd
    cases hd
  rw [find?_commit hs hput, SortedMap.find?_applyLog, h, Option.getD_some]

/-- A commit that goes through and deletes no key it put before applies its writes
in order. -/
theorem commit_eq_applyLog (hs : (commit B db ws).1 = .success)
    (hput : B = .map → ∀ k, lastWrite ws k = some none → lastPut ws k = none) :
    (commit B db ws).2 = db.applyLog ws :=
  SortedMap.ext_find? fun k => find?_commit hs fun hB => hput hB k

/-- Whatever becomes of a commit, it leaves under each key what was there, or what one
of its writes says. -/
theorem find?_commit_cases (B : Backend) (db : SortedMap K V) (ws : List (WriteOp K V)) (k : K) :
    (commit B db ws).2.find? k = db.find? k ∨
      ∃ w ∈ ws, w.key = k ∧ (commit B db ws).2.find? k = w.outcome := by
  have hlog : (lastWrite ws k).getD (db.find? k) = db.find? k ∨
      ∃ w ∈ ws, w.key = k ∧ (lastWrite ws k).getD (db.find? k) = w.outcome := by
    rcases hl : lastWrite ws k with - | o
    · exact .inl rfl
    · obtain ⟨w, hw, hk, ho⟩ := exists_mem_of_lastWrite_eq_some hl
      exact .inr ⟨w, hw, hk, ho.symm⟩
  cases B with
  | levelDB => rwa [commit_levelDB, SortedMap.find?_applyLog]
  | map =>
    rcases hs : (commit .map db ws).1 with - | -
    · rw [find?_commit_map hs]
      rcases hp : lastPut ws k with - | v
      · rwa [Option.none_or]
      · exact .inr ⟨_, mem_of_lastPut_eq_some hp, rfl, rfl⟩
    · rcases QDocKVMapTransaction.find?_writeTransaction_of_error hs k with h | ⟨h, hd⟩
      · exact .inl h
      · rw [KVTransaction.cacheDeleted_writes, Option.map_eq_some_iff] at hd
        obtain ⟨o, ho, hnone⟩ := hd
        obtain ⟨w, hw, hk, hwo⟩ := exists_mem_of_lastWrite_eq_some ho
        refine .inr ⟨w, hw, hk, ?_⟩
        rw [hwo, Option.isNone_iff_eq_none.mp hnone]
        exact h

/-- A key that is absent, or is not deleted last, holds what was there or what applying
the writes in order leaves there, whatever becomes of the commit. -/
theorem find?_commit_eq_or {k : K} (h : lastWrite ws k = some none → db.find? k = none) :
    (commit B db ws).2.find? k = db.find? k ∨
      (commit B db ws).2.find? k = (db.applyLog ws).find? k := by
  rcases hs : (commit B db ws).1 with - | -
  · refine .inr (find?_commit hs fun hB hd => ?_)
    exact absurd (h hd) (commit_success_iff.mp hs hB k hd)
  · cases B with
    | levelDB =>
      rw [commit_levelDB] at hs
      cases hs
    | map =>
      refine (QDocKVMapTransaction.find?_writeTransaction_of_error hs k).imp_right
        fun ⟨hnone, hd⟩ => ?_
      rw [KVTransaction.cacheDeleted_writes, Option.map_eq_some_iff] at hd
      obtain ⟨o, ho, hisNone⟩ := hd
      rw [SortedMap.find?_applyLog, ho, Option.isNone_iff_eq_none.mp hisNone, Option.getD_some]
      exact hnone

/-- Keys that are not written keep their value. -/
theorem find?_commit_of_forall_ne {k : K} (h : ∀ w ∈ ws, w.key ≠ k) :
    (commit B db ws).2.find? k = db.find? k := by
  rcases find?_commit_cases B db ws k with hk | ⟨w, hw, hk, -⟩
  · exact hk
  · exact absurd hk (h w hw)

/-- A binding that a commit leaves was there or was put. -/
theorem find?_commit_eq_some {k : K} {v : V} (h : (commit B db ws).2.find? k = some v) :
    db.find? k = some v ∨ WriteOp.put k v ∈ ws := by
  rcases find?_commit_cases B db ws k with hk | ⟨w, hw, hk, ho⟩
  · exact .inl (hk ▸ h)
  · have hput : w = .put k v := WriteOp.ext_key_outcome hk (ho.symm.trans h)
    exact .inr (hput ▸ hw)

/-- A commit that deletes only keys of the base, and none that it puts, goes through
and applies its writes in order. -/
theorem commit_of_disjoint (hd : ∀ k, WriteOp.delete k ∈ ws →
      db.find? k ≠ none ∧ ∀ v, WriteOp.put k v ∉ ws) :
    commit B db ws = (.success, db.applyLog ws) := by
  have hdel : ∀ k, lastWrite ws k = some none → WriteOp.delete k ∈ ws := by
    intro k hk
    obtain ⟨w, hw, hwk, hwo⟩ := exists_mem_of_lastWrite_eq_some hk
    have hw' : w = .delete k := WriteOp.ext_key_outcome hwk hwo
    exact hw' ▸ hw
  have hs : (commit B db ws).1 = .success :=
    commit_success_iff.mpr fun _ k hk => (hd k (hdel k hk)).1
  exact Prod.ext hs (commit_eq_applyLog hs fun _ k hk =>
    lastPut_eq_none_iff.mpr (hd k (hdel k hk)).2)

end Commit

/-! ## A transaction as a batch -/

/-- What a transaction promises for the calls `ws`: its reads see them applied in
order, committing succeeds and leaves the base with them applied in order, and an
error leaves the base alone. -/
structure CommitInOrder (B : Backend) (db : SortedMap K V) (ws : List (WriteOp K V)) : Prop where
  reads : ∀ k, (((KVTransaction.new : KVTransaction K V).writes B ws).getValue B db k).toOption =
    (db.applyLog ws).find? k
  succeeds : (commit B db ws).1 = .success
  content : (commit B db ws).2 = db.applyLog ws
  error : (commit B db ws).1 ≠ .success → (commit B db ws).2 = db

/-- The promise is kept when each key that is deleted last is there and was never put. -/
theorem commitInOrder_of_forall {B : Backend} {db : SortedMap K V} {ws : List (WriteOp K V)}
    (h : B = .map → ∀ k, lastWrite ws k = some none →
      db.find? k ≠ none ∧ ∀ v, WriteOp.put k v ∉ ws) : CommitInOrder B db ws := by
  have hs : (commit B db ws).1 = .success :=
    commit_success_iff.mpr fun hB k hk => (h hB k hk).1
  exact
    { reads := KVTransaction.getValue_writes B db ws
      succeeds := hs
      content := commit_eq_applyLog hs fun hB k hk => lastPut_eq_none_iff.mpr (h hB k hk).2
      error := fun herr => absurd hs herr }

/-- **In-order commit**: LevelDB always keeps the promise. The map keeps it exactly
when every key whose last call is a deletion is in the base and was never put. -/
theorem commitInOrder_iff (B : Backend) (db : SortedMap K V) (ws : List (WriteOp K V)) :
    CommitInOrder B db ws ↔
      (B = .map → ∀ k, lastWrite ws k = some none →
        db.find? k ≠ none ∧ ∀ v, WriteOp.put k v ∉ ws) := by
  refine ⟨?_, commitInOrder_of_forall⟩
  rintro h rfl k hk
  refine ⟨commit_success_iff.mp h.succeeds rfl k hk, lastPut_eq_none_iff.mp ?_⟩
  have hc := find?_commit_map h.succeeds k
  rw [h.content, SortedMap.find?_applyLog, hk, Option.getD_some, Option.or_none] at hc
  exact hc.symm

/-- A put undone by a deletion comes back when the map transaction is committed. -/
theorem not_commitInOrder_put_delete :
    ¬ ∀ (B : Backend) (db : SortedMap QByteArray QByteArray)
      (ws : List (WriteOp QByteArray QByteArray)), CommitInOrder B db ws := by
  intro h
  have hc := (h .map (SortedMap.empty.insert (bytes "k") (bytes "0"))
    [.put (bytes "k") (bytes "1"), .delete (bytes "k")]).content
  revert hc
  decide

end Qdocdb
