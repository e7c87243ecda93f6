import Qdocdb.IndexWrites
import Qdocdb.Lib.While

/-!
# The index loop of `removeSnapshot`

For each index `removeSnapshot` goes over the snapshot numbers with a counter of one byte,
which it compares with the length of the list. The loop ends exactly when the length is no
more than a byte holds (`shiftIndexLoop_of_lt`, `shiftIndexLoop_eq_none`); then it makes one
round for each number from the removed one to the last one, and its calls are those that
`removeSnapshot` is modelled with (`shiftIndex`). A list of 256 names keeps it going
(`shiftsOnce_iff`).
-/

namespace Qdocdb

namespace Collection

/-- The variables of the loop over the snapshot numbers, with the numbers that it has gone
over and the calls that it has made. -/
structure IndexShift where
  sId : Byte
  visited : List Byte
  calls : List (WriteOp QByteArray Blob)

/-- One round, and `sId++`. -/
def shiftRound (E : Env) (db : Store) (snapshotId : Byte) (indexName : QString)
    (shift : IndexShift) : IndexShift where
  sId := shift.sId + 1
  visited := shift.visited ++ [shift.sId]
  calls := shift.calls ++ shiftIndex E db snapshotId indexName [shift.sId]

/-- `for (unsigned char sId = snapshotId; sId < snapshots.size(); sId++)` of `removeSnapshot`,
for one index. -/
def shiftIndexLoop (E : Env) (db : Store) (snapshotId : Byte) (indexName : QString)
    (snapshots : List QString) : ℕ → IndexShift → Option IndexShift :=
  whileLoop (fun shift => decide (shift.sId.val < snapshots.length)) fun shift =>
    some (shiftRound E db snapshotId indexName shift)

variable {E : Env} {σ : Collection} {snapshotId : Byte} {indexName : QString}
  {snapshots : List QString}

theorem shiftIndexLoop_succ (db : Store) (fuel : ℕ) (shift : IndexShift) :
    shiftIndexLoop E db snapshotId indexName snapshots (fuel + 1) shift =
      if shift.sId.val < snapshots.length then
        shiftIndexLoop E db snapshotId indexName snapshots fuel
          (shiftRound E db snapshotId indexName shift)
      else some shift := by
  rw [shiftIndexLoop, whileLoop]
  simp only [decide_eq_true_eq, Option.bind_some]

theorem shiftIndex_append (db : Store) (sIds sIds' : List Byte) :
    shiftIndex E db snapshotId indexName (sIds ++ sIds') =
      shiftIndex E db snapshotId indexName sIds ++ shiftIndex E db snapshotId indexName sIds' :=
  List.flatMap_append

/-- The numbers from a counter on. -/
def numbersFrom (sId n : ℕ) : List Byte := (List.range' sId n).map fun k => Fin.ofNat 256 k

/-- **Rounds**: with `n` numbers to go that all fit into a byte, the loop makes `n` rounds. By
induction on `n`. -/
theorem shiftIndexLoop_of_lt {db : Store} (hlen : snapshots.length < 256) {n : ℕ}
    {shift : IndexShift} (hn : shift.sId.val + n = snapshots.length) :
    shiftIndexLoop E db snapshotId indexName snapshots (n + 1) shift =
      some
        { sId := Fin.ofNat 256 snapshots.length
          visited := shift.visited ++ numbersFrom shift.sId.val n
          calls := shift.calls ++
            shiftIndex E db snapshotId indexName (numbersFrom shift.sId.val n) } := by
  induction n generalizing shift with
  | zero =>
    have hsId : shift.sId = Fin.ofNat 256 snapshots.length :=
      Fin.ext (hn.trans (Nat.mod_eq_of_lt hlen).symm)
    rw [shiftIndexLoop_succ, if_neg (by omega), ← hsId]
    simp [numbersFrom, shiftIndex]
  | succ n ih =>
    have hval : (shift.sId + 1).val = shift.sId.val + 1 := by
      rw [Fin.val_add]
      exact Nat.mod_eq_of_lt (by simp; omega)
    have hnumbers : numbersFrom shift.sId.val (n + 1) =
        [shift.sId] ++ numbersFrom (shift.sId + 1).val n := by
      rw [hval, numbersFrom, List.range'_succ, List.map_cons]
      congr 1
      exact Fin.ext (Nat.mod_eq_of_lt shift.sId.isLt)
    have hnext : (shiftRound E db snapshotId indexName shift).sId.val + n = snapshots.length := by
      change (shift.sId + 1).val + n = snapshots.length
      omega
    rw [shiftIndexLoop_succ, if_pos (by omega), ih hnext, hnumbers, shiftIndex_append]
    simp only [shiftRound, List.append_assoc]

/-- **No end**: every value of the counter is below the length of a longer list. -/
theorem shiftIndexLoop_eq_none {db : Store} (hlen : 256 ≤ snapshots.length) (fuel : ℕ)
    (shift : IndexShift) :
    shiftIndexLoop E db snapshotId indexName snapshots fuel shift = none := by
  refine whileLoop_eq_none (P := fun _ => True) (fun shift _ => ?_) (fun _ _ _ _ => trivial) trivial
    fuel
  rw [decide_eq_true_eq]
  omega

/-- What the loop goes over when it ends is what `removeSnapshot` is modelled with. -/
theorem shiftedIds_eq {db : Store} (hlt : snapshotId.val ≤ snapshots.length) :
    shiftedIds snapshots snapshotId =
      (shiftIndexLoop E db snapshotId indexName snapshots
        (snapshots.length - snapshotId.val + 1) ⟨snapshotId, [], []⟩).map IndexShift.visited := by
  rw [shiftedIds]
  split
  · rename_i hlen
    rw [shiftIndexLoop_of_lt hlen (by change snapshotId.val + _ = _; omega)]
    rfl
  · rename_i hlen
    rw [shiftIndexLoop_eq_none (by omega)]
    rfl

/-- The loop ends behind one round for each number from the removed one to the current one, and
so `removeSnapshot` returns. -/
structure ShiftsOnce (E : Env) (σ : Collection) (snapshots : List QString) (name : QString)
    (snapshotId : Byte) (indexName : QString) : Prop where
  rounds : ∃ fuel shift,
    shiftIndexLoop E σ.db snapshotId indexName snapshots fuel ⟨snapshotId, [], []⟩ = some shift ∧
      shift.visited.map Fin.val =
        List.range' snapshotId.val (snapshots.length - snapshotId.val) ∧
      shift.calls = shiftIndex E σ.db snapshotId indexName shift.visited
  returns : σ.removeSnapshot E name ≠ none

theorem map_val_numbersFrom {sId n : ℕ} (h : sId + n ≤ 256) :
    (numbersFrom sId n).map Fin.val = List.range' sId n := by
  rw [numbersFrom, List.map_map]
  refine (List.map_congr_left fun k hk => ?_).trans (List.map_id _)
  obtain ⟨-, hlt⟩ := List.mem_range'_1.mp hk
  exact Nat.mod_eq_of_lt (by omega)

/-- The names of the list have numbers below its length. -/
theorem getSnapshotId_le {name : QString} (hl : σ.getSnapshotsValue E = .ok snapshots)
    (hi : σ.getSnapshotId E name = .ok snapshotId) : snapshotId.val < snapshots.length := by
  rw [getSnapshotId, hl] at hi
  simp only at hi
  split at hi
  · rename_i hmem
    rw [← Except.ok.inj hi]
    exact (Nat.mod_le _ _).trans_lt (List.idxOf_lt_length_of_mem hmem)
  · cases hi

/-- `removeSnapshot` of a listed name returns when its loops over the numbers end. -/
theorem removeSnapshot_ne_none_iff {name : QString}
    (hl : σ.getSnapshotsValue E = .ok snapshots)
    (hi : σ.getSnapshotId E name = .ok snapshotId) (hindexes : (σ.reader E).getIndexes ≠ []) :
    σ.removeSnapshot E name ≠ none ↔ shiftedIds snapshots snapshotId ≠ none := by
  rw [removeSnapshot, hi, hl]
  simp only [if_neg hindexes, ne_eq, Option.map_eq_none_iff]

theorem ShiftsOnce.length_lt {name indexName : QString}
    (h : ShiftsOnce E σ snapshots name snapshotId indexName) (hlen : snapshots.length ≤ 256) :
    snapshots.length < 256 := by
  obtain ⟨fuel, shift, hrun, -, -⟩ := h.rounds
  by_contra hfull
  rw [shiftIndexLoop_eq_none (by omega)] at hrun
  cases hrun

/-- **The index loop** of `removeSnapshot` makes one round for each number and ends exactly when
the list has less than 256 names. -/
theorem shiftsOnce_iff {name : QString} {index : QString × QString}
    (hl : σ.getSnapshotsValue E = .ok snapshots) (hlen : snapshots.length ≤ 256)
    (hi : σ.getSnapshotId E name = .ok snapshotId) (hindex : index ∈ (σ.reader E).getIndexes) :
    ShiftsOnce E σ snapshots name snapshotId index.2 ↔ snapshots.length < 256 := by
  have hlt := getSnapshotId_le hl hi
  refine ⟨fun h => h.length_lt hlen, fun hless => ?_⟩
  have hrun := @shiftIndexLoop_of_lt E snapshotId index.2 snapshots σ.db hless
    (snapshots.length - snapshotId.val) ⟨snapshotId, [], []⟩ (Nat.add_sub_cancel' hlt.le)
  have hnumbers := @map_val_numbersFrom snapshotId.val (snapshots.length - snapshotId.val)
    (by omega)
  refine ⟨⟨_, _, hrun, hnumbers, rfl⟩, ?_⟩
  rw [removeSnapshot_ne_none_iff hl hi (List.ne_nil_of_mem hindex), shiftedIds_eq hlt.le, hrun]
  exact Option.some_ne_none _

/-- A collection with the snapshot list `names` and an index. -/
def listing (names : List QString) : Collection where
  db := (SortedMap.empty.insert indexesKey (.indexes [(qs "n", qs "i")])).insert snapshotsKey
    (.snapshots names)
  snapshotId := Fin.ofNat 256 (names.length - 1)
  observers := ∅
  lastError := ""
  emitted := []

theorem getSnapshotsValue_listing (names : List QString) :
    (listing names).getSnapshotsValue (Env.plain .map) = .ok names := by
  rw [getSnapshotsValue, kvGetValue, listing, SortedMap.find?_insert_self]
  rfl

theorem getSnapshotId_listing {names : List QString} {name : QString} (hmem : name ∈ names) :
    (listing names).getSnapshotId (Env.plain .map) name =
      .ok (Fin.ofNat 256 (names.idxOf name)) := by
  rw [getSnapshotId, getSnapshotsValue_listing]
  exact if_pos hmem

theorem mem_getIndexes_listing (names : List QString) :
    (qs "n", qs "i") ∈ ((listing names).reader (Env.plain .map)).getIndexes := by
  rw [getIndexes_reader, storedIndexes, listing,
    SortedMap.find?_insert_of_ne _ _ (by decide), SortedMap.find?_insert_self]
  exact List.mem_singleton_self _

/-- Two snapshots and the current one. -/
theorem shiftsOnce_two :
    ShiftsOnce (Env.plain .map) (listing [qs "A", qs "B", currentName]) [qs "A", qs "B", currentName]
      (qs "B") 1 (qs "i") ↔ [qs "A", qs "B", currentName].length < 256 :=
  @shiftsOnce_iff (Env.plain .map) (listing [qs "A", qs "B", currentName]) 1
    [qs "A", qs "B", currentName] (qs "B") (qs "n", qs "i") (getSnapshotsValue_listing _) (by decide)
    (getSnapshotId_listing (by decide)) (mem_getIndexes_listing _)

/-- 255 snapshots and the current one. -/
def manyNames : List QString := (List.range' 0 255).map (fun n => [Fin.ofNat 65536 n]) ++ [currentName]

/-- With as many names as a byte has values the loop does not end. -/
theorem not_shiftsOnce :
    ¬ ∀ (E : Env) (σ : Collection) (snapshots : List QString) (name : QString) (snapshotId : Byte)
        (index : QString × QString), σ.getSnapshotsValue E = .ok snapshots →
      snapshots.length ≤ 256 → σ.getSnapshotId E name = .ok snapshotId →
      index ∈ (σ.reader E).getIndexes →
      ShiftsOnce E σ snapshots name snapshotId index.2 := by
  intro h
  have hlen : manyNames.length = 256 := by simp [manyNames]
  have hl := getSnapshotsValue_listing manyNames
  have hzero : [0] ∈ manyNames := List.mem_append_left _ (List.mem_map.mpr ⟨0, by simp, rfl⟩)
  have hi := getSnapshotId_listing hzero
  have hindex := mem_getIndexes_listing manyNames
  have hless := (h (Env.plain .map) _ _ _ _ _ hl hlen.le hi hindex).length_lt hlen.le
  omega

end Collection

end Qdocdb
