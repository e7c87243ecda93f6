import Qdocdb.Lib.SortedMap
import Qdocdb.Text

/-!
# Handles of databases

LevelDB opens a directory once, so the `QDocKVLevelDB` objects of a directory share a handle.
`dbMap` leads from a directory to the object that opened it. There is no count: an object that
is destroyed deletes its handle unless `dbMap` has another object with it, and takes its
directory out of `dbMap` in any case. So the handles live exactly as long as needed
(`HandlesExact`) as long as each object that is destroyed is the only one of its directory, and
no longer (`handlesExact_iff`).
-/

namespace Qdocdb

/-- `QDocKVLevelDB`; `db` is the number of a `leveldb::DB`, or none when it is `NULL`. -/
structure QDocKVLevelDB where
  path : QString
  db : Option ℕ
  valid : Bool
  lastError : QString
  deriving DecidableEq

/-- What Qt and LevelDB answer to the constructor. -/
inductive OpenAnswer where
  /-- `QUrl` does not accept the url -/
  | invalidUrl (errorString : QString)
  /-- the scheme is not `file` -/
  | otherScheme
  /-- `mkpath` cannot create the directory -/
  | noDirectory (localFile : QString)
  /-- the directory is there; `DB::Open` of it fails with the error, if any -/
  | directory (canonicalPath : QString) (error : Option QString)

/-- The objects of a process by their addresses, and `dbMap`. -/
structure Databases where
  objects : SortedMap ℕ QDocKVLevelDB
  dbMap : SortedMap QString ℕ
  /-- the address of the next object -/
  nextObject : ℕ
  /-- the `leveldb::DB` opened so far, numbered from 0 -/
  opened : ℕ
  /-- those deleted so far -/
  deleted : List ℕ

namespace Databases

/-- No object has been created. -/
def start : Databases := ⟨.empty, .empty, 0, 0, []⟩

/-- `getDB` of the object at an address. -/
def getDB (s : Databases) (address : ℕ) : Option ℕ :=
  (s.objects.find? address).bind QDocKVLevelDB.db

/-- A new object. -/
def add (s : Databases) (kvdb : QDocKVLevelDB) : Databases :=
  { s with objects := s.objects.insert s.nextObject kvdb, nextObject := s.nextObject + 1 }

/-- `QDocKVLevelDB::QDocKVLevelDB`. -/
def construct (s : Databases) : OpenAnswer → Databases
  | .invalidUrl errorString => s.add ⟨[], none, false, errorString⟩
  | .otherScheme => s.add ⟨[], none, false, qs "Only 'file' scheme was supported"⟩
  | .noDirectory localFile => s.add ⟨[], none, false, qs "Can't create directory " ++ localFile⟩
  | .directory path error =>
    match s.dbMap.find? path with
    | some address => s.add ⟨path, s.getDB address, true, []⟩
    | none =>
      match error with
      | none =>
        { s with
          dbMap := s.dbMap.insert path s.nextObject
          opened := s.opened + 1 }.add ⟨path, some s.opened, true, []⟩
      | some error => s.add ⟨path, none, false, error⟩

/-- `QDocKVLevelDB::~QDocKVLevelDB`. -/
def destroy (s : Databases) (this : ℕ) : Databases :=
  match s.objects.find? this with
  | none => s
  | some kvdb =>
    let s :=
      if kvdb.valid then
        let find := s.dbMap.entries.any fun e => e.2 ≠ this && s.getDB e.2 = kvdb.db
        { s with
          deleted := if find then s.deleted else s.deleted ++ kvdb.db.toList
          dbMap := s.dbMap.erase kvdb.path }
      else s
    { s with objects := s.objects.erase this }

end Databases

/-- What happens to the objects. -/
inductive DatabaseEvent where
  | construct (answer : OpenAnswer)
  | destroy (this : ℕ)

namespace Databases

/-- One event. -/
def step (s : Databases) : DatabaseEvent → Databases
  | .construct answer => s.construct answer
  | .destroy this => s.destroy this

/-- The events of a process. -/
def run (events : List DatabaseEvent) : Databases := events.foldl step start

@[simp] theorem run_concat (events : List DatabaseEvent) (event : DatabaseEvent) :
    run (events ++ [event]) = (run events).step event := by
  rw [run, List.foldl_append]
  rfl

/-! ## What handles are for -/

/-- A live object that was opened. -/
def Holds (s : Databases) (address : ℕ) (kvdb : QDocKVLevelDB) : Prop :=
  s.objects.find? address = some kvdb ∧ kvdb.valid = true

/-- **Handles live exactly as long as needed**: those of valid objects are not deleted, their
directories are registered, and a handle that no valid object has is deleted. -/
structure HandlesExact (s : Databases) : Prop where
  open_of_holds : ∀ {address kvdb}, s.Holds address kvdb →
    ∃ db, kvdb.db = some db ∧ db < s.opened ∧ db ∉ s.deleted
  registered : ∀ {address kvdb}, s.Holds address kvdb → s.dbMap.find? kvdb.path ≠ none
  deleted_of_not_held : ∀ db < s.opened,
    (∀ address kvdb, s.Holds address kvdb → kvdb.db ≠ some db) → db ∈ s.deleted

/-- An object that is destroyed is the only valid one of its directory. -/
def LastOfDirectory (s : Databases) : DatabaseEvent → Prop
  | .construct _ => True
  | .destroy this => ∀ kvdb, s.Holds this kvdb → ∀ other kvdb', other ≠ this →
      s.Holds other kvdb' → kvdb'.path ≠ kvdb.path

/-- What is true besides as long as only last objects are destroyed. -/
structure HandlesInv (s : Databases) : Prop extends HandlesExact s where
  lt_nextObject : ∀ {address kvdb}, s.objects.find? address = some kvdb → address < s.nextObject
  deleted_lt : ∀ {db}, db ∈ s.deleted → db < s.opened
  entry : ∀ {path address}, s.dbMap.find? path = some address →
    ∃ kvdb, s.Holds address kvdb ∧ kvdb.path = path
  db_eq_iff : ∀ {a b : ℕ} {kvdb kvdb' : QDocKVLevelDB}, s.Holds a kvdb → s.Holds b kvdb' →
    (kvdb.db = kvdb'.db ↔ kvdb.path = kvdb'.path)

theorem handlesInv_start : HandlesInv start where
  open_of_holds := by
    rintro address kvdb ⟨h, -⟩
    cases h
  registered := by
    rintro address kvdb ⟨h, -⟩
    cases h
  deleted_of_not_held := fun db hdb => absurd hdb (Nat.not_lt_zero db)
  lt_nextObject := by
    intro address kvdb h
    cases h
  deleted_lt := by
    intro db h
    cases h
  entry := by
    intro path address h
    cases h
  db_eq_iff := by
    rintro a b kvdb kvdb' ⟨h, -⟩
    cases h

/-! ## The constructor -/

section Construct

variable {s : Databases} (h : HandlesInv s) {kvdb : QDocKVLevelDB}
include h

/-- A new object joins those that are there. -/
theorem HandlesInv.holds_add {address : ℕ} {kvdb' : QDocKVLevelDB} :
    (s.add kvdb).Holds address kvdb' ↔
      s.Holds address kvdb' ∨ (address = s.nextObject ∧ kvdb' = kvdb ∧ kvdb.valid = true) := by
  have hfresh : ∀ kvdb', ¬ s.Holds s.nextObject kvdb' :=
    fun kvdb' hholds => lt_irrefl _ (h.lt_nextObject hholds.1)
  rw [Holds, add, SortedMap.find?_insert]
  by_cases ha : address = s.nextObject
  · subst ha
    rw [if_pos rfl, or_iff_right (hfresh kvdb'), Option.some_inj]
    constructor
    · rintro ⟨rfl, hvalid⟩
      exact ⟨rfl, rfl, hvalid⟩
    · rintro ⟨-, rfl, hvalid⟩
      exact ⟨rfl, hvalid⟩
  · rw [if_neg ha, or_iff_left fun hnew => ha hnew.1]
    exact Iff.rfl

theorem HandlesInv.lt_nextObject_add {address : ℕ} {kvdb' : QDocKVLevelDB}
    (hfind : (s.add kvdb).objects.find? address = some kvdb') :
    address < (s.add kvdb).nextObject := by
  rw [add, SortedMap.find?_insert] at hfind
  split at hfind
  · rename_i ha
    exact ha ▸ Nat.lt_succ_self _
  · exact (h.lt_nextObject hfind).trans (Nat.lt_succ_self _)

/-- An object that was not opened has no handle. -/
theorem HandlesInv.add_invalid (hvalid : kvdb.valid = false) : HandlesInv (s.add kvdb) := by
  have hholds : ∀ {address kvdb'}, (s.add kvdb).Holds address kvdb' ↔ s.Holds address kvdb' := by
    intro address kvdb'
    rw [h.holds_add, hvalid, or_iff_left]
    rintro ⟨-, -, hfalse⟩
    cases hfalse
  exact
    { open_of_holds := fun ha => h.open_of_holds (hholds.mp ha)
      registered := fun ha => h.registered (hholds.mp ha)
      deleted_of_not_held := fun db hdb hnone =>
        h.deleted_of_not_held db hdb fun address kvdb' ha => hnone address kvdb' (hholds.mpr ha)
      lt_nextObject := h.lt_nextObject_add
      deleted_lt := h.deleted_lt
      entry := fun he => by
        obtain ⟨kvdb', ha, hpath⟩ := h.entry he
        exact ⟨kvdb', hholds.mpr ha, hpath⟩
      db_eq_iff := fun ha hb => h.db_eq_iff (hholds.mp ha) (hholds.mp hb) }

/-- An object of a registered directory shares the handle. -/
theorem HandlesInv.add_shared {path : QString} {address : ℕ}
    (hentry : s.dbMap.find? path = some address) :
    HandlesInv (s.add ⟨path, s.getDB address, true, []⟩) := by
  obtain ⟨first, hfirst, hpath⟩ := h.entry hentry
  have hdb : s.getDB address = first.db := by rw [getDB, hfirst.1, Option.bind_some]
  have hsame : ∀ {b kvdb'}, s.Holds b kvdb' →
      (s.getDB address = kvdb'.db ↔ path = kvdb'.path) := by
    intro b kvdb' hb
    rw [hdb, ← hpath]
    exact h.db_eq_iff hfirst hb
  exact
    { open_of_holds := fun ha => by
        rcases h.holds_add.mp ha with ha | ⟨-, rfl, -⟩
        · exact h.open_of_holds ha
        · obtain ⟨db, hsome, hlt, hnot⟩ := h.open_of_holds hfirst
          exact ⟨db, hdb.trans hsome, hlt, hnot⟩
      registered := fun ha => by
        rcases h.holds_add.mp ha with ha | ⟨-, rfl, -⟩
        · exact h.registered ha
        · change s.dbMap.find? path ≠ none
          rw [hentry]
          exact Option.some_ne_none _
      deleted_of_not_held := fun db hlt hnone =>
        h.deleted_of_not_held db hlt fun b kvdb' hb => hnone b kvdb' (h.holds_add.mpr (.inl hb))
      lt_nextObject := h.lt_nextObject_add
      deleted_lt := h.deleted_lt
      entry := fun he => by
        obtain ⟨kvdb', ha, hpath'⟩ := h.entry he
        exact ⟨kvdb', h.holds_add.mpr (.inl ha), hpath'⟩
      db_eq_iff := fun ha hb => by
        rcases h.holds_add.mp ha with ha | ⟨-, rfl, -⟩ <;>
          rcases h.holds_add.mp hb with hb | ⟨-, rfl, -⟩
        · exact h.db_eq_iff ha hb
        · exact eq_comm.trans ((hsame ha).trans eq_comm)
        · exact hsame hb
        · exact iff_of_true rfl rfl }

/-- An object of another directory opens it. -/
theorem HandlesInv.add_opened {path : QString} (hnone : s.dbMap.find? path = none) :
    HandlesInv ({ s with
      dbMap := s.dbMap.insert path s.nextObject
      opened := s.opened + 1 }.add ⟨path, some s.opened, true, []⟩) := by
  have hpath : ∀ {b kvdb'}, s.Holds b kvdb' → kvdb'.path ≠ path := by
    rintro b kvdb' hb rfl
    exact h.registered hb hnone
  have hdb : ∀ {b kvdb'}, s.Holds b kvdb' → kvdb'.db ≠ some s.opened := by
    intro b kvdb' hb heq
    obtain ⟨db, hsome, hlt, -⟩ := h.open_of_holds hb
    exact hlt.ne (Option.some_inj.mp (hsome.symm.trans heq))
  have hnew : (s.add ⟨path, some s.opened, true, []⟩).Holds s.nextObject
      ⟨path, some s.opened, true, []⟩ := h.holds_add.mpr (.inr ⟨rfl, rfl, rfl⟩)
  exact
    { open_of_holds := fun ha => by
        rcases h.holds_add.mp ha with ha | ⟨-, rfl, -⟩
        · obtain ⟨db, hsome, hlt, hnot⟩ := h.open_of_holds ha
          exact ⟨db, hsome, hlt.trans (Nat.lt_succ_self _), hnot⟩
        · exact ⟨s.opened, rfl, Nat.lt_succ_self _, fun hmem => lt_irrefl _ (h.deleted_lt hmem)⟩
      registered := fun {address kvdb'} ha => by
        change (s.dbMap.insert path s.nextObject).find? kvdb'.path ≠ none
        rcases h.holds_add.mp ha with ha | ⟨-, rfl, -⟩
        · rw [SortedMap.find?_insert_of_ne _ _ (hpath ha)]
          exact h.registered ha
        · rw [SortedMap.find?_insert_self]
          exact Option.some_ne_none _
      deleted_of_not_held := fun db hlt hnot => by
        rcases Nat.lt_succ_iff_lt_or_eq.mp hlt with hlt | rfl
        · exact h.deleted_of_not_held db hlt fun b kvdb' hb =>
            hnot b kvdb' (h.holds_add.mpr (.inl hb))
        · exact absurd rfl (hnot _ _ hnew)
      lt_nextObject := h.lt_nextObject_add
      deleted_lt := fun hmem => (h.deleted_lt hmem).trans (Nat.lt_succ_self _)
      entry := fun {path' address} he => by
        change (s.dbMap.insert path s.nextObject).find? path' = some address at he
        rw [SortedMap.find?_insert] at he
        split at he
        · rename_i hpath'
          obtain rfl := Option.some_inj.mp he
          exact ⟨_, hnew, hpath'.symm⟩
        · obtain ⟨kvdb', ha, hpath'⟩ := h.entry he
          exact ⟨kvdb', h.holds_add.mpr (.inl ha), hpath'⟩
      db_eq_iff := fun ha hb => by
        rcases h.holds_add.mp ha with ha | ⟨-, rfl, -⟩ <;>
          rcases h.holds_add.mp hb with hb | ⟨-, rfl, -⟩
        · exact h.db_eq_iff ha hb
        · exact iff_of_false (hdb ha) (hpath ha)
        · exact iff_of_false (fun heq => hdb hb heq.symm) fun heq => hpath hb heq.symm
        · exact iff_of_true rfl rfl }

/-- **The constructor** keeps the invariant, whatever is answered. -/
theorem HandlesInv.construct (answer : OpenAnswer) : HandlesInv (s.construct answer) := by
  cases answer with
  | invalidUrl errorString => exact h.add_invalid rfl
  | otherScheme => exact h.add_invalid rfl
  | noDirectory localFile => exact h.add_invalid rfl
  | directory path error =>
    rw [Databases.construct.eq_def]
    dsimp only
    split
    · rename_i address hentry
      exact h.add_shared hentry
    · rename_i hnone
      split
      · exact h.add_opened hnone
      · exact h.add_invalid rfl

end Construct

/-! ## The destructor -/

section Destroy

variable {s : Databases} {this : ℕ}

/-- The other objects stay. -/
theorem holds_destroy {address : ℕ} {kvdb : QDocKVLevelDB} :
    (s.destroy this).Holds address kvdb ↔ s.Holds address kvdb ∧ address ≠ this := by
  have herase : ∀ t : Databases, t.objects = s.objects.erase this →
      (t.Holds address kvdb ↔ s.Holds address kvdb ∧ address ≠ this) := by
    intro t ht
    rw [Holds, Holds, ht, SortedMap.find?_erase]
    by_cases ha : address = this
    · simp [ha]
    · simp [ha]
  rw [destroy]
  split
  · rename_i hnone
    refine (and_iff_left_of_imp ?_).symm
    rintro ⟨hfind, -⟩ rfl
    rw [hnone] at hfind
    cases hfind
  · apply herase
    split <;> rfl

/-- An object that was not opened leaves everything as it is. -/
theorem destroy_of_not_holds (h : ∀ kvdb, ¬ s.Holds this kvdb) :
    (s.destroy this).dbMap = s.dbMap ∧ (s.destroy this).opened = s.opened ∧
      (s.destroy this).deleted = s.deleted := by
  rw [destroy]
  split
  · exact ⟨rfl, rfl, rfl⟩
  · rename_i kvdb hfind
    rw [if_neg fun hvalid => h kvdb ⟨hfind, hvalid⟩]
    exact ⟨rfl, rfl, rfl⟩

/-- A valid object takes its directory out of `dbMap`. -/
theorem dbMap_destroy {kvdb : QDocKVLevelDB} (h : s.Holds this kvdb) :
    (s.destroy this).dbMap = s.dbMap.erase kvdb.path ∧ (s.destroy this).opened = s.opened ∧
      (s.destroy this).deleted =
        if s.dbMap.entries.any fun e => e.2 ≠ this && s.getDB e.2 = kvdb.db then s.deleted
        else s.deleted ++ kvdb.db.toList := by
  rw [destroy, h.1]
  simp only [if_pos h.2, and_self]

theorem nextObject_destroy : (s.destroy this).nextObject = s.nextObject := by
  rw [destroy]
  split
  · rfl
  · split <;> rfl

theorem find?_objects_of_destroy {address : ℕ} {kvdb : QDocKVLevelDB}
    (h : (s.destroy this).objects.find? address = some kvdb) :
    s.objects.find? address = some kvdb := by
  have herase : (s.objects.erase this).find? address = some kvdb →
      s.objects.find? address = some kvdb := by
    rw [SortedMap.find?_erase]
    split
    · intro hnone
      cases hnone
    · exact id
  rw [destroy] at h
  split at h
  · exact h
  · split at h <;> exact herase h

variable (h : HandlesInv s)
include h

/-- An object that was not opened can go. -/
theorem HandlesInv.destroy_invalid (hnot : ∀ kvdb, ¬ s.Holds this kvdb) :
    HandlesInv (s.destroy this) := by
  obtain ⟨hmap, hopened, hdeleted⟩ := destroy_of_not_holds hnot
  have hholds : ∀ {address kvdb}, (s.destroy this).Holds address kvdb ↔ s.Holds address kvdb := by
    intro address kvdb
    rw [holds_destroy]
    refine and_iff_left_of_imp ?_
    rintro ha rfl
    exact hnot kvdb ha
  exact
    { open_of_holds := fun ha => by
        rw [hopened, hdeleted]
        exact h.open_of_holds (hholds.mp ha)
      registered := fun ha => by
        rw [hmap]
        exact h.registered (hholds.mp ha)
      deleted_of_not_held := fun db hlt hnone => by
        rw [hopened] at hlt
        rw [hdeleted]
        exact h.deleted_of_not_held db hlt fun a kvdb ha => hnone a kvdb (hholds.mpr ha)
      lt_nextObject := fun hfind => by
        rw [nextObject_destroy]
        exact h.lt_nextObject (find?_objects_of_destroy hfind)
      deleted_lt := fun hmem => by
        rw [hopened]
        rw [hdeleted] at hmem
        exact h.deleted_lt hmem
      entry := fun he => by
        rw [hmap] at he
        obtain ⟨kvdb, ha, hpath⟩ := h.entry he
        exact ⟨kvdb, hholds.mpr ha, hpath⟩
      db_eq_iff := fun ha hb => h.db_eq_iff (hholds.mp ha) (hholds.mp hb) }

/-- The last object of a directory deletes its handle: `dbMap` has no other object with it. -/
theorem HandlesInv.destroy_last {kvdb : QDocKVLevelDB} (hthis : s.Holds this kvdb)
    (hlast : ∀ other kvdb', other ≠ this → s.Holds other kvdb' → kvdb'.path ≠ kvdb.path) :
    HandlesInv (s.destroy this) := by
  obtain ⟨db, hdb, hlt, hnot⟩ := h.open_of_holds hthis
  obtain ⟨hmap, hopened, hdeleted⟩ := dbMap_destroy hthis
  have hother : ∀ {a kvdb'}, (s.destroy this).Holds a kvdb' →
      s.Holds a kvdb' ∧ kvdb'.path ≠ kvdb.path ∧ kvdb'.db ≠ some db := by
    intro a kvdb' ha
    obtain ⟨ha, hne⟩ := holds_destroy.mp ha
    have hpath := hlast a kvdb' hne ha
    exact ⟨ha, hpath, fun heq => hpath ((h.db_eq_iff ha hthis).mp (heq.trans hdb.symm))⟩
  have hfind : (s.dbMap.entries.any fun e => e.2 ≠ this && s.getDB e.2 = kvdb.db) = false := by
    rw [List.any_eq_false]
    rintro ⟨path, a⟩ he heq
    rw [Bool.and_eq_true, decide_eq_true_eq, decide_eq_true_eq] at heq
    obtain ⟨kvdb', ha, -⟩ := h.entry (SortedMap.find?_eq_some_iff.mpr he)
    rw [getDB, ha.1] at heq
    exact hlast a kvdb' heq.1 ha ((h.db_eq_iff ha hthis).mp heq.2)
  rw [hfind, if_neg Bool.false_ne_true, hdb] at hdeleted
  exact
    { open_of_holds := fun ha => by
        obtain ⟨ha, -, hdb'⟩ := hother ha
        obtain ⟨db', hsome, hlt', hnot'⟩ := h.open_of_holds ha
        refine ⟨db', hsome, hopened ▸ hlt', ?_⟩
        rw [hdeleted, List.mem_append, not_or]
        refine ⟨hnot', fun hmem => hdb' ?_⟩
        rw [hsome, List.mem_singleton.mp hmem]
      registered := fun ha => by
        obtain ⟨ha, hpath, -⟩ := hother ha
        rw [hmap, SortedMap.find?_erase_of_ne _ hpath]
        exact h.registered ha
      deleted_of_not_held := fun db' hlt' hnone => by
        rw [hopened] at hlt'
        rw [hdeleted, List.mem_append]
        by_cases heq : db' = db
        · exact .inr (List.mem_singleton.mpr heq)
        · refine .inl (h.deleted_of_not_held db' hlt' fun a kvdb' ha hsome => ?_)
          by_cases hne : a = this
          · subst hne
            obtain rfl := Option.some_inj.mp (ha.1.symm.trans hthis.1)
            exact heq (Option.some_inj.mp (hsome.symm.trans hdb))
          · exact hnone a kvdb' (holds_destroy.mpr ⟨ha, hne⟩) hsome
      lt_nextObject := fun hfind => by
        rw [nextObject_destroy]
        exact h.lt_nextObject (find?_objects_of_destroy hfind)
      deleted_lt := fun hmem => by
        rw [hdeleted, List.mem_append] at hmem
        rw [hopened]
        rcases hmem with hmem | hmem
        · exact h.deleted_lt hmem
        · exact List.mem_singleton.mp hmem ▸ hlt
      entry := fun {path a} he => by
        rw [hmap, SortedMap.find?_erase] at he
        split at he
        · cases he
        · rename_i hpath
          obtain ⟨kvdb', ha, hpath'⟩ := h.entry he
          refine ⟨kvdb', holds_destroy.mpr ⟨ha, ?_⟩, hpath'⟩
          rintro rfl
          obtain rfl := Option.some_inj.mp (ha.1.symm.trans hthis.1)
          exact hpath hpath'.symm
      db_eq_iff := fun ha hb => h.db_eq_iff (hother ha).1 (hother hb).1 }

omit h in
/-- An object that is not the last one leaves the others without an entry. -/
theorem not_handlesExact_destroy (hnot : ¬ s.LastOfDirectory (.destroy this)) :
    ¬ HandlesExact (s.destroy this) := by
  intro hexact
  simp only [LastOfDirectory, not_forall, not_not] at hnot
  obtain ⟨kvdb, hthis, other, kvdb', hne, hother, hpath⟩ := hnot
  refine hexact.registered (holds_destroy.mpr ⟨hother, hne⟩) ?_
  rw [(dbMap_destroy hthis).1, hpath, SortedMap.find?_erase_self]

end Destroy

/-! ## Runs -/

/-- **A step** that destroys last objects only keeps the invariant. -/
theorem HandlesInv.step {s : Databases} (h : HandlesInv s) {event : DatabaseEvent}
    (hlast : s.LastOfDirectory event) : HandlesInv (s.step event) := by
  cases event with
  | construct answer => exact h.construct answer
  | destroy this =>
    by_cases hthis : ∃ kvdb, s.Holds this kvdb
    · obtain ⟨kvdb, hthis⟩ := hthis
      exact h.destroy_last hthis (hlast kvdb hthis)
    · exact h.destroy_invalid (not_exists.mp hthis)

/-- A destruction before which and behind which the handles are right is of the last object of
its directory. -/
theorem lastOfDirectory_of_exact {past : List DatabaseEvent} {event : DatabaseEvent}
    (h : HandlesExact (run (past ++ [event]))) : (run past).LastOfDirectory event := by
  cases event with
  | construct answer => trivial
  | destroy this =>
    by_contra hnot
    refine not_handlesExact_destroy hnot ?_
    rwa [run_concat] at h

/-- **Runs**: the handles live exactly as long as needed in every state exactly when each object
that is destroyed is the last one of its directory. By induction on the events. -/
theorem handlesExact_iff (events : List DatabaseEvent) :
    (∀ past, past <+: events → HandlesExact (run past)) ↔
      ∀ past event, past ++ [event] <+: events → (run past).LastOfDirectory event := by
  refine ⟨fun h past event hpast => lastOfDirectory_of_exact (h _ hpast), fun h past hpast => ?_⟩
  have hinv : HandlesInv (run past) := by
    induction past using List.reverseRecOn with
    | nil => exact handlesInv_start
    | append_singleton past event ih =>
      rw [run_concat]
      exact (ih ((List.prefix_append past [event]).trans hpast)).step (h past event hpast)
  exact hinv.toHandlesExact

/-- Two objects of a directory, the first of which is destroyed. -/
theorem not_handlesExact :
    ¬ ∀ (events past : List DatabaseEvent), past <+: events → HandlesExact (run past) := by
  intro h
  have hlast := lastOfDirectory_of_exact (h ([.construct (.directory (qs "/d") none),
    .construct (.directory (qs "/d") none)] ++ [.destroy 0]) _ List.prefix_rfl)
  exact hlast ⟨qs "/d", some 0, true, []⟩ ⟨by decide +kernel, rfl⟩ 1 ⟨qs "/d", some 0, true, []⟩
    (by decide) ⟨by decide +kernel, rfl⟩ rfl

end Databases

end Qdocdb
