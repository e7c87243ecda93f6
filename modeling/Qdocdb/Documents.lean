import Qdocdb.Lib.Versions
import Qdocdb.Iterator

/-!
# Documents of a store

The abstract content of a store is the history of every id: what is stored under
each version number. `visible` is the view of such a history from a snapshot
number, and this module shows when the iterator computes it: on a store of the
shape the program builds, with separated ids, an iterator stops once at each start
key (`stops_spec`), reads there exactly the versions of that id
(`exists_versions`), and returns the visible document (`jsonValue_value`).
-/

namespace Qdocdb

/-! ## Histories -/

/-- The document in a stored value, if it holds one. -/
def Blob.document? : Blob → Option QJsonObject
  | document o => some o
  | _ => none

/-- The JSON value of a document, or undefined. -/
def jsonOfDocument : Option QJsonObject → QJsonValue
  | some o => .object o
  | none => .undefined

/-- What is stored for `id` under the version number `t`. -/
def version (db : Store) (id : QByteArray) (t : ℕ) : Option Blob :=
  if h : t < 256 then db.find? (constructDocumentLinkKey id ⟨t, h⟩) else none

/-- The versions of `id`, with everything that is no document as a tombstone. -/
def history (db : Store) (id : QByteArray) : History QJsonObject :=
  fun t => (version db id t).map Blob.document?

/-- The document a reader at snapshot `s` should see under `id`: the newest version
numbered at most `s`, unless it is a tombstone. -/
def visible (db : Store) (s : Byte) (id : QByteArray) : Option QJsonObject :=
  (history db id).view s.val

@[simp] theorem version_val (db : Store) (id : QByteArray) (s : Byte) :
    version db id s.val = db.find? (constructDocumentLinkKey id s) := by
  rw [version, dif_pos s.isLt]

theorem version_of_le (db : Store) (id : QByteArray) {t : ℕ} (h : 256 ≤ t) :
    version db id t = none := by
  rw [version, dif_neg (by omega)]

theorem history_val (db : Store) (id : QByteArray) (s : Byte) :
    history db id s.val = (db.find? (constructDocumentLinkKey id s)).map Blob.document? := by
  rw [history, version_val]

/-- What a reader sees depends on the versions up to its number. -/
theorem visible_congr {db db' : Store} {s : Byte} {id : QByteArray}
    (h : ∀ t ≤ s, db'.find? (constructDocumentLinkKey id t) =
      db.find? (constructDocumentLinkKey id t)) : visible db' s id = visible db s id := by
  refine History.view_congr fun t ht => ?_
  have htb : t < 256 := lt_of_le_of_lt ht s.isLt
  rw [history, history, version, version, dif_pos htb, dif_pos htb,
    h ⟨t, htb⟩ (Fin.mk_le_of_le_val ht)]

/-- A document with the reader's own number is seen. -/
theorem visible_of_document {db : Store} {s : Byte} {id : QByteArray} {o : QJsonObject}
    (h : db.find? (constructDocumentLinkKey id s) = some (.document o)) :
    visible db s id = some o :=
  History.view_of_some (by rw [history_val, h]; rfl)

/-- Two readers see the same when no version lies between them. -/
theorem visible_eq_of_forall_none {db : Store} {s s' : Byte} (hs : s ≤ s') {id : QByteArray}
    (h : ∀ t, s < t → t ≤ s' → db.find? (constructDocumentLinkKey id t) = none) :
    visible db s' id = visible db s id := by
  refine History.view_eq_of_forall_none hs fun t ht hts => ?_
  have htb : t < 256 := lt_of_le_of_lt hts s'.isLt
  rw [history, version, dif_pos htb, h ⟨t, htb⟩ ht hts, Option.map_none]

theorem visible_eq_none_of_forall {db : Store} {s : Byte} {id : QByteArray}
    (h : ∀ t ≤ s, db.find? (constructDocumentLinkKey id t) = none) : visible db s id = none := by
  refine History.view_eq_none_of_forall fun t ht => ?_
  have htb : t < 256 := lt_of_le_of_lt ht s.isLt
  rw [history, version, dif_pos htb, h ⟨t, htb⟩ ht, Option.map_none]

/-- Scanning the versions of an id in ascending order finds the visible document. -/
theorem jsonValue_scanList {db : Store} {id : QByteArray} {vs : List (Byte × Blob)}
    (hs : vs.Pairwise fun v w => v.1 < w.1)
    (hmem : ∀ t b, (t, b) ∈ vs ↔ db.find? (constructDocumentLinkKey id t) = some b) (s : Byte) :
    (scanList s vs .init).jsonValue = jsonOfDocument (visible db s id) := by
  have hjson : ∀ b : Blob, (if b.isEmpty then .undefined else b.unmarshal) =
      jsonOfDocument b.document? := by
    intro b
    cases b <;> rfl
  rw [ValueScan.jsonValue, scanList_valueData hs rfl, hjson]
  congr 1
  generalize hlast : (List.filter _ vs).getLast? = last
  rcases last with - | ⟨t, b⟩
  · -- no version up to `s`
    refine (visible_eq_none_of_forall fun t ht => ?_).symm
    rw [List.getLast?_eq_none_iff, List.filter_eq_nil_iff] at hlast
    rw [Option.eq_none_iff_forall_not_mem]
    intro b hb
    exact hlast (t, b) ((hmem t b).mpr hb) (by simpa using ht)
  · obtain ⟨front, hfront⟩ := List.getLast?_eq_some_iff.mp hlast
    have hin : (t, b) ∈ vs.filter fun v => v.1 ≤ s := hfront ▸ by simp
    obtain ⟨htb, hts⟩ := List.mem_filter.mp hin
    have hts : t ≤ s := by simpa using hts
    have hnewest : (history db id).newest s.val = some b.document? := by
      rw [History.newest_eq_some_iff]
      refine ⟨t.val, hts, ?_, fun t' ht' hs' => ?_⟩
      · rw [history_val, (hmem t b).mp htb, Option.map_some]
      · -- a version between `t` and `s` would come behind the last one
        have hlt : t' < 256 := lt_of_le_of_lt hs' s.isLt
        rw [history, version, dif_pos hlt, Option.map_eq_none_iff,
          Option.eq_none_iff_forall_not_mem]
        intro b' hb'
        have hmem' : ((⟨t', hlt⟩ : Byte), b') ∈ vs.filter fun v => v.1 ≤ s :=
          List.mem_filter.mpr ⟨(hmem _ b').mpr hb', by simpa using Fin.mk_le_of_le_val hs'⟩
        have hsorted := hs.filter fun v => decide (v.1 ≤ s)
        rw [hfront] at hmem' hsorted
        rcases List.mem_append.mp hmem' with hm | hm
        · exact absurd ((List.pairwise_append.mp hsorted).2.2 _ hm _ List.mem_cons_self)
            (not_lt_of_gt ht')
        · have heq : (⟨t', hlt⟩ : Byte) = t := (Prod.mk.inj (List.mem_singleton.mp hm)).1
          exact absurd (congrArg Fin.val heq) (by simpa using ht'.ne')
    rw [visible, History.view, hnewest]
    rfl

/-! ## The shape of a store -/

/-- Every key of the store is one of an id in `F`, or behind the documents. -/
def Shape (F : Set QByteArray) (db : Store) : Prop :=
  ∀ k, db.find? k ≠ none → (∃ I ∈ F, IsKeyOf I k) ∨ IsMetaKey k

theorem Shape.of_mem {F : Set QByteArray} {db : Store} (h : Shape F db)
    {e : QByteArray × Blob} (he : e ∈ db.entries) :
    (∃ I ∈ F, IsKeyOf I e.1) ∨ IsMetaKey e.1 :=
  h e.1 fun hnone => SortedMap.find?_eq_none_iff.mp hnone e.2 he

/-- A stored version belongs to one of the ids. -/
theorem Shape.mem_of_linkKey {F : Set QByteArray} (hF : ColonFree F) {db : Store} (hS : Shape F db)
    {I : QByteArray} {t : Byte} (hv : db.find? (constructDocumentLinkKey I t) ≠ none) : I ∈ F := by
  rcases hS _ hv with ⟨J, hJ, hk⟩ | hk
  · exact hF.eq_of_isKeyOf_linkKey hJ hk ▸ hJ
  · exact absurd (isKeyOf_linkKey I t) hk.not_isKeyOf

/-- A document that is seen has one of the ids. -/
theorem Shape.mem_of_visible {F : Set QByteArray} (hF : ColonFree F) {db : Store} (hS : Shape F db)
    {s : Byte} {id : QByteArray} {o : QJsonObject} (h : visible db s id = some o) : id ∈ F := by
  by_contra hid
  have hnone : visible db s id = none := visible_eq_none_of_forall fun t _ => by
    by_contra hv
    exact hid (hS.mem_of_linkKey hF hv)
  rw [h] at hnone
  cases hnone

/-! ## What an iterator stands on -/

theorem take_two_eq_iff {k : QByteArray} : k.take 2 = bytes "d:" ↔ documentPrefix [] <+: k := by
  have hd : bytes "d:" = documentPrefix [] := by decide
  rw [hd, List.prefix_iff_eq_take, eq_comm]
  rfl

theorem IsKeyOf.take_two {I k : QByteArray} (h : IsKeyOf I k) : k.take 2 = bytes "d:" :=
  take_two_eq_iff.mpr (.trans ⟨I, rfl⟩ h.documentPrefix_prefix)

theorem IsMetaKey.take_two_ne {k : QByteArray} (h : IsMetaKey k) : k.take 2 ≠ bytes "d:" :=
  fun hk => h.not_documentPrefix (take_two_eq_iff.mp hk)

/-- An iterator stops at a document: at its start key, or at its oldest version when
the start key is missing. -/
def StopAt (db : Store) (I : QByteArray) (it : Iterator) : Prop :=
  (it.beginKey = constructDocumentStartKey I ∧ it.keyPrefix = documentPrefix I) ∨
    ((∃ s, it.beginKey = constructDocumentLinkKey I s) ∧
      it.keyPrefix = constructDocumentStartKey I ∧
      db.find? (constructDocumentStartKey I) = none)

theorem StopAt.isKeyOf {db : Store} {I : QByteArray} {it : Iterator} (h : StopAt db I it) :
    IsKeyOf I it.beginKey := by
  rcases h with ⟨h, -⟩ | ⟨h, -⟩
  · exact .inl h
  · exact .inr h

theorem StopAt.documentPrefix_prefix {db : Store} {I : QByteArray} {it : Iterator}
    (h : StopAt db I it) : documentPrefix I <+: it.keyPrefix := by
  rcases h with ⟨-, h⟩ | ⟨-, h, -⟩
  · rw [h]
  · rw [h]
    exact documentPrefix_prefix_startKey I

theorem StopAt.keyPrefix_le {db : Store} {I : QByteArray} {it : Iterator}
    (h : StopAt db I it) : it.keyPrefix ≤ it.beginKey := by
  rcases h with ⟨hb, h⟩ | ⟨⟨s, hb⟩, h, -⟩
  · rw [hb, h]
    exact (documentPrefix_prefix_startKey I).le_of_lex
  · rw [hb, h]
    exact (startKey_lt_linkKey I s).le

theorem StopAt.key_eq {db : Store} {I : QByteArray} {it : Iterator} (h : StopAt db I it)
    (hstart : db.find? (constructDocumentStartKey I) ≠ none) : it.key = I := by
  rcases h with ⟨-, h⟩ | ⟨-, -, h⟩
  · rw [Iterator.key, h]
    rfl
  · exact absurd h hstart

namespace Iterator

variable {db : Store} {it : Iterator} {k : QByteArray} {v : Blob} {l : List (QByteArray × Blob)}

/-- Behind the documents an iterator is not valid. -/
theorem Positioned.not_isValid_of_isMetaKey (h : it.Positioned db) (hr : it.rest = (k, v) :: l)
    (hk : IsMetaKey k) : it.isValid = false := by
  rw [isValid, h.keyPrefix_eq hr, if_neg hk.take_two_ne]
  simp

theorem Positioned.sorted (h : it.Positioned db) :
    it.rest.Pairwise fun a b => a.1 < b.1 :=
  db.sorted.sublist h.suffix.sublist

theorem Positioned.beginKey_le (h : it.Positioned db) {e : QByteArray × Blob}
    (he : e ∈ it.rest) : it.beginKey ≤ e.1 := by
  have hs := h.sorted
  rcases hr : it.rest with - | ⟨⟨k, v⟩, l⟩
  · rw [hr] at he
    cases he
  · rw [hr] at he hs
    rw [h.beginKey_eq hr]
    rcases List.mem_cons.mp he with rfl | he
    · exact le_rfl
    · exact ((List.pairwise_cons.mp hs).1 e he).le

/-- The entries from where the iterator stands are those that are not smaller. -/
theorem Positioned.mem_rest (h : it.Positioned db) (hne : it.rest ≠ [])
    {e : QByteArray × Blob} (he : e ∈ db.entries) (hle : it.beginKey ≤ e.1) : e ∈ it.rest := by
  have hseek : db.seekGE it.beginKey = it.rest := h.kvSeek_beginKey hne .levelDB
  rw [← hseek, SortedMap.mem_seekGE]
  exact ⟨he, hle⟩

/-- On a key of `I` the iterator stops at `I`. -/
theorem Positioned.stopAt (h : it.Positioned db) (hr : it.rest = (k, v) :: l) {I : QByteArray}
    (hk : IsKeyOf I k)
    (hclosed : ∀ e ∈ db.entries, IsKeyOf I e.1 → e ∈ it.rest) :
    it.isValid = true ∧ StopAt db I it := by
  have hprefix := h.keyPrefix_eq hr
  rw [if_pos hk.take_two] at hprefix
  have hbegin := h.beginKey_eq hr
  rcases hk with rfl | ⟨s, rfl⟩
  · rw [constructDocumentStartKey, List.dropLast_concat] at hprefix
    refine ⟨?_, .inl ⟨hbegin, hprefix⟩⟩
    rw [isValid, hr, hprefix]
    rfl
  · rw [constructDocumentLinkKey, List.dropLast_concat] at hprefix
    refine ⟨?_, .inr ⟨⟨s, hbegin⟩, hprefix, ?_⟩⟩
    · rw [isValid, hr, hprefix]
      rfl
    · -- a start key would be in front of the version
      rw [SortedMap.find?_eq_none_iff]
      intro b hb
      have hle := h.beginKey_le (hclosed _ hb (.inl rfl))
      rw [hbegin] at hle
      exact absurd (startKey_lt_linkKey I s) (not_lt_of_ge hle)

section StopAt

variable (h : it.Positioned db) {F : Set QByteArray} (hF : Separated F) (hS : Shape F db)
  {I : QByteArray} (hI : I ∈ F) (hstop : StopAt db I it)
include h hF hS hI hstop

/-- From a stop at `I` on, the iterator's prefix marks the keys of `I`. -/
theorem Positioned.keyPrefix_prefix_iff {e : QByteArray × Blob} (he : e ∈ it.rest) :
    it.keyPrefix <+: e.1 ↔ IsKeyOf I e.1 := by
  have hle := h.beginKey_le he
  constructor
  · intro hp
    rcases hS.of_mem (h.suffix.subset he) with ⟨J, hJ, hk⟩ | hk
    · have hpre := hstop.documentPrefix_prefix.trans hp
      obtain rfl : J = I := hF.eq_of_documentPrefix hI hJ hk hpre (hstop.isKeyOf.startKey_le.trans hle)
      exact hk
    · exact absurd (hstop.documentPrefix_prefix.trans hp) hk.not_documentPrefix
  · intro hk
    rcases hstop with ⟨-, hp⟩ | ⟨⟨s, hb⟩, hp, hnone⟩
    · rw [hp]
      exact hk.documentPrefix_prefix
    · rcases hk with hk | ⟨t, hk⟩
      · have hmem := SortedMap.find?_eq_none_iff.mp hnone e.2
        rw [← hk] at hmem
        exact absurd (h.suffix.subset he) hmem
      · rw [hp, hk]
        exact List.prefix_append _ _

omit hF hS hI in
theorem Positioned.pairwise_keyPrefix :
    it.rest.Pairwise fun a b =>
      decide (it.keyPrefix <+: b.1) = true → decide (it.keyPrefix <+: a.1) = true :=
  List.pairwise_prefix_of_pairwise_lt h.sorted fun _ he =>
    hstop.keyPrefix_le.trans (h.beginKey_le he)

/-- `next` skips the keys of `I`. -/
theorem Positioned.mem_rest_next {e : QByteArray × Blob} :
    e ∈ it.next.rest ↔ e ∈ it.rest ∧ ¬ IsKeyOf I e.1 := by
  rw [Iterator.next, rest_setupPrefix,
    List.dropWhile_eq_filter_of_pairwise (h.pairwise_keyPrefix hstop), List.mem_filter]
  refine and_congr_right fun he => ?_
  rw [← h.keyPrefix_prefix_iff hF hS hI hstop he]
  simp

end StopAt

end Iterator

/-! ## The stops of a loop -/

/-- `its` are the stops of a loop over the entries `l`: they are at documents of
`F`, in ascending order, and no start key is passed over. -/
structure StopsOf (F : Set QByteArray) (db : Store) (s : Byte) (l : List (QByteArray × Blob))
    (its : List Iterator) : Prop where
  sound : ∀ it ∈ its, it.Positioned db ∧ it.isValid = true ∧ it.snapshotId = s ∧
    (∃ v, (it.beginKey, v) ∈ l) ∧ ∃ I ∈ F, StopAt db I it
  complete : ∀ I ∈ F, ∀ v, (constructDocumentStartKey I, v) ∈ l →
    ∃ it ∈ its, it.beginKey = constructDocumentStartKey I
  increasing : its.Pairwise fun a b => a.beginKey < b.beginKey

/-- The loop from a position that has the keys of an id all ahead or all behind.
By induction on the fuel: one step stops at the id ahead and passes its keys. -/
theorem stopsOf_stopsFrom {F : Set QByteArray} (hF : Separated F) {db : Store}
    (hS : Shape F db) (B : Backend) (fuel : ℕ) {it : Iterator} (h : it.Positioned db)
    (hfuel : it.rest.length < fuel)
    (hclosed : ∀ I ∈ F, ∀ e ∈ it.rest, IsKeyOf I e.1 →
      ∀ e' ∈ db.entries, IsKeyOf I e'.1 → e' ∈ it.rest) :
    StopsOf F db it.snapshotId it.rest (stopsFrom B db fuel it) := by
  induction fuel generalizing it with
  | zero => omega
  | succ fuel ih =>
    rcases hr : it.rest with - | ⟨⟨k, v⟩, l⟩
    · rw [stopsFrom_of_not_isValid (by simp [Iterator.isValid, hr])]
      exact ⟨by simp, by simp, .nil⟩
    · have hhead : (k, v) ∈ it.rest := by simp [hr]
      rcases hS.of_mem (h.suffix.subset hhead) with ⟨I, hI, hk⟩ | hk
      · obtain ⟨hv, hstop⟩ := h.stopAt hr hk (hclosed I hI _ hhead hk)
        have hnext := fun e => h.mem_rest_next hF hS hI hstop (e := e)
        have hlt := h.length_next_lt hv
        have hrest := ih (Iterator.positioned_next h) (by omega) (by
          intro J hJ e he hkJ e' he' hkJ'
          obtain ⟨her, hnotI⟩ := (hnext e).mp he
          refine (hnext e').mpr ⟨hclosed J hJ e her hkJ e' he' hkJ', fun hkI => ?_⟩
          obtain rfl : J = I := hF.eq_of_isKeyOf hI hJ hkI hkJ'
          exact hnotI hkJ)
        rw [Iterator.snapshotId_next] at hrest
        rw [stopsFrom_succ h hv, ← hr]
        refine ⟨?_, ?_, ?_⟩
        · rw [List.forall_mem_cons]
          refine ⟨⟨h, hv, rfl, ⟨v, h.beginKey_eq hr ▸ hhead⟩, I, hI, hstop⟩, fun it' hit' => ?_⟩
          obtain ⟨hp, hv', hs, ⟨w, hw⟩, hat⟩ := hrest.sound it' hit'
          exact ⟨hp, hv', hs, ⟨w, ((hnext _).mp hw).1⟩, hat⟩
        · intro J hJ w hw
          by_cases hIJ : IsKeyOf I (constructDocumentStartKey J)
          · obtain rfl : J = I := hF.eq_of_isKeyOf hI hJ hIJ (isKeyOf_startKey J)
            refine ⟨it, List.mem_cons_self, ?_⟩
            rcases hstop with ⟨hb, -⟩ | ⟨-, -, hnone⟩
            · exact hb
            · exact absurd (h.suffix.subset hw) (SortedMap.find?_eq_none_iff.mp hnone w)
          · obtain ⟨it', hit', hb⟩ := hrest.complete J hJ w ((hnext _).mpr ⟨hw, hIJ⟩)
            exact ⟨it', List.mem_cons_of_mem _ hit', hb⟩
        · refine List.pairwise_cons.mpr ⟨fun it' hit' => ?_, hrest.increasing⟩
          obtain ⟨-, -, -, ⟨w, hw⟩, -⟩ := hrest.sound it' hit'
          obtain ⟨hwr, hnotI⟩ := (hnext _).mp hw
          refine lt_of_le_of_ne (h.beginKey_le hwr) fun heq => hnotI ?_
          rw [← heq]
          exact hstop.isKeyOf
      · rw [stopsFrom_of_not_isValid (h.not_isValid_of_isMetaKey hr hk)]
        refine ⟨by simp, fun I _ w hw => ?_, .nil⟩
        -- a start key would be below the first entry
        have hle := h.beginKey_le (hr ▸ hw)
        rw [h.beginKey_eq hr] at hle
        exact absurd ((isKeyOf_startKey I).lt_of_isMetaKey hk) (not_lt_of_ge hle)

/-- **The stops of the iterator** from `seekToFirst` on. -/
theorem stops_spec {F : Set QByteArray} (hF : Separated F) {db : Store} (hS : Shape F db)
    (B : Backend) (s : Byte) : StopsOf F db s db.entries (stops B db s) := by
  have h := Iterator.positioned_seekToFirst db (newIterator db s)
  have hrest : ((newIterator db s).seekToFirst db).rest = db.entries := by
    rw [Iterator.seekToFirst, Iterator.rest_setupPrefix]
  have hspec := stopsOf_stopsFrom hF hS B (db.entries.length + 1) h
    (by rw [hrest]; omega) (fun _ _ _ _ _ e' he' _ => hrest ▸ he')
  rw [hrest] at hspec
  have hs : ((newIterator db s).seekToFirst db).snapshotId = s := by
    rw [Iterator.seekToFirst, Iterator.snapshotId_setupPrefix]
    rfl
  rwa [hs] at hspec

/-! ## The value at a stop -/

/-- A key of `I` that counts as a version behind the prefix of `I` is a version key. -/
theorem exists_linkKey_of_versionEntry {I p : QByteArray} {e : QByteArray × Blob}
    (hk : IsKeyOf I e.1) (hp : p = documentPrefix I) {v : Byte × Blob}
    (hv : versionEntry p e = some v) :
    ∃ t, e.1 = constructDocumentLinkKey I t ∧ v = (t, e.2) := by
  subst hp
  rcases hk with hk | ⟨t, hk⟩
  · rw [versionEntry, hk, if_neg (by simp)] at hv
    cases hv
  · rw [versionEntry, hk, if_pos (by simp), lastByte_linkKey] at hv
    exact ⟨t, hk, (Option.some.inj hv).symm⟩

section Value

variable {F : Set QByteArray} (hF : Separated F) {db : Store} (hS : Shape F db)
  {it : Iterator} (h : it.Positioned db) (hv : it.isValid = true) {I : QByteArray} (hI : I ∈ F)
include hF hS h hv hI

omit hF hS hI in
theorem value_eq_scanList (hstop : StopAt db I it) (B : Backend) :
    (it.value B db).1 = scanList it.snapshotId
      ((it.rest.filter fun e => it.keyPrefix <+: e.1).filterMap (versionEntry it.keyPrefix))
      .init := by
  rw [Iterator.value, h.kvSeek_beginKey (Iterator.ne_nil_of_isValid hv) B, scanVersions_eq,
    List.takeWhile_eq_filter_of_pairwise (h.pairwise_keyPrefix hstop)]

/-- The entries read at a start key are the versions of that id. -/
theorem mem_versionEntries_iff (hb : it.beginKey = constructDocumentStartKey I)
    (hp : it.keyPrefix = documentPrefix I) {t : Byte} {b : Blob} :
    (t, b) ∈ (it.rest.filter fun e => it.keyPrefix <+: e.1).filterMap
        (versionEntry it.keyPrefix) ↔
      db.find? (constructDocumentLinkKey I t) = some b := by
  have hstop : StopAt db I it := .inl ⟨hb, hp⟩
  rw [List.mem_filterMap, SortedMap.find?_eq_some_iff]
  constructor
  · rintro ⟨e, he, hve⟩
    obtain ⟨her, hep⟩ := List.mem_filter.mp he
    have hk := (h.keyPrefix_prefix_iff hF hS hI hstop her).mp (by simpa using hep)
    obtain ⟨t', ht', heq⟩ := exists_linkKey_of_versionEntry hk hp hve
    obtain ⟨rfl, rfl⟩ := Prod.mk.inj heq
    rw [← ht']
    exact h.suffix.subset her
  · intro hmem
    have hle : it.beginKey ≤ constructDocumentLinkKey I t := by
      rw [hb]
      exact (startKey_lt_linkKey I t).le
    refine ⟨_, List.mem_filter.mpr
      ⟨h.mem_rest (Iterator.ne_nil_of_isValid hv) hmem hle, ?_⟩, ?_⟩
    · rw [hp]
      simpa using documentPrefix_prefix_linkKey I t
    · rw [versionEntry, hp, if_pos (by simp), lastByte_linkKey]

/-- At a start key `value` scans the versions of that id in ascending order. -/
theorem exists_versions (hb : it.beginKey = constructDocumentStartKey I)
    (hp : it.keyPrefix = documentPrefix I) (B : Backend) :
    ∃ vs : List (Byte × Blob), vs.Pairwise (fun v w => v.1 < w.1) ∧
      (∀ t b, (t, b) ∈ vs ↔ db.find? (constructDocumentLinkKey I t) = some b) ∧
      (it.value B db).1 = scanList it.snapshotId vs .init := by
  have hstop : StopAt db I it := .inl ⟨hb, hp⟩
  refine ⟨_, ?_, fun t b => mem_versionEntries_iff hF hS h hv hI hb hp,
    value_eq_scanList h hv hstop B⟩
  rw [List.pairwise_filterMap]
  refine (h.sorted.filter _).imp_of_mem fun {e e'} he he' hlt v hv' w hw => ?_
  obtain ⟨her, hep⟩ := List.mem_filter.mp he
  obtain ⟨her', hep'⟩ := List.mem_filter.mp he'
  have hk := (h.keyPrefix_prefix_iff hF hS hI hstop her).mp (by simpa using hep)
  have hk' := (h.keyPrefix_prefix_iff hF hS hI hstop her').mp (by simpa using hep')
  obtain ⟨t, ht, rfl⟩ := exists_linkKey_of_versionEntry hk hp hv'
  obtain ⟨t', ht', rfl⟩ := exists_linkKey_of_versionEntry hk' hp hw
  rw [ht, ht'] at hlt
  exact linkKey_lt_linkKey_iff.mp hlt

/-- The value at a start key is the visible document. -/
theorem jsonValue_value (hb : it.beginKey = constructDocumentStartKey I)
    (hp : it.keyPrefix = documentPrefix I) (B : Backend) :
    (it.value B db).1.jsonValue = jsonOfDocument (visible db it.snapshotId I) := by
  obtain ⟨vs, hs, hmem, hval⟩ := exists_versions hF hS h hv hI hb hp B
  rw [hval, jsonValue_scanList hs hmem]

/-- Where the start key is missing, the versions are too short for the prefix. -/
theorem jsonValue_value_of_linkKey {s : Byte} (hb : it.beginKey = constructDocumentLinkKey I s)
    (hp : it.keyPrefix = constructDocumentStartKey I)
    (hnone : db.find? (constructDocumentStartKey I) = none) (B : Backend) :
    (it.value B db).1.jsonValue = .undefined := by
  have hstop : StopAt db I it := .inr ⟨⟨s, hb⟩, hp, hnone⟩
  rw [value_eq_scanList h hv hstop B]
  have hnil : (it.rest.filter fun e => it.keyPrefix <+: e.1).filterMap
      (versionEntry it.keyPrefix) = [] := by
    rw [List.filterMap_eq_nil_iff]
    intro e he
    obtain ⟨her, hep⟩ := List.mem_filter.mp he
    have hk := (h.keyPrefix_prefix_iff hF hS hI hstop her).mp (by simpa using hep)
    obtain ⟨t, ht, hkey⟩ := hk.exists_eq
    rw [versionEntry, hp, hkey, if_neg]
    simp
    omega
  rw [hnil]
  rfl

end Value

/-! ## The documents enumerated -/

/-- The pairs of id and document that a loop over the documents reads. -/
def documents (B : Backend) (db : Store) (s : Byte) : List (QByteArray × QJsonObject) :=
  (enumerate B db s).filterMap fun e =>
    match e.1 with
    | .object o => some (e.2, o)
    | _ => none

theorem mem_documents_iff_enumerate {B : Backend} {db : Store} {s : Byte} {I : QByteArray}
    {o : QJsonObject} : (I, o) ∈ documents B db s ↔ (.object o, I) ∈ enumerate B db s := by
  rw [documents, List.mem_filterMap]
  constructor
  · rintro ⟨⟨v, id⟩, he, heq⟩
    cases v <;> simp_all
  · exact fun he => ⟨_, he, rfl⟩

/-- **Enumeration**: a loop over a store with separated ids reads exactly the visible
documents of the ids with a start key. -/
theorem mem_documents_iff {F : Set QByteArray} (hF : Separated F) {db : Store}
    (hS : Shape F db) {B : Backend} {s : Byte} {I : QByteArray} {o : QJsonObject} :
    (I, o) ∈ documents B db s ↔
      I ∈ F ∧ db.find? (constructDocumentStartKey I) ≠ none ∧ visible db s I = some o := by
  have hspec := stops_spec hF hS B s
  rw [mem_documents_iff_enumerate, enumerate, List.mem_map]
  constructor
  · rintro ⟨it, hit, heq⟩
    obtain ⟨h, hv, hs, ⟨w, hw⟩, J, hJ, hstop⟩ := hspec.sound it hit
    obtain ⟨hval, rfl⟩ := Prod.mk.inj heq
    rcases hstop with ⟨hb, hp⟩ | ⟨⟨t, hb⟩, hp, hnone⟩
    · have hfind : db.find? (constructDocumentStartKey J) ≠ none := by
        rw [← hb, SortedMap.find?_eq_some_iff.mpr hw]
        simp
      have hkey : it.key = J := StopAt.key_eq (.inl ⟨hb, hp⟩) hfind
      rw [jsonValue_value hF hS h hv hJ hb hp, hs] at hval
      rw [hkey]
      refine ⟨hJ, hfind, ?_⟩
      cases hvis : visible db s J with
      | none => rw [hvis] at hval; cases hval
      | some o' =>
        rw [hvis] at hval
        exact congrArg some (QJsonValue.object.inj hval)
    · rw [jsonValue_value_of_linkKey hF hS h hv hJ hb hp hnone] at hval
      cases hval
  · rintro ⟨hI, hstart, hvis⟩
    obtain ⟨b, hb⟩ := Option.ne_none_iff_exists'.mp hstart
    obtain ⟨it, hit, hbegin⟩ := hspec.complete I hI b (SortedMap.find?_eq_some_iff.mp hb)
    obtain ⟨h, hv, hs, -, J, hJ, hstop⟩ := hspec.sound it hit
    obtain rfl : J = I :=
      hF.eq_of_isKeyOf hI hJ (hbegin ▸ isKeyOf_startKey I) hstop.isKeyOf
    refine ⟨it, hit, Prod.ext ?_ (hstop.key_eq hstart)⟩
    rcases hstop with ⟨hb', hp⟩ | ⟨-, -, hnone⟩
    · rw [jsonValue_value hF hS h hv hJ hb' hp, hs, hvis]
      rfl
    · exact absurd hnone hstart

/-- A stop at which a document is read is at its start key. -/
theorem beginKey_of_isObject {F : Set QByteArray} (hF : Separated F) {db : Store}
    (hS : Shape F db) {B : Backend} {s : Byte} {it : Iterator} (hit : it ∈ stops B db s)
    (hobject : (it.value B db).1.jsonValue.isObject = true) :
    it.beginKey = constructDocumentStartKey it.key := by
  obtain ⟨h, hv, -, ⟨w, hw⟩, I, hI, hstop⟩ := (stops_spec hF hS B s).sound it hit
  rcases hstop with ⟨hb, hp⟩ | ⟨⟨t, hb⟩, hp, hnone⟩
  · have hfind : db.find? (constructDocumentStartKey I) ≠ none := by
      rw [← hb, SortedMap.find?_eq_some_iff.mpr hw]
      simp
    rw [StopAt.key_eq (.inl ⟨hb, hp⟩) hfind]
    exact hb
  · rw [jsonValue_value_of_linkKey hF hS h hv hI hb hp hnone] at hobject
    cases hobject

/-- No two documents are read under one id. -/
theorem pairwise_enumerate {F : Set QByteArray} (hF : Separated F) {db : Store} (hS : Shape F db)
    (B : Backend) (s : Byte) :
    (enumerate B db s).Pairwise fun e e' =>
      e.1.isObject = true → e'.1.isObject = true → e.2 ≠ e'.2 := by
  rw [enumerate, List.pairwise_map]
  refine (stops_spec hF hS B s).increasing.imp_of_mem fun {it it'} hit hit' hlt ho ho' heq => ?_
  have hb := beginKey_of_isObject hF hS hit ho
  have hkey : it.key = it'.key := heq
  rw [hkey, ← beginKey_of_isObject hF hS hit' ho'] at hb
  exact absurd (hb ▸ hlt) (lt_irrefl _)

/-! ## Seeking an id -/

section Seek

variable {F : Set QByteArray} (hF : Separated F) {db : Store} (hS : Shape F db)
  {B : Backend} {s : Byte} {I : QByteArray}

theorem kvSeek_suffix (B : Backend) (db : Store) (k : QByteArray) :
    kvSeek B db k <:+ db.entries := by
  cases B <;> exact List.dropWhile_suffix _

theorem rest_seek (it : Iterator) :
    (it.seek B db I).rest = kvSeek B db (constructDocumentStartKey I) := by
  rw [Iterator.seek, Iterator.rest_setupPrefix]
  rfl

theorem positioned_seek (it : Iterator) : (it.seek B db I).Positioned db :=
  Iterator.positioned_setupPrefix (kvSeek_suffix B db _)

@[simp] theorem snapshotId_seek (it : Iterator) :
    (it.seek B db I).snapshotId = it.snapshotId :=
  Iterator.snapshotId_setupPrefix _

/-- A stored start key is where the seek ends. -/
theorem seek_of_startKey (hstart : db.find? (constructDocumentStartKey I) ≠ none)
    (it : Iterator) :
    (it.seek B db I).isValid = true ∧
      (it.seek B db I).beginKey = constructDocumentStartKey I ∧
      (it.seek B db I).keyPrefix = documentPrefix I := by
  obtain ⟨b, hb⟩ := Option.ne_none_iff_exists'.mp hstart
  obtain ⟨front, l, hl⟩ := List.append_of_mem (SortedMap.find?_eq_some_iff.mp hb)
  have hrest : (it.seek B db I).rest = (constructDocumentStartKey I, b) :: l := by
    rw [rest_seek, kvSeek_of_suffix ⟨front, hl.symm⟩]
  have h : (it.seek B db I).Positioned db := positioned_seek it
  have hprefix := h.keyPrefix_eq hrest
  rw [if_pos (isKeyOf_startKey I).take_two, constructDocumentStartKey,
    List.dropLast_concat] at hprefix
  refine ⟨?_, h.beginKey_eq hrest, hprefix⟩
  rw [Iterator.isValid, hrest, hprefix]
  rfl

theorem seekValue_eq_none (hv : ((newIterator db s).seek B db I).isValid = false) :
    seekValue B db s I = none := by
  rw [seekValue, hv, if_neg Bool.false_ne_true]

theorem seekValue_eq_some (hv : ((newIterator db s).seek B db I).isValid = true) :
    seekValue B db s I = some (((newIterator db s).seek B db I).value B db).1 := by
  rw [seekValue, hv, if_pos rfl]

/-- The map's iterator finds nothing else instead of a missing start key. -/
theorem seekValue_map_of_startKey_none
    (hnone : db.find? (constructDocumentStartKey I) = none) : seekValue .map db s I = none := by
  refine seekValue_eq_none ?_
  rw [Iterator.isValid, rest_seek, kvSeek, SortedMap.seekEq_eq_nil hnone]
  rfl

include hF hS

/-- Looking up an id with a start key scans its versions. -/
theorem seekValue_of_startKey (hI : I ∈ F)
    (hstart : db.find? (constructDocumentStartKey I) ≠ none) :
    ∃ vs : List (Byte × Blob), vs.Pairwise (fun v w => v.1 < w.1) ∧
      (∀ t b, (t, b) ∈ vs ↔ db.find? (constructDocumentLinkKey I t) = some b) ∧
      seekValue B db s I = some (scanList s vs .init) := by
  obtain ⟨hv, hb, hp⟩ := seek_of_startKey (B := B) hstart (newIterator db s)
  obtain ⟨vs, hs, hmem, hval⟩ := exists_versions hF hS (positioned_seek _) hv hI hb hp B
  refine ⟨vs, hs, hmem, ?_⟩
  rw [seekValue_eq_some hv, hval, snapshotId_seek]
  rfl

/-- Looking up an id with a start key is exact. -/
theorem getJsonValue_of_startKey (hI : I ∈ F)
    (hstart : db.find? (constructDocumentStartKey I) ≠ none) :
    getJsonValue B db s I = jsonOfDocument (visible db s I) := by
  obtain ⟨vs, hs, hmem, hval⟩ := seekValue_of_startKey hF hS (B := B) (s := s) hI hstart
  rw [getJsonValue, hval]
  exact jsonValue_scanList hs hmem s

/-- When the lookup of an id with a start key reports a version of its own number
that is naked, that version is the oldest one. -/
theorem seekValue_isNaked_iff (hI : I ∈ F)
    (hstart : db.find? (constructDocumentStartKey I) ≠ none) {r : ValueScan}
    (hr : seekValue B db s I = some r) :
    r.snapshotId = some s ∧ r.isNaked = true ↔
      db.find? (constructDocumentLinkKey I s) ≠ none ∧
        ∀ t < s, db.find? (constructDocumentLinkKey I t) = none := by
  obtain ⟨vs, hs, hmem, hval⟩ := seekValue_of_startKey hF hS (B := B) (s := s) hI hstart
  obtain rfl : scanList s vs .init = r := Option.some.inj (hval.symm.trans hr)
  rw [scanList_isNaked_iff hs rfl (by simp [ValueScan.init])]
  constructor
  · rintro ⟨-, ⟨b, hb⟩, hle⟩
    refine ⟨by rw [(hmem s b).mp hb]; simp, fun t ht => ?_⟩
    rw [Option.eq_none_iff_forall_not_mem]
    exact fun b' hb' => absurd (hle _ ((hmem t b').mpr hb')) (not_le_of_gt ht)
  · rintro ⟨hs', hlt⟩
    obtain ⟨b, hb⟩ := Option.ne_none_iff_exists'.mp hs'
    refine ⟨rfl, ⟨b, (hmem s b).mpr hb⟩, fun v hv => ?_⟩
    by_contra hnot
    have hfind := (hmem v.1 v.2).mp hv
    rw [hlt v.1 (not_le.mp hnot)] at hfind
    cases hfind

/-- The next key of the store from the start key of `I` on is the start key of `J`. -/
structure FollowedBy (db : Store) (I J : QByteArray) : Prop where
  stored : db.find? (constructDocumentStartKey J) ≠ none
  lt : constructDocumentStartKey I < constructDocumentStartKey J
  next : ∀ k, db.find? k ≠ none → constructDocumentStartKey I ≤ k →
    constructDocumentStartKey J ≤ k

/-- LevelDB's seek lands on the next document, and the lookup returns it. -/
theorem getJsonValue_levelDB_of_followedBy {J : QByteArray} (hJ : J ∈ F)
    (h : FollowedBy db I J) :
    getJsonValue .levelDB db s I = jsonOfDocument (visible db s J) := by
  have hseek : db.seekGE (constructDocumentStartKey I) =
      db.seekGE (constructDocumentStartKey J) := by
    rw [SortedMap.seekGE_eq_filter, SortedMap.seekGE_eq_filter]
    refine List.filter_congr fun e he => ?_
    rw [decide_eq_decide]
    exact ⟨h.next e.1 fun hn => SortedMap.find?_eq_none_iff.mp hn e.2 he, h.lt.le.trans⟩
  have hit : (newIterator db s).seek .levelDB db I = (newIterator db s).seek .levelDB db J := by
    rw [Iterator.seek, Iterator.seek]
    have hsame : kvSeek .levelDB db (bytes "d:" ++ I ++ bytes ":") =
        kvSeek .levelDB db (bytes "d:" ++ J ++ bytes ":") := hseek
    rw [hsame]
  rw [← getJsonValue_of_startKey hF hS (B := .levelDB) hJ h.stored, getJsonValue, getJsonValue,
    seekValue, seekValue, hit]

/-- Where LevelDB's seek lands on no visible document, a missing id is undefined. -/
theorem getJsonValue_levelDB_of_startKey_none (hI : I ∈ F)
    (hnone : db.find? (constructDocumentStartKey I) = none)
    (hnext : ∀ J ∈ F, FollowedBy db I J → visible db s J = none) :
    getJsonValue .levelDB db s I = .undefined := by
  have h : ((newIterator db s).seek .levelDB db I).Positioned db := positioned_seek _
  have hinvalid : ((newIterator db s).seek .levelDB db I).isValid = false →
      getJsonValue .levelDB db s I = .undefined := by
    intro hv
    rw [getJsonValue, seekValue_eq_none hv]
  have hrest : ((newIterator db s).seek .levelDB db I).rest =
    db.seekGE (constructDocumentStartKey I) := rest_seek _
  rcases hr : ((newIterator db s).seek .levelDB db I).rest with - | ⟨⟨k, v⟩, l⟩
  · exact hinvalid (by simp [Iterator.isValid, hr])
  · have hmem : (k, v) ∈ db.seekGE (constructDocumentStartKey I) := by
      have hhead : (k, v) ∈ ((newIterator db s).seek .levelDB db I).rest := by simp [hr]
      rwa [hrest] at hhead
    obtain ⟨hkdb, hle⟩ := SortedMap.mem_seekGE.mp hmem
    have hfirst : ∀ k', db.find? k' ≠ none → constructDocumentStartKey I ≤ k' → k ≤ k' := by
      intro k' hk' hle'
      obtain ⟨v', hv'⟩ := Option.ne_none_iff_exists'.mp hk'
      have hin := SortedMap.mem_seekGE.mpr ⟨SortedMap.find?_eq_some_iff.mp hv', hle'⟩
      have hle'' := h.beginKey_le (hrest ▸ hin)
      rwa [h.beginKey_eq hr] at hle''
    rcases hS.of_mem hkdb with ⟨J, hJ, hk⟩ | hk
    · rcases hk with hk | ⟨t, hk⟩
      · -- the start key of another document
        have hkJ : k = constructDocumentStartKey J := hk
        have hfollow : FollowedBy db I J := by
          refine ⟨?_, lt_of_le_of_ne (hkJ ▸ hle) fun heq => ?_, fun k' hk' hle' =>
            hkJ ▸ hfirst k' hk' hle'⟩
          · rw [← hkJ, SortedMap.find?_eq_some_iff.mpr hkdb]
            simp
          · rw [heq, ← hkJ, SortedMap.find?_eq_some_iff.mpr hkdb] at hnone
            cases hnone
        rw [getJsonValue_levelDB_of_followedBy hF hS hJ hfollow, hnext J hJ hfollow]
        rfl
      · -- a version without a start key
        have hkJ : k = constructDocumentLinkKey J t := hk
        have hJnone : db.find? (constructDocumentStartKey J) = none := by
          by_contra hJstart
          rcases le_or_gt (constructDocumentStartKey I) (constructDocumentStartKey J) with hIJ | hJI
          · exact absurd (hkJ ▸ hfirst _ hJstart hIJ) (not_le_of_gt (startKey_lt_linkKey J t))
          · have hprefix : constructDocumentStartKey J <+: constructDocumentStartKey I :=
              List.prefix_rfl.of_le_of_le (List.prefix_append _ [t]) hJI.le
                (hkJ ▸ hle : _ ≤ constructDocumentLinkKey J t)
            obtain rfl : I = J := hF.eq_of_startKey_prefix hJ hI (isKeyOf_startKey I) hprefix
            exact hJstart hnone
        have hp := h.keyPrefix_eq hr
        rw [hkJ, if_pos (isKeyOf_linkKey J t).take_two, constructDocumentLinkKey,
          List.dropLast_concat] at hp
        have hv : ((newIterator db s).seek .levelDB db I).isValid = true := by
          rw [Iterator.isValid, hr, hp]
          rfl
        rw [getJsonValue, seekValue_eq_some hv]
        exact jsonValue_value_of_linkKey hF hS h hv hJ (hkJ ▸ h.beginKey_eq hr) hp hJnone .levelDB
    · exact hinvalid (h.not_isValid_of_isMetaKey hr hk)

end Seek

end Qdocdb
