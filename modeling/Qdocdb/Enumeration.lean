import Qdocdb.FlatStore
import Qdocdb.Undo

/-!
# Enumerating documents

The iterator takes the key it stands on, without its last byte, for the prefix of all keys of
a document. The keys of an id that goes on behind another one with a byte from the colon on
carry that prefix too, and the loop passes them together with the keys of the shorter id. Where
no stored id hides another one in this way the loop visits every document once and reads its
newest version (`enumeratesExactly_iff`).
-/

namespace Qdocdb

/-! ## Runs -/

/-- The states of a run of insertions of new ids, and of snapshots, with the ids inserted. -/
inductive InsertRun (E : Env) : List QByteArray → Collection → Prop
  | opened : InsertRun E [] (Collection.open E .empty)
  | inserted {ids : List QByteArray} {σ : Collection} {doc d : QJsonObject}
    {gen : Transaction.IdGen} {overwrite ignoreReadOnlyValue : Bool} {id : QByteArray} :
    InsertRun E ids σ → Transaction.documentId doc gen = some (id, d) → id ∉ ids →
    (σ.transact E (.insert doc gen overwrite ignoreReadOnlyValue)).1 = .success →
    InsertRun E (ids ++ [id]) (σ.transact E (.insert doc gen overwrite ignoreReadOnlyValue)).2
  | newSnapshot {ids : List QByteArray} {σ : Collection} (snapshotName : QString) :
    InsertRun E ids σ → InsertRun E ids (σ.newSnapshot E snapshotName).2

/-- The loop visits each of the ids once, and reads the newest version that its number may
see. -/
def EnumeratesExactly (B : Backend) (db : Store) (s : Byte) (ids : List QByteArray) : Prop :=
  ((stops B db s).map Iterator.key).Perm ids ∧
    ∀ it ∈ stops B db s, (it.value B db).1.jsonValue = jsonOfDocument (visible db s it.key)

/-- The ids have their start keys, and the store has no other keys of documents. -/
structure HoldsIds (ids : List QByteArray) (db : Store) : Prop where
  nodup : ids.Nodup
  shape : Shape {id | id ∈ ids} db
  startKey : ∀ id ∈ ids, db.find? (constructDocumentStartKey id) ≠ none

section Runs

variable {E : Env} {σ : Collection} {ids : List QByteArray}

theorem holdsIds_open : HoldsIds [] (Collection.open E .empty).db :=
  ⟨List.nodup_nil, goodStore_open.shape, by simp⟩

theorem HoldsIds.inserted (h : HoldsIds ids σ.db) {doc d : QJsonObject}
    {gen : Transaction.IdGen} {overwrite ignoreReadOnlyValue : Bool} {id : QByteArray}
    (hid : Transaction.documentId doc gen = some (id, d)) (hnew : id ∉ ids)
    (hsuccess : (σ.transact E (.insert doc gen overwrite ignoreReadOnlyValue)).1 = .success) :
    HoldsIds (ids ++ [id])
      (σ.transact E (.insert doc gen overwrite ignoreReadOnlyValue)).2.db := by
  obtain ⟨o, isOld, hacc⟩ := Collection.accepted_of_transact_success hsuccess hid
  have hins := @Collection.inserted_of_accepted E σ _ _ _ _ _ _ _ hacc
  have hkey : ∀ k, ¬ IsKeyOf id k → ¬ IsMetaKey k →
      (σ.transact E (.insert doc gen overwrite ignoreReadOnlyValue)).2.db.find? k =
        σ.db.find? k := fun k hk hmeta =>
    hins.other k (fun h => hk (h ▸ isKeyOf_startKey id)) (fun h => hk (h ▸ isKeyOf_linkKey id _))
      hmeta
  refine ⟨List.concat_eq_append ▸ h.nodup.concat hnew, fun k hk => ?_, fun id' hid' => ?_⟩
  · by_cases hmeta : IsMetaKey k
    · exact .inr hmeta
    · by_cases hkid : IsKeyOf id k
      · exact .inl ⟨id, List.mem_concat_self, hkid⟩
      · rw [hkey k hkid hmeta] at hk
        exact (h.shape k hk).imp_left fun ⟨I, hI, hkI⟩ => ⟨I, List.mem_append_left _ hI, hkI⟩
  · by_cases hkid : IsKeyOf id (constructDocumentStartKey id')
    · -- the key is one of those that the insertion puts
      rcases eq_or_ne (constructDocumentStartKey id') (constructDocumentStartKey id) with heq | hne
      · simp [heq, hins.startKey]
      · rcases eq_or_ne (constructDocumentStartKey id')
          (constructDocumentLinkKey id σ.snapshotId) with heq | hne'
        · simp [heq, hins.linkKey]
        · have hmeta : ¬ IsMetaKey (constructDocumentStartKey id') :=
            fun hmeta => hmeta.not_isKeyOf (isKeyOf_startKey id')
          rw [hins.other _ hne hne' hmeta]
          rcases List.mem_append.mp hid' with hid' | hid'
          · exact h.startKey id' hid'
          · exact absurd (congrArg constructDocumentStartKey (List.mem_singleton.mp hid')) hne
    · rw [hkey _ hkid fun hmeta => hmeta.not_isKeyOf (isKeyOf_startKey id')]
      rcases List.mem_append.mp hid' with hid' | hid'
      · exact h.startKey id' hid'
      · exact absurd (List.mem_singleton.mp hid' ▸ isKeyOf_startKey id') hkid

theorem HoldsIds.newSnapshot (h : HoldsIds ids σ.db) (snapshotName : QString) :
    HoldsIds ids (σ.newSnapshot E snapshotName).2.db := by
  have hkey : ∀ k, ¬ IsMetaKey k → (σ.newSnapshot E snapshotName).2.db.find? k =
      σ.db.find? k := by
    intro k hk
    rcases Collection.newSnapshot_spec (E := E) (σ := σ) snapshotName with
      ⟨-, hdb, -⟩ | ⟨l, -, -, -, hdb, -⟩
    · rw [hdb]
    · rw [hdb]
      refine SortedMap.find?_applyLog_of_forall_ne _ fun w hw heq => hk (heq ▸ ?_)
      rcases List.mem_append.mp hw with hw | hw
      · rw [List.mem_singleton.mp hw]
        exact isMetaKey_snapshotsKey
      · obtain ⟨index, -, d, b, rfl, -⟩ := Collection.exists_of_mem_copyIndexValues hw
        exact isMetaKey_constructIndexValueKey _ _ _
  refine ⟨h.nodup, fun k hk => ?_, fun id hid => ?_⟩
  · by_cases hmeta : IsMetaKey k
    · exact .inr hmeta
    · exact h.shape k (hkey k hmeta ▸ hk)
  · rw [hkey _ fun hmeta => hmeta.not_isKeyOf (isKeyOf_startKey id)]
    exact h.startKey id hid

/-- **Run**: the inserted ids have their start keys. -/
theorem InsertRun.holdsIds (h : InsertRun E ids σ) : HoldsIds ids σ.db := by
  induction h with
  | opened => exact holdsIds_open
  | inserted _ hid hnew hsuccess ih => exact ih.inserted hid hnew hsuccess
  | newSnapshot snapshotName _ ih => exact ih.newSnapshot snapshotName

end Runs

/-! ## The stops of any store -/

section Stops

variable {B : Backend} {db : Store} {s : Byte}

/-- On a key that it takes for one of a document, the iterator's prefix is all of it but the
last byte. -/
theorem Iterator.Positioned.exists_of_isValid {it : Iterator} (h : it.Positioned db)
    (hv : it.isValid = true) : ∃ v l, it.rest = (it.beginKey, v) :: l ∧
      it.beginKey.take 2 = bytes "d:" ∧ it.keyPrefix = it.beginKey.dropLast := by
  rcases hr : it.rest with - | ⟨⟨k, v⟩, l⟩
  · exact absurd hr (ne_nil_of_isValid hv)
  · have hkey := h.beginKey_eq hr
    have hchop := h.keyPrefix_eq hr
    by_cases hd : k.take 2 = bytes "d:"
    · rw [if_pos hd] at hchop
      exact ⟨v, l, by rw [hkey], hkey ▸ hd, hkey ▸ hchop⟩
    · rw [if_neg hd] at hchop
      simp [isValid, hchop] at hv

/-- Behind `next` no key carries the prefix. -/
theorem Iterator.Positioned.not_prefix_of_mem_next {it : Iterator} (h : it.Positioned db)
    (hv : it.isValid = true) {e : QByteArray × Blob} (he : e ∈ it.next.rest) :
    e ∈ it.rest ∧ ¬ it.keyPrefix <+: e.1 := by
  obtain ⟨v, l, hr, -, hchop⟩ := h.exists_of_isValid hv
  have hle : it.keyPrefix ≤ it.beginKey := by
    rw [hchop]
    exact (List.dropLast_prefix _).le_of_lex
  have hpairwise : it.rest.Pairwise fun a b =>
      decide (it.keyPrefix <+: b.1) = true → decide (it.keyPrefix <+: a.1) = true :=
    List.pairwise_prefix_of_pairwise_lt h.sorted fun _ he => hle.trans (h.beginKey_le he)
  rw [Iterator.next, rest_setupPrefix, List.dropWhile_eq_filter_of_pairwise hpairwise,
    List.mem_filter] at he
  exact ⟨he.1, by simpa using he.2⟩

/-- **The stops of a loop**, whatever the store: each later one is at a greater key without the
prefix. -/
theorem stopsFrom_spec (fuel : ℕ) {it : Iterator} (h : it.Positioned db) :
    (∀ it' ∈ stopsFrom B db fuel it, it'.Positioned db ∧ it'.isValid = true ∧
        ∃ v, (it'.beginKey, v) ∈ it.rest) ∧
      (stopsFrom B db fuel it).Pairwise fun a b =>
        a.beginKey < b.beginKey ∧ ¬ a.keyPrefix <+: b.beginKey := by
  induction fuel generalizing it with
  | zero => exact ⟨by simp [stopsFrom], .nil⟩
  | succ fuel ih =>
    cases hv : it.isValid with
    | false =>
      rw [stopsFrom_of_not_isValid hv]
      exact ⟨by simp, .nil⟩
    | true =>
      obtain ⟨hsound, hpairwise⟩ := ih (Iterator.positioned_next h)
      obtain ⟨v, l, hr, -, hchop⟩ := h.exists_of_isValid hv
      have hself : it.keyPrefix <+: it.beginKey := hchop ▸ List.dropLast_prefix _
      rw [stopsFrom_succ h hv]
      refine ⟨List.forall_mem_cons.mpr ⟨⟨h, hv, v, hr ▸ List.mem_cons_self⟩, fun it' hit' => ?_⟩,
        List.pairwise_cons.mpr ⟨fun it' hit' => ?_, hpairwise⟩⟩
      · obtain ⟨hp, hv', w, hw⟩ := hsound it' hit'
        exact ⟨hp, hv', w, (h.not_prefix_of_mem_next hv hw).1⟩
      · obtain ⟨-, -, w, hw⟩ := hsound it' hit'
        obtain ⟨hmem, hnot⟩ := h.not_prefix_of_mem_next hv hw
        refine ⟨lt_of_le_of_ne (h.beginKey_le hmem) fun heq => hnot ?_, hnot⟩
        exact heq ▸ hself

theorem stops_passing : (∀ it ∈ stops B db s, it.Positioned db ∧ it.isValid = true) ∧
    (stops B db s).Pairwise fun a b =>
      a.beginKey < b.beginKey ∧ ¬ a.keyPrefix <+: b.beginKey := by
  obtain ⟨hsound, hpairwise⟩ := @stopsFrom_spec B db (db.entries.length + 1)
    ((newIterator db s).seekToFirst db) (Iterator.positioned_seekToFirst db _)
  exact ⟨fun it hit => ⟨(hsound it hit).1, (hsound it hit).2.1⟩, hpairwise⟩

end Stops

/-! ## When the loop is exact -/

section Exact

variable {B : Backend} {db : Store} {s : Byte} {ids : List QByteArray}

/-- Ids that do not hide one another are separated. -/
theorem separated_of_not_hides (h : ∀ I ∈ ids, ∀ J ∈ ids, ¬ Hides I J) :
    Separated {id | id ∈ ids} := by
  intro I hI c r hJ
  by_contra hc
  exact h I hI _ hJ ⟨c, r, rfl, not_lt.mp hc⟩

theorem enumeratesExactly_of_not_hides (hids : HoldsIds ids db)
    (h : ∀ I ∈ ids, ∀ J ∈ ids, ¬ Hides I J) : EnumeratesExactly B db s ids := by
  have hsep := separated_of_not_hides h
  have hstops := stops_spec hsep hids.shape B s
  have hat : ∀ it ∈ stops B db s, ∃ I ∈ ids, it.key = I ∧
      it.beginKey = constructDocumentStartKey I ∧ it.keyPrefix = documentPrefix I := by
    intro it hit
    obtain ⟨-, -, -, -, I, hI, hstop⟩ := hstops.sound it hit
    refine ⟨I, hI, hstop.key_eq (hids.startKey I hI), ?_⟩
    rcases hstop with hstart | ⟨-, -, hnone⟩
    · exact hstart
    · exact absurd hnone (hids.startKey I hI)
  constructor
  · rw [List.perm_ext_iff_of_nodup ?nodup hids.nodup]
    case nodup =>
      -- stops at one id would be at one key
      refine List.pairwise_map.mpr (hstops.increasing.imp_of_mem fun {a b} ha hb hlt heq => ?_)
      obtain ⟨I, -, hkey, hbegin, -⟩ := hat a ha
      obtain ⟨J, -, hkey', hbegin', -⟩ := hat b hb
      rw [hkey, hkey'] at heq
      rw [hbegin, hbegin', heq] at hlt
      exact lt_irrefl _ hlt
    intro I
    rw [List.mem_map]
    constructor
    · rintro ⟨it, hit, rfl⟩
      obtain ⟨I, hI, hkey, -⟩ := hat it hit
      exact hkey ▸ hI
    · intro hI
      obtain ⟨v, hv⟩ := Option.ne_none_iff_exists'.mp (hids.startKey I hI)
      obtain ⟨it, hit, hbegin⟩ :=
        hstops.complete I hI v (SortedMap.find?_eq_some_iff.mp hv)
      obtain ⟨J, -, hkey, hbegin', -⟩ := hat it hit
      have hJI : J = I := startKey_eq_iff.mp (hbegin'.symm.trans hbegin)
      exact ⟨it, hit, hkey.trans hJI⟩
  · intro it hit
    obtain ⟨hp, hv, hs, -, -⟩ := hstops.sound it hit
    obtain ⟨I, hI, hkey, hbegin, hchop⟩ := hat it hit
    rw [hkey, ← hs]
    exact jsonValue_value hsep hids.shape hp hv hI hbegin hchop B

/-- A stop is at a start key, or at a version that is taken for the start key of an id with a
colon at its end. -/
theorem stop_cases (hids : HoldsIds ids db) {it : Iterator} (hp : it.Positioned db)
    (hv : it.isValid = true) :
    ∃ X ∈ ids, (it.beginKey = constructDocumentStartKey X ∧ it.key = X ∨
        (∃ t, it.beginKey = constructDocumentLinkKey X t) ∧ it.key = X ++ [colon]) ∧
      it.keyPrefix = documentPrefix it.key := by
  obtain ⟨v, l, hr, htake, hchop⟩ := hp.exists_of_isValid hv
  have hmem : (it.beginKey, v) ∈ db.entries := hp.suffix.subset (hr ▸ List.mem_cons_self)
  have hstored := SortedMap.find?_eq_some_iff.mpr hmem
  have hkeyOf : ∃ X ∈ ids, IsKeyOf X it.beginKey := by
    rcases hids.shape it.beginKey (by simp [hstored]) with hX | hmeta
    · exact hX
    · exact absurd htake hmeta.take_two_ne
  obtain ⟨X, hX, hkey⟩ := hkeyOf
  rcases hkey with hkey | ⟨t, hkey⟩
  · have hX' : it.keyPrefix = documentPrefix X := by
      rw [hchop, hkey, constructDocumentStartKey, List.dropLast_concat]
    have hid : it.key = X := by
      rw [Iterator.key, hX']
      rfl
    exact ⟨X, hX, .inl ⟨hkey, hid⟩, hid ▸ hX'⟩
  · have hX' : it.keyPrefix = documentPrefix (X ++ [colon]) := by
      rw [hchop, hkey, constructDocumentLinkKey, List.dropLast_concat]
      simp [constructDocumentStartKey, documentPrefix]
    have hid : it.key = X ++ [colon] := by
      rw [Iterator.key, hX']
      rfl
    exact ⟨X, hX, .inr ⟨⟨t, hkey⟩, hid⟩, hid ▸ hX'⟩

/-- The keys of a hidden id come behind the start key of the other one. -/
theorem Hides.not_lt_startKey {I J : QByteArray} (h : Hides I J) {t : QByteArray} :
    ¬ documentPrefix J ++ t < constructDocumentStartKey I := by
  obtain ⟨c, r, rfl, hc⟩ := h
  have hJ : documentPrefix (I ++ c :: r) ++ t = documentPrefix I ++ c :: (r ++ t) := by
    simp [documentPrefix]
  rw [hJ, constructDocumentStartKey, List.append_lt_append_iff]
  intro hlt
  rcases (List.head_le_of_lt hlt).lt_or_eq with hlt' | rfl
  · exact absurd hc (not_le_of_gt hlt')
  · exact absurd (List.cons_lt_cons_self.mp hlt) (List.not_lt_nil _)

/-- A hidden id is not visited next to the shortest one that hides it. -/
theorem not_hides_of_perm (hids : HoldsIds ids db)
    (h : ((stops B db s).map Iterator.key).Perm ids) : ∀ I ∈ ids, ∀ J ∈ ids, ¬ Hides I J := by
  obtain ⟨hsound, hpairwise⟩ := @stops_passing B db s
  have hstop : ∀ id ∈ ids, ∃ it ∈ stops B db s, it.key = id := fun id hid =>
    List.mem_map.mp (h.mem_iff.mpr hid)
  intro I
  -- by induction on the length of the id that hides another one
  induction hn : I.length using Nat.strong_induction_on generalizing I with
  | _ n ih =>
    intro hI J hJ hhides
    obtain ⟨a, ha, hkey⟩ := hstop I hI
    obtain ⟨b, hb, hkey'⟩ := hstop J hJ
    obtain ⟨X, hX, hat, hchop⟩ := stop_cases hids (hsound a ha).1 (hsound a ha).2
    obtain ⟨Y, -, hat', -⟩ := stop_cases hids (hsound b hb).1 (hsound b hb).2
    rw [hkey] at hat hchop
    rw [hkey'] at hat'
    have hbegin : a.beginKey = constructDocumentStartKey I := by
      rcases hat with ⟨hbegin, rfl⟩ | ⟨-, hIX⟩
      · exact hbegin
      · -- `I` would be hidden itself
        have hlen : X.length < n := by
          rw [← hn, hIX]
          simp
        exact absurd ⟨colon, [], hIX, le_refl _⟩ (ih _ hlen X rfl hX I hI)
    have hbegin' : ∃ t, b.beginKey = documentPrefix J ++ t := by
      rcases hat' with ⟨hbegin', rfl⟩ | ⟨⟨t, hbegin'⟩, rfl⟩
      · exact ⟨[colon], hbegin'⟩
      · refine ⟨[t], hbegin'.trans ?_⟩
        simp [constructDocumentLinkKey, constructDocumentStartKey, documentPrefix]
    obtain ⟨t, hbegin'⟩ := hbegin'
    obtain ⟨i, hi, rfl⟩ := List.getElem_of_mem ha
    obtain ⟨j, hj, rfl⟩ := List.getElem_of_mem hb
    have hrel := List.pairwise_iff_getElem.mp hpairwise
    rcases lt_trichotomy i j with hij | rfl | hij
    · refine (hrel i j hi hj hij).2 ?_
      obtain ⟨c, r, rfl, -⟩ := hhides
      rw [hchop, hbegin']
      exact ⟨c :: r ++ t, by simp [documentPrefix]⟩
    · obtain ⟨c, r, hJI, -⟩ := hhides
      have hlen := congrArg List.length (hkey.symm.trans hkey' |>.trans hJI)
      simp at hlen
    · have hlt := (hrel j i hj hi hij).1
      rw [hbegin, hbegin'] at hlt
      exact hhides.not_lt_startKey hlt

end Exact

/-- **Enumeration** after insertions of new ids, and snapshots, is exact at every number when no
inserted id hides another one. -/
theorem enumeratesExactly_iff {E : Env} {ids : List QByteArray} {σ : Collection}
    (h : InsertRun E ids σ) (s : Byte) :
    EnumeratesExactly E.backend σ.db s ids ↔ ∀ I ∈ ids, ∀ J ∈ ids, ¬ Hides I J :=
  ⟨fun hexact => not_hides_of_perm h.holdsIds hexact.1,
    enumeratesExactly_of_not_hides h.holdsIds⟩

/-- The state after inserting documents without fields of their own. -/
def insertedIds (ids : List String) : Collection :=
  ids.foldl (fun σ id => (σ.transact (Env.plain .map)
    (.insert [(qs "_id", .string (qs id))] ⟨[], []⟩ false false)).2)
    (Collection.open (Env.plain .map) .empty)

/-- The ids `a` and `b` do not hide each other. -/
theorem enumeratesExactly_ab :
    EnumeratesExactly .map (insertedIds ["a", "b"]).db 0 [bytes "a", bytes "b"] := by
  have hrun : InsertRun (Env.plain .map) [bytes "a", bytes "b"] (insertedIds ["a", "b"]) :=
    (InsertRun.opened.inserted rfl (by decide) (by decide)).inserted rfl (by decide) (by decide)
  exact (enumeratesExactly_iff hrun 0).mpr (by decide)

/-- With `a` stored, `ab` is not visited. -/
theorem not_enumeratesExactly :
    ¬ ∀ (E : Env) (ids : List QByteArray) (σ : Collection) (s : Byte), InsertRun E ids σ →
      EnumeratesExactly E.backend σ.db s ids := by
  intro h
  have hrun : InsertRun (Env.plain .map) [bytes "a", bytes "ab"] (insertedIds ["a", "ab"]) :=
    (InsertRun.opened.inserted rfl (by decide) (by decide)).inserted rfl (by decide) (by decide)
  have hlength := (h _ _ _ 0 hrun).1.length_eq
  exact absurd hlength (by decide)

end Qdocdb
