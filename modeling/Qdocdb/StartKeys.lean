import Qdocdb.RemoveSnapshot

/-!
# Start keys

What becomes of start keys where ids have no colons but may be prefixes of one another: a
lookup that is naked has seen every version of its id (`find?_linkKey_of_isNaked`), and
`removeSnapshot` deletes a start key only when the id ends removed
(`of_delete_startKey_mem_shiftVersions`).
-/

namespace Qdocdb

/-! ## Scanning the versions of an id -/

/-- A scan is not naked any more once it has met another version. -/
theorem scanList_isNaked_of_false {s : Byte} (vs : List (Byte × Blob)) {r : ValueScan}
    (h : r.isNaked = false) : (scanList s vs r).isNaked = false := by
  induction vs generalizing r with
  | nil => exact h
  | cons v vs ih =>
    rw [scanList]
    split
    · exact h
    · apply ih
      rw [ValueScan.visit]
      split
      · rfl
      · split
        · exact h
        · rfl

theorem scanList_append (s : Byte) (vs ws : List (Byte × Blob)) (r : ValueScan) :
    scanList s (vs ++ ws) r = scanList s ws (scanList s vs r) := by
  induction vs generalizing r with
  | nil => rfl
  | cons v vs ih =>
    rw [List.cons_append, scanList, scanList]
    split
    · rename_i h
      rw [scanList_of_find h]
    · exact ih _

/-- An older version in an ascending list of versions is met. -/
theorem scanList_isNaked_of_lt {s : Byte} {vs : List (Byte × Blob)}
    (hs : vs.Pairwise fun v w => v.1 < w.1) {r : ValueScan} (hr : r.find = false)
    {v : Byte × Blob} (hv : v ∈ vs) (hlt : v.1 < s) : (scanList s vs r).isNaked = false := by
  cases vs with
  | nil => cases hv
  | cons w vs =>
    obtain ⟨hw, -⟩ := List.pairwise_cons.mp hs
    have hws : w.1 < s := by
      rcases List.mem_cons.mp hv with rfl | hv
      · exact hlt
      · exact (hw v hv).trans hlt
    rw [scanList, hr, if_neg Bool.false_ne_true]
    exact scanList_isNaked_of_false vs (ValueScan.isNaked_visit_of_ne hws.ne r w.2)

section Scan

variable {F : Set QByteArray} (hF : ColonFree F) {db : Store} (hS : Shape F db)
  {I : QByteArray} (hI : I ∈ F)
include hF hS hI

/-- At a start key `value` first scans the versions of that id in ascending order; behind
them it may meet versions of longer ids. -/
theorem exists_versions_append {it : Iterator} (h : it.Positioned db) (hv : it.isValid = true)
    (hb : it.beginKey = constructDocumentStartKey I) (hp : it.keyPrefix = documentPrefix I)
    (B : Backend) :
    ∃ vs ws : List (Byte × Blob), vs.Pairwise (fun v w => v.1 < w.1) ∧
      (∀ t b, (t, b) ∈ vs ↔ db.find? (constructDocumentLinkKey I t) = some b) ∧
      (it.value B db).1 = scanList it.snapshotId (vs ++ ws) .init := by
  have hstop : StopAt db I it := .inl ⟨hb, hp⟩
  have hne := Iterator.ne_nil_of_isValid hv
  let q : QByteArray × Blob → Bool := fun e => constructDocumentStartKey I <+: e.1
  let l := it.rest.filter fun e => it.keyPrefix <+: e.1
  have hsorted : l.Pairwise fun a b => a.1 < b.1 := h.sorted.filter _
  have hmeml : ∀ {e}, e ∈ l → e ∈ it.rest := fun he => (List.mem_filter.mp he).1
  -- the keys of `I` come first
  have hfirst : l.takeWhile q = l.filter q := by
    apply List.takeWhile_eq_filter_of_pairwise
    exact List.pairwise_prefix_of_pairwise_lt hsorted fun _ he => hb ▸ h.beginKey_le (hmeml he)
  have hown : ∀ {e}, e ∈ l.filter q → IsKeyOf I e.1 := by
    intro e he
    obtain ⟨hel, hq⟩ := List.mem_filter.mp he
    have hprefix : constructDocumentStartKey I <+: e.1 := by simpa [q] using hq
    rcases hS.of_mem (h.suffix.subset (hmeml hel)) with ⟨J, hJ, hk⟩ | hk
    · obtain rfl : J = I := hF.eq_of_startKey_prefix hI hJ hk hprefix
      exact hk
    · exact absurd ((documentPrefix_prefix_startKey I).trans hprefix) hk.not_documentPrefix
  refine ⟨(l.filter q).filterMap (versionEntry it.keyPrefix),
    (l.dropWhile q).filterMap (versionEntry it.keyPrefix), ?_, fun t b => ?_, ?_⟩
  · rw [List.pairwise_filterMap]
    refine (hsorted.filter _).imp_of_mem fun {e e'} he he' hlt v hv' w hw => ?_
    obtain ⟨t, ht, rfl⟩ := exists_linkKey_of_versionEntry (hown he) hp hv'
    obtain ⟨t', ht', rfl⟩ := exists_linkKey_of_versionEntry (hown he') hp hw
    rw [ht, ht'] at hlt
    exact linkKey_lt_linkKey_iff.mp hlt
  · rw [List.mem_filterMap, SortedMap.find?_eq_some_iff]
    constructor
    · rintro ⟨e, he, hve⟩
      obtain ⟨t', ht', heq⟩ := exists_linkKey_of_versionEntry (hown he) hp hve
      obtain ⟨rfl, rfl⟩ := Prod.mk.inj heq
      rw [← ht']
      exact h.suffix.subset (hmeml (List.mem_filter.mp he).1)
    · intro hmem
      have hle : it.beginKey ≤ constructDocumentLinkKey I t := by
        rw [hb]
        exact (startKey_lt_linkKey I t).le
      refine ⟨_, List.mem_filter.mpr ⟨List.mem_filter.mpr ⟨h.mem_rest hne hmem hle, ?_⟩, ?_⟩, ?_⟩
      · rw [hp]
        simpa using documentPrefix_prefix_linkKey I t
      · simp [q, constructDocumentLinkKey]
      · rw [versionEntry, hp, if_pos (by simp), lastByte_linkKey]
  · rw [value_eq_scanList h hv hstop B, ← List.filterMap_append, ← hfirst,
      List.takeWhile_append_dropWhile]

/-- When the lookup of an id with a start key is naked, the id has no older version. -/
theorem find?_linkKey_of_isNaked {B : Backend} {s : Byte}
    (hstart : db.find? (constructDocumentStartKey I) ≠ none) {r : ValueScan}
    (hr : seekValue B db s I = some r) (hnaked : r.isNaked = true) {t : Byte} (ht : t < s) :
    db.find? (constructDocumentLinkKey I t) = none := by
  obtain ⟨hv, hb, hp⟩ := seek_of_startKey (B := B) hstart (newIterator db s)
  obtain ⟨vs, ws, hs, hmem, hval⟩ :=
    exists_versions_append hF hS hI (positioned_seek _) hv hb hp B
  rw [seekValue_eq_some hv, hval, snapshotId_seek, scanList_append] at hr
  obtain rfl := Option.some.inj hr
  change (scanList s ws (scanList s vs .init)).isNaked = true at hnaked
  rw [Option.eq_none_iff_forall_not_mem]
  intro b hb
  have hfalse := scanList_isNaked_of_lt hs (s := s) (r := .init) rfl ((hmem t b).mpr hb) ht
  rw [scanList_isNaked_of_false ws hfalse] at hnaked
  cases hnaked

end Scan

/-! ## The loop of `removeSnapshot` -/

namespace Collection

section ShiftVersions

variable {F : Set QByteArray} {i : Byte} {l : List (QByteArray × Blob)}
  {lastKey startKey : QByteArray} {removeStartKey : Bool}

/-- The remembered start key is in front of the entries to come, and each version among
them belongs to it or has its own start key among them. -/
structure StartsKnown (F : Set QByteArray) (l : List (QByteArray × Blob))
    (startKey : QByteArray) : Prop where
  isStart : IsStart F startKey
  lt : ∀ e ∈ l, startKey < e.1
  known : ∀ J ∈ F, ∀ t v, (constructDocumentLinkKey J t, v) ∈ l →
    startKey = constructDocumentStartKey J ∨ ∃ b, (constructDocumentStartKey J, b) ∈ l

section Loop

variable (hF : ColonFree F) {J : QByteArray} (hJ : J ∈ F) {t : Byte} {v : Blob}
include hF hJ

/-- A start key at the head is the one to remember. -/
theorem StartsKnown.tail_startKey
    (h : StartsKnown F ((constructDocumentStartKey J, v) :: l) startKey)
    (hs : ((constructDocumentStartKey J, v) :: l).Pairwise fun a b => a.1 < b.1) :
    StartsKnown F l (constructDocumentStartKey J) := by
  obtain ⟨hle, -⟩ := List.pairwise_cons.mp hs
  refine ⟨.inr ⟨J, hJ, rfl⟩, hle, fun K hK u w hmem => ?_⟩
  rcases h.known K hK u w (List.mem_cons_of_mem _ hmem) with heq | ⟨b, hb⟩
  · -- no other start key is between a start key and its versions
    have hlt := h.lt _ List.mem_cons_self
    rw [heq] at hlt
    exact (startKey_notBetween hF hK hJ (isKeyOf_startKey K) hlt (hle _ hmem)).elim
  · rcases List.mem_cons.mp hb with heq | hb
    · exact .inl (Prod.mk.inj heq).1.symm
    · exact .inr ⟨b, hb⟩

/-- A version at the head belongs to the remembered start key. -/
theorem StartsKnown.eq_of_linkKey
    (h : StartsKnown F ((constructDocumentLinkKey J t, v) :: l) startKey)
    (hs : ((constructDocumentLinkKey J t, v) :: l).Pairwise fun a b => a.1 < b.1) :
    startKey = constructDocumentStartKey J := by
  refine (h.known J hJ t v List.mem_cons_self).resolve_right ?_
  rintro ⟨b, hb⟩
  rcases List.mem_cons.mp hb with heq | hb
  · exact hF.startKey_ne_linkKey hJ t (Prod.mk.inj heq).1
  · exact lt_asymm (startKey_lt_linkKey J t) ((List.pairwise_cons.mp hs).1 _ hb)

omit hJ in
theorem StartsKnown.tail_linkKey
    (h : StartsKnown F ((constructDocumentLinkKey J t, v) :: l) startKey) :
    StartsKnown F l startKey := by
  refine ⟨h.isStart, fun e he => h.lt e (List.mem_cons_of_mem _ he), fun K hK u w hmem => ?_⟩
  refine (h.known K hK u w (List.mem_cons_of_mem _ hmem)).imp_right ?_
  rintro ⟨b, hb⟩
  refine ⟨b, (List.mem_cons.mp hb).resolve_left fun heq => ?_⟩
  exact hF.startKey_ne_linkKey hK t (Prod.mk.inj heq).1

end Loop

/-- Among the entries the id has a tombstone right behind the number `i`, and only tombstones
behind that. -/
structure EndsRemoved (i : Byte) (l : List (QByteArray × Blob)) (I : QByteArray) : Prop where
  next : ∃ t v, t.val = i.val + 1 ∧ (constructDocumentLinkKey I t, v) ∈ l ∧
    v.unmarshal.isUndefined = true
  newer : ∀ t v, i < t → (constructDocumentLinkKey I t, v) ∈ l → v.unmarshal.isUndefined = true

/-- No start key is a version, so one in front of the entries changes nothing behind a number. -/
theorem newer_cons_startKey (hF : ColonFree F) {I J : QByteArray} (hJ : J ∈ F) {w : Blob}
    (h : ∀ t v, i < t → (constructDocumentLinkKey I t, v) ∈ l → v.unmarshal.isUndefined = true)
    (t : Byte) (v : Blob) (hit : i < t)
    (hmem : (constructDocumentLinkKey I t, v) ∈ (constructDocumentStartKey J, w) :: l) :
    v.unmarshal.isUndefined = true := by
  refine h t v hit ((List.mem_cons.mp hmem).resolve_left fun heq => ?_)
  exact hF.startKey_ne_linkKey hJ _ (Prod.mk.inj heq).1.symm

/-- A version in front of the entries has to be a tombstone when it is a newer one of `I`. -/
theorem newer_cons_linkKey {I J : QByteArray} {s : Byte} {w : Blob}
    (h : ∀ t v, i < t → (constructDocumentLinkKey I t, v) ∈ l → v.unmarshal.isUndefined = true)
    (hhead : J = I → i < s → w.unmarshal.isUndefined = true) (t : Byte) (v : Blob) (hit : i < t)
    (hmem : (constructDocumentLinkKey I t, v) ∈ (constructDocumentLinkKey J s, w) :: l) :
    v.unmarshal.isUndefined = true := by
  rcases List.mem_cons.mp hmem with hentry | hmem
  · obtain ⟨hkey, rfl⟩ := Prod.mk.inj hentry
    obtain ⟨rfl, rfl⟩ := constructDocumentLinkKey_inj.mp hkey
    exact hhead rfl hit
  · exact h t v hit hmem

theorem EndsRemoved.cons {I : QByteArray} {e : QByteArray × Blob} (h : EndsRemoved i l I)
    (hnewer : ∀ t v, i < t → (constructDocumentLinkKey I t, v) ∈ e :: l →
      v.unmarshal.isUndefined = true) : EndsRemoved i (e :: l) I := by
  obtain ⟨⟨t, v, ht, hmem, hv⟩, -⟩ := h
  exact ⟨⟨t, v, ht, List.mem_cons_of_mem _ hmem, hv⟩, hnewer⟩

/-- **Start keys**: one is deleted only when the id ends removed. By induction on the
entries; `removeStartKey` is true when the tombstone was seen already. -/
theorem of_delete_startKey_mem_shiftVersions (hF : ColonFree F)
    (hl : ∀ e ∈ l, ∃ J ∈ F, IsKeyOf J e.1) (hs : l.Pairwise fun a b => a.1 < b.1)
    (hstart : StartsKnown F l startKey)
    (hlast : lastKey = [] ∨ ∃ J t, lastKey = constructDocumentLinkKey J t) {I : QByteArray}
    (hI : I ∈ F)
    (h : .delete (constructDocumentStartKey I) ∈
      shiftVersions i l lastKey startKey removeStartKey) :
    (startKey = constructDocumentStartKey I ∧ removeStartKey = true ∧
        ∀ t v, i < t → (constructDocumentLinkKey I t, v) ∈ l → v.unmarshal.isUndefined = true) ∨
      EndsRemoved i l I := by
  have hnotLast : .delete (constructDocumentStartKey I) ∉ deleteKey lastKey := by
    intro hmem
    obtain ⟨heq, hne⟩ := mem_deleteKey.mp hmem
    obtain ⟨J, t, rfl⟩ := hlast.resolve_left hne
    exact hF.startKey_ne_linkKey hI t (WriteOp.delete.inj heq)
  induction l generalizing lastKey startKey removeStartKey with
  | nil =>
    rw [shiftVersions, List.mem_append, or_iff_right hnotLast, mem_ite_deleteKey] at h
    obtain ⟨hb, heq, -⟩ := h
    exact .inl ⟨(WriteOp.delete.inj heq).symm, hb, by simp⟩
  | cons e l ih =>
    obtain ⟨⟨J, hJ, hk⟩, hl'⟩ := List.forall_mem_cons.mp hl
    obtain ⟨hes, hs'⟩ := List.pairwise_cons.mp hs
    obtain ⟨k, w⟩ := e
    rcases hk with rfl | ⟨s, rfl⟩
    · rw [shiftVersions_startKey hF hJ, List.mem_append, List.mem_append,
        or_iff_right hnotLast, mem_ite_deleteKey] at h
      rcases h with ⟨hb, heq, -⟩ | h
      · -- the versions of `I` are behind its start key and in front of the next one
        have heq := (WriteOp.delete.inj heq).symm
        refine .inl ⟨heq, hb, newer_cons_startKey hF hJ fun t v _ hmem => ?_⟩
        have hlt := hstart.lt _ List.mem_cons_self
        rw [heq] at hlt
        exact (startKey_notBetween hF hI hJ (isKeyOf_startKey I) hlt (hes _ hmem)).elim
      · have hnil : .delete (constructDocumentStartKey I) ∉ deleteKey [] := by simp [deleteKey]
        rcases ih hl' hs' (hstart.tail_startKey hF hJ hs) (.inl rfl) h hnil with
          ⟨-, hb, -⟩ | hends
        · cases hb
        · exact .inr (hends.cons (newer_cons_startKey hF hJ hends.newer))
    · have heq := hstart.eq_of_linkKey hF hJ hs
      have hstart' := hstart.tail_linkKey hF
      have hnew : .delete (constructDocumentStartKey I) ∉
          (deleteKey (constructDocumentLinkKey J s) : List (WriteOp QByteArray Blob)) := by
        intro hmem
        exact hF.startKey_ne_linkKey hI s (WriteOp.delete.inj (mem_deleteKey.mp hmem).1)
      rw [shiftVersions_linkKey] at h
      by_cases his : i < s
      · rw [if_pos his] at h
        cases hw : w.unmarshal.isUndefined with
        | false =>
          rw [if_pos hw, List.mem_cons, or_iff_right (by simp)] at h
          rcases ih hl' hs' hstart' (.inr ⟨J, s, rfl⟩) h hnew with
            ⟨-, hb, -⟩ | hends
          · cases hb
          · refine .inr (hends.cons (newer_cons_linkKey hends.newer ?_))
            -- the tombstone would be behind the document, but its number is the first
            obtain ⟨t, v, ht, hmem, hv⟩ := hends.next
            rintro rfl -
            have hst : s.val < t.val := linkKey_lt_linkKey_iff.mp (hes _ hmem)
            have hpos : i.val < s.val := his
            omega
        | true =>
          rw [if_neg (by simp [hw]), List.mem_cons] at h
          have h := h.resolve_left fun heq =>
            hF.startKey_ne_linkKey hI _ (WriteOp.delete.inj heq)
          rcases ih hl' hs' hstart' (.inr ⟨J, s, rfl⟩) h hnew with
            ⟨hkey, hb, hnewer⟩ | hends
          · obtain rfl : J = I := constructDocumentStartKey_injective (heq.symm.trans hkey)
            have hall := newer_cons_linkKey hnewer fun (_ : J = J) (_ : i < s) => hw
            rcases Bool.or_eq_true _ _ ▸ hb with hb | hb
            · exact .inl ⟨hkey, hb, hall⟩
            · exact .inr ⟨⟨s, w, of_decide_eq_true hb, List.mem_cons_self, hw⟩, hall⟩
          · exact .inr (hends.cons (newer_cons_linkKey hends.newer fun _ _ => hw))
      · rw [if_neg his] at h
        rcases ih hl' hs' hstart' hlast h hnotLast with
          ⟨hkey, hb, hnewer⟩ | hends
        · exact .inl ⟨hkey, hb, newer_cons_linkKey hnewer fun _ h => absurd h his⟩
        · exact .inr (hends.cons (newer_cons_linkKey hends.newer fun _ h => absurd h his))

/-- **The last version** that moved is deleted under its old number. -/
theorem delete_last_mem_shiftVersions (hF : ColonFree F)
    (hl : ∀ e ∈ l, ∃ J ∈ F, IsKeyOf J e.1) (hs : l.Pairwise fun a b => a.1 < b.1)
    (hstart : StartsKnown F l startKey) {I : QByteArray} {t : Byte} (hit : i < t)
    {v : Blob} (hv : (constructDocumentLinkKey I t, v) ∈ l)
    (hnone : ∀ t' v', t < t' → (constructDocumentLinkKey I t', v') ∉ l) :
    .delete (constructDocumentLinkKey I t) ∈
      shiftVersions i l lastKey startKey removeStartKey := by
  induction l generalizing lastKey startKey removeStartKey with
  | nil => cases hv
  | cons e l ih =>
    obtain ⟨⟨J, hJ, hk⟩, hl'⟩ := List.forall_mem_cons.mp hl
    obtain ⟨hes, hs'⟩ := List.pairwise_cons.mp hs
    have hnone' : ∀ t' v', t < t' → (constructDocumentLinkKey I t', v') ∉ l :=
      fun t' v' ht hmem => hnone t' v' ht (List.mem_cons_of_mem _ hmem)
    obtain ⟨k, w⟩ := e
    rcases hk with rfl | ⟨s, rfl⟩
    · rw [shiftVersions_startKey hF hJ]
      refine List.mem_append_right _ (ih hl' hs' (hstart.tail_startKey hF hJ hs) ?_ hnone')
      exact (List.mem_cons.mp hv).resolve_left fun heq =>
        hF.startKey_ne_linkKey hJ t (Prod.mk.inj heq).1.symm
    · have hstart' := hstart.tail_linkKey hF
      rw [shiftVersions_linkKey]
      rcases List.mem_cons.mp hv with heq | hv
      · obtain ⟨hkey, rfl⟩ := Prod.mk.inj heq
        obtain ⟨rfl, rfl⟩ := constructDocumentLinkKey_inj.mp hkey
        -- it is deleted as soon as the next start key comes
        have hnext : ∀ b, .delete (constructDocumentLinkKey I t) ∈
            shiftVersions i l (constructDocumentLinkKey I t) startKey b := by
          intro b
          have hdel : .delete (constructDocumentLinkKey I t) ∈
              (deleteKey (constructDocumentLinkKey I t) : List (WriteOp QByteArray Blob)) :=
            mem_deleteKey.mpr ⟨rfl, fun h => by simpa using congrArg List.length h⟩
          cases l with
          | nil => exact List.mem_append_left _ hdel
          | cons e l =>
            obtain ⟨⟨K, hK, hk⟩, -⟩ := List.forall_mem_cons.mp hl'
            obtain ⟨k, w⟩ := e
            rcases hk with rfl | ⟨u, rfl⟩
            · rw [shiftVersions_startKey hF hK]
              exact List.mem_append_left _ (List.mem_append_left _ hdel)
            · have heq := (hstart.eq_of_linkKey hF hJ hs).symm.trans
                (hstart'.eq_of_linkKey hF hK hs')
              obtain rfl := constructDocumentStartKey_injective heq
              have htu := linkKey_lt_linkKey_iff.mp (hes _ List.mem_cons_self)
              exact absurd List.mem_cons_self (hnone' u w htu)
        rw [if_pos hit]
        split
        · exact List.mem_cons_of_mem _ (hnext _)
        · exact List.mem_cons_of_mem _ (hnext _)
      · split
        · split
          · exact List.mem_cons_of_mem _ (ih hl' hs' hstart' hv hnone')
          · exact List.mem_cons_of_mem _ (ih hl' hs' hstart' hv hnone')
        · exact ih hl' hs' hstart' hv hnone'

end ShiftVersions

end Collection

end Qdocdb
