import Qdocdb.IndexWrites

/-!
# Ambiguous keys

Ids and index names are free text between colons, in front of a raw byte for the snapshot
number. This module says which of them the keys keep apart:

* the start key of an id is told from all version keys, by value and by the test of the
  snapshot operations, exactly when the id is not empty and does not end with a colon
  (`keysUnambiguous_iff`); version keys alone never collide;
* a scan for one index and one number meets an entry of another one exactly in four
  situations (`Confused`, `scanStays_iff`), none of which arises between names without
  colons that the encoding tells apart (`scanStays_of_colon_notMem`).
-/

namespace Qdocdb

/-! ## Documents -/

/-- The keys of the ids `i` and `j` are told apart, and so are the two kinds of keys. -/
structure KeysUnambiguous (i j : QByteArray) (s t : Byte) : Prop where
  linkKey_inj : constructDocumentLinkKey i s = constructDocumentLinkKey j t → i = j ∧ s = t
  startKey_ne : constructDocumentStartKey i ≠ constructDocumentLinkKey j t
  isVersionKey_linkKey : isVersionKey (constructDocumentLinkKey i s) = true
  isVersionKey_startKey : isVersionKey (constructDocumentStartKey i) = false

/-- The byte that the test reads is the last one of the id, or the colon of `d:`. -/
theorem isVersionKey_startKey_iff (id : QByteArray) :
    isVersionKey (constructDocumentStartKey id) = true ↔ id = [] ∨ id.getLast? = some colon := by
  rcases List.eq_nil_or_concat' id with rfl | ⟨l, c, rfl⟩
  · simp [isVersionKey, constructDocumentStartKey, documentPrefix]
  · simp [isVersionKey, constructDocumentStartKey, documentPrefix]

/-- A start key is a version key when its id is another id that goes on with a colon. -/
theorem startKey_eq_linkKey_iff {i j : QByteArray} {t : Byte} :
    constructDocumentStartKey i = constructDocumentLinkKey j t ↔ i = j ++ [colon] ∧ t = colon := by
  constructor
  · intro h
    obtain ⟨hinit, hlast⟩ := List.append_inj' h rfl
    refine ⟨?_, (List.singleton_inj.mp hlast).symm⟩
    simpa [constructDocumentStartKey, documentPrefix] using hinit
  · rintro ⟨rfl, rfl⟩
    simp [constructDocumentStartKey, constructDocumentLinkKey, documentPrefix]

/-- **Document keys** are unambiguous exactly when the id is not empty and does not end
with a colon. -/
theorem keysUnambiguous_iff (i j : QByteArray) (s t : Byte) :
    KeysUnambiguous i j s t ↔ i ≠ [] ∧ i.getLast? ≠ some colon := by
  constructor
  · intro h
    rw [← not_or, ← isVersionKey_startKey_iff, h.isVersionKey_startKey]
    exact Bool.false_ne_true
  · intro h
    refine ⟨constructDocumentLinkKey_inj.mp, fun heq => ?_, isVersionKey_linkKey i s, ?_⟩
    · obtain ⟨rfl, -⟩ := startKey_eq_linkKey_iff.mp heq
      exact h.2 List.getLast?_concat
    · rwa [← not_or, ← isVersionKey_startKey_iff, Bool.not_eq_true] at h

/-- The start key of `a:` is the version key of `a` with the number 58. -/
theorem not_keysUnambiguous :
    ¬ ∀ (i j : QByteArray) (s t : Byte), KeysUnambiguous i j s t := by
  intro h
  exact (h (bytes "a:") (bytes "a") 0 colon).startKey_ne (by decide)

/-! ## Indexes -/

/-- The prefix of an index is its encoded name between `iv:` and a colon. -/
theorem indexNamePrefix_eq (n : QString) :
    indexNamePrefix n = bytes "iv:" ++ toLocal8Bit n ++ [colon] := by
  have hqs : qs "iv:" = [105, 118, 58] := by decide
  have hcolon : qs ":" = [58] := by decide
  rw [indexNamePrefix, toLocal8Bit, hqs, hcolon, List.append_assoc]
  simp only [List.cons_append, List.nil_append]
  rw [toUtf8_cons_of_ascii (by decide), toUtf8_cons_of_ascii (by decide),
    toUtf8_cons_of_ascii (by decide), toUtf8_append_of_ascii (by decide),
    toUtf8_cons_of_ascii (by decide)]
  rfl

/-- A marshalled value starts with two tags, which are no colons. -/
theorem exists_marshal_eq (toBinaryData : QJsonValue → QByteArray) (v : QJsonValue) :
    ∃ t u data, marshal toBinaryData v = t :: u :: data ∧ t ≠ colon ∧ u ≠ colon := by
  cases v <;> exact ⟨_, _, _, rfl, by decide, by decide⟩

/-- An entry of the index `n₂` for the number `s₂` that looks like one of the index `n₁`
for the number `s₁`. -/
inductive Confused (n₁ : QString) (s₁ : Byte) (n₂ : QString) (s₂ : Byte) (data : QByteArray) :
    Prop where
  /-- the names are encoded alike -/
  | encoding (hname : toLocal8Bit n₂ = toLocal8Bit n₁) (hne : n₁ ≠ n₂) (hnumber : s₁ = s₂)
  /-- the other name ends with one more colon, and both numbers are that of a colon -/
  | ends (hname : toLocal8Bit n₂ = toLocal8Bit n₁ ++ [colon]) (hfirst : s₁ = colon)
      (hsecond : s₂ = colon)
  /-- the other name goes on with a colon and the number, in front of its end or a colon -/
  | name (r : QByteArray) (hname : toLocal8Bit n₂ = toLocal8Bit n₁ ++ colon :: s₁ :: r)
      (hr : [colon] <+: r ++ [colon])
  /-- the name goes on as the entry does, into the value -/
  | value (r : QByteArray)
      (hname : toLocal8Bit n₁ = toLocal8Bit n₂ ++ colon :: s₂ :: colon :: r)
      (hdata : r ++ [colon, s₁, colon] <+: data)

/-- What a scan for the index `n₁` and the number `s₁` makes of the entry of `n₂` and `s₂` for
a value: it meets it only if it is its own. -/
structure ScanStays (E : Env) (n₁ : QString) (s₁ : Byte) (n₂ : QString) (s₂ : Byte)
    (v : QJsonValue) : Prop where
  of_prefix : constructIndexValueStartKey n₁ s₁ <+:
    constructIndexValueKey n₂ s₂ (marshal E.toBinaryData v) → n₁ = n₂ ∧ s₁ = s₂
  of_mem : ∀ (db : Store) (b : Blob),
    (constructIndexValueKey n₂ s₂ (marshal E.toBinaryData v), b) ∈
      Collection.entriesFrom E db (constructIndexValueStartKey n₁ s₁) → n₁ = n₂ ∧ s₁ = s₂

/-- A start key in front of an entry, behind `iv:`. -/
theorem startKey_prefix_iff {n₁ n₂ : QString} {s₁ s₂ : Byte} {data : QByteArray} :
    constructIndexValueStartKey n₁ s₁ <+: constructIndexValueKey n₂ s₂ data ↔
      toLocal8Bit n₁ ++ [colon, s₁, colon] <+:
        toLocal8Bit n₂ ++ colon :: s₂ :: colon :: data := by
  rw [constructIndexValueStartKey_eq, constructIndexValueKey_eq, constructIndexValueKey_eq,
    indexNamePrefix_eq, indexNamePrefix_eq]
  simp only [List.append_assoc, List.prefix_append_right_inj, List.cons_append, List.nil_append]

variable {n₁ n₂ : QString} {s₁ s₂ : Byte} {data : QByteArray}

/-- A confused entry carries the start key of the other index. -/
theorem Confused.startKey_prefix (h : Confused n₁ s₁ n₂ s₂ data) :
    constructIndexValueStartKey n₁ s₁ <+: constructIndexValueKey n₂ s₂ data := by
  rw [startKey_prefix_iff]
  cases h with
  | encoding hname _ hnumber =>
    rw [hname, hnumber]
    exact (List.prefix_append_right_inj _).mpr (List.prefix_append [colon, s₂, colon] data)
  | ends hname hfirst hsecond =>
    rw [hname, hfirst, hsecond, List.append_assoc]
    exact (List.prefix_append_right_inj _).mpr (List.prefix_append [colon, colon, colon] _)
  | name r hname hr =>
    rw [hname, List.append_assoc]
    refine (List.prefix_append_right_inj _).mpr ?_
    have hmore : r ++ [colon] <+: r ++ colon :: s₂ :: colon :: data :=
      (List.prefix_append_right_inj r).mpr (List.prefix_append [colon] _)
    exact List.cons_prefix_cons.mpr ⟨rfl, List.cons_prefix_cons.mpr ⟨rfl, hr.trans hmore⟩⟩
  | value r hname hdata =>
    rw [hname, List.append_assoc]
    refine (List.prefix_append_right_inj _).mpr ?_
    exact (List.prefix_append_right_inj [colon, s₂, colon]).mpr hdata

theorem Confused.not_same (h : Confused n₁ s₁ n₂ s₂ data) : ¬ (n₁ = n₂ ∧ s₁ = s₂) := by
  rintro ⟨rfl, rfl⟩
  cases h with
  | encoding _ hne _ => exact hne rfl
  | ends hname _ _ => simpa using congrArg List.length hname
  | name r hname _ => simpa using congrArg List.length hname
  | value r hname _ => simpa using congrArg List.length hname

/-- **Scans**: an entry that a scan meets is its own, or is confused with one. By how far the
two names agree. -/
theorem same_or_confused (hdata : ∃ t u rest, data = t :: u :: rest ∧ t ≠ colon ∧ u ≠ colon)
    (h : constructIndexValueStartKey n₁ s₁ <+: constructIndexValueKey n₂ s₂ data) :
    (n₁ = n₂ ∧ s₁ = s₂) ∨ Confused n₁ s₁ n₂ s₂ data := by
  rw [startKey_prefix_iff] at h
  have hsame : toLocal8Bit n₂ = toLocal8Bit n₁ → s₁ = s₂ →
      (n₁ = n₂ ∧ s₁ = s₂) ∨ Confused n₁ s₁ n₂ s₂ data := by
    intro hname hs
    by_cases hn : n₁ = n₂
    · exact .inl ⟨hn, hs⟩
    · exact .inr (.encoding hname hn hs)
  rcases List.prefix_or_prefix_of_prefix ((List.prefix_append _ _).trans h)
    (List.prefix_append (toLocal8Bit n₂) _) with ⟨r, hr⟩ | ⟨r, hr⟩
  · -- the name of the entry goes on behind the other one
    rw [← hr, List.append_assoc, List.prefix_append_right_inj] at h
    cases r with
    | nil =>
      have htail := (List.cons_prefix_cons.mp h).2
      exact hsame (by rw [← hr, List.append_nil]) (List.cons_prefix_cons.mp htail).1
    | cons x r =>
      obtain ⟨rfl, htail⟩ := List.cons_prefix_cons.mp h
      cases r with
      | nil =>
        obtain ⟨hs, hlast⟩ := List.cons_prefix_cons.mp htail
        exact .inr (.ends hr.symm hs (List.cons_prefix_cons.mp hlast).1.symm)
      | cons y r =>
        obtain ⟨rfl, hlast⟩ := List.cons_prefix_cons.mp htail
        refine .inr (.name r hr.symm ?_)
        cases r with
        | nil => exact List.prefix_rfl
        | cons z r =>
          exact List.cons_prefix_cons.mpr ⟨(List.cons_prefix_cons.mp hlast).1, List.nil_prefix⟩
  · -- the name of the scan goes on, so it goes on as the entry does
    rw [← hr, List.append_assoc, List.prefix_append_right_inj] at h
    obtain ⟨t, u, rest, rfl, ht, hu⟩ := hdata
    cases r with
    | nil =>
      have htail := (List.cons_prefix_cons.mp h).2
      exact hsame (by rw [← hr, List.append_nil]) (List.cons_prefix_cons.mp htail).1
    | cons x r =>
      obtain ⟨rfl, htail⟩ := List.cons_prefix_cons.mp h
      cases r with
      | nil =>
        -- the third colon would be the first tag
        have hlast := (List.cons_prefix_cons.mp (List.cons_prefix_cons.mp htail).2).2
        exact absurd (List.cons_prefix_cons.mp hlast).1.symm ht
      | cons y r =>
        obtain ⟨rfl, hlast⟩ := List.cons_prefix_cons.mp htail
        cases r with
        | nil =>
          -- the third colon would be the second tag
          have hend := (List.cons_prefix_cons.mp (List.cons_prefix_cons.mp hlast).2).2
          exact absurd (List.cons_prefix_cons.mp hend).1.symm hu
        | cons z r =>
          obtain ⟨rfl, hvalue⟩ := List.cons_prefix_cons.mp hlast
          exact .inr (.value r hr.symm hvalue)

theorem scanStays_of_not_confused {E : Env} {v : QJsonValue}
    (h : ¬ Confused n₁ s₁ n₂ s₂ (marshal E.toBinaryData v)) : ScanStays E n₁ s₁ n₂ s₂ v := by
  have hkeys : constructIndexValueStartKey n₁ s₁ <+:
      constructIndexValueKey n₂ s₂ (marshal E.toBinaryData v) → n₁ = n₂ ∧ s₁ = s₂ :=
    fun hp => (same_or_confused (exists_marshal_eq E.toBinaryData v) hp).resolve_right h
  exact ⟨hkeys, fun db b hmem => hkeys (Collection.mem_entries_of_mem_entriesFrom hmem).2⟩

theorem not_confused_of_scanStays {E : Env} {v : QJsonValue} (h : ScanStays E n₁ s₁ n₂ s₂ v) :
    ¬ Confused n₁ s₁ n₂ s₂ (marshal E.toBinaryData v) :=
  fun hconfused => hconfused.not_same (h.of_prefix hconfused.startKey_prefix)

/-- **Index scans** stay in their index exactly when the entry is not confused. -/
theorem scanStays_iff (E : Env) (n₁ : QString) (s₁ : Byte) (n₂ : QString) (s₂ : Byte)
    (v : QJsonValue) :
    ScanStays E n₁ s₁ n₂ s₂ v ↔ ¬ Confused n₁ s₁ n₂ s₂ (marshal E.toBinaryData v) :=
  ⟨not_confused_of_scanStays, scanStays_of_not_confused⟩

/-- Names without colons are confused only if they are encoded alike. -/
theorem scanStays_of_colon_notMem (E : Env) (h₁ : (58 : QChar) ∉ n₁) (h₂ : (58 : QChar) ∉ n₂)
    (hname : toLocal8Bit n₁ = toLocal8Bit n₂ → n₁ = n₂) (v : QJsonValue) :
    ScanStays E n₁ s₁ n₂ s₂ v := by
  have hcolon : ∀ {n : QString}, (58 : QChar) ∉ n → colon ∉ toLocal8Bit n := by
    intro n hn hmem
    obtain ⟨c, hc, hval⟩ := mem_of_mem_toUtf8 hmem (by decide) (by decide)
    obtain rfl : c = 58 := Fin.ext hval
    exact hn hc
  refine scanStays_of_not_confused fun h => ?_
  cases h with
  | encoding heq hne _ => exact hne (hname heq.symm)
  | ends heq _ _ => exact hcolon h₂ (by rw [heq]; simp)
  | name r heq _ => exact hcolon h₂ (by rw [heq]; simp)
  | value r heq _ => exact hcolon h₁ (by rw [heq]; simp)

/-- The entries of `a:b` for any number look like entries of `a` for the number 98. -/
theorem not_scanStays :
    ¬ ∀ (E : Env) (n₁ : QString) (s₁ : Byte) (n₂ : QString) (s₂ : Byte) (v : QJsonValue),
      ScanStays E n₁ s₁ n₂ s₂ v := by
  intro h
  exact not_confused_of_scanStays (h (Env.plain .map) (qs "a") 98 (qs "a:b") 0 .null)
    (.name [] (by decide) List.prefix_rfl)

end Qdocdb
