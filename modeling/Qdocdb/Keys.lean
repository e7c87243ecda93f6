import Qdocdb.Lib.Prefix
import Qdocdb.Serialize

/-!
# Store keys

Every key of the store starts with a letter that says what it is:

* `d:ID:` the start key of a document, and `d:ID:\xHH` its version number `HH`;
* `iv:NAME:\xHH:VALUE` the entries of an index for the snapshot number `HH`;
* `in:` the table of indexes, and `s:` the list of snapshots.

Ids are arbitrary byte strings and nothing escapes the colons in them, so what a
scan by prefix meets depends on how the ids in the store extend each other. Four
conditions on a set of ids recur: `ColonFree`, under which the snapshot operations tell
start keys from versions, `Separated`, under which the keys of an id are exactly the keys
from its start key on that carry its prefix, `PlainIds`, which asks for both, and
`SafeIds`, the strongest one of ids without colons that are not prefixes of one another.
-/

namespace Qdocdb

/-- `':'` -/
abbrev colon : Byte := 58

/-- The prefix of all keys of a document. -/
def documentPrefix (id : QByteArray) : QByteArray := [100, 58] ++ id

/-- `constructDocumentStartKey`: `d:ID:`. -/
def constructDocumentStartKey (id : QByteArray) : QByteArray := documentPrefix id ++ [colon]

/-- `constructDocumentLinkKey`: `d:ID:\xHH`. -/
def constructDocumentLinkKey (id : QByteArray) (snapshotId : Byte) : QByteArray :=
  constructDocumentStartKey id ++ [snapshotId]

/-- `constructIndexValueStartKey`: `iv:NAME:\xHH:`. -/
def constructIndexValueStartKey (indexName : QString) (snapshotId : Byte) : QByteArray :=
  toLocal8Bit (qs "iv:" ++ indexName ++ qs ":") ++ [snapshotId] ++ [colon]

/-- `constructIndexValueKey` of marshalled bytes. -/
def constructIndexValueKey (indexName : QString) (snapshotId : Byte) (valueData : QByteArray) :
    QByteArray :=
  constructIndexValueStartKey indexName snapshotId ++ valueData

/-- `in:` -/
def indexesKey : QByteArray := bytes "in:"

/-- `s:` -/
def snapshotsKey : QByteArray := bytes "s:"

/-! ## Keys of one document -/

theorem constructDocumentLinkKey_eq (id : QByteArray) (s : Byte) :
    constructDocumentLinkKey id s = documentPrefix id ++ [colon, s] := by
  rw [constructDocumentLinkKey, constructDocumentStartKey, List.append_assoc, List.singleton_append]

@[simp] theorem length_documentPrefix (id : QByteArray) :
    (documentPrefix id).length = id.length + 2 := by
  simp [documentPrefix]

@[simp] theorem length_constructDocumentStartKey (id : QByteArray) :
    (constructDocumentStartKey id).length = id.length + 3 := by
  simp [constructDocumentStartKey]

@[simp] theorem length_constructDocumentLinkKey (id : QByteArray) (s : Byte) :
    (constructDocumentLinkKey id s).length = id.length + 4 := by
  simp [constructDocumentLinkKey]

theorem constructDocumentStartKey_injective :
    Function.Injective constructDocumentStartKey := by
  intro i j h
  simpa [constructDocumentStartKey, documentPrefix] using h

theorem constructDocumentLinkKey_inj {i j : QByteArray} {s t : Byte} :
    constructDocumentLinkKey i s = constructDocumentLinkKey j t ↔ i = j ∧ s = t := by
  constructor
  · intro h
    obtain ⟨hstart, hlast⟩ := List.append_inj' h rfl
    exact ⟨constructDocumentStartKey_injective hstart, by simpa using hlast⟩
  · rintro ⟨rfl, rfl⟩
    rfl

theorem documentPrefix_prefix_startKey (id : QByteArray) :
    documentPrefix id <+: constructDocumentStartKey id := List.prefix_append _ _

theorem documentPrefix_prefix_linkKey (id : QByteArray) (s : Byte) :
    documentPrefix id <+: constructDocumentLinkKey id s :=
  (documentPrefix_prefix_startKey id).trans (List.prefix_append _ _)

theorem startKey_lt_linkKey (id : QByteArray) (s : Byte) :
    constructDocumentStartKey id < constructDocumentLinkKey id s :=
  List.lt_append_cons _ s []

theorem linkKey_lt_linkKey_iff {id : QByteArray} {s t : Byte} :
    constructDocumentLinkKey id s < constructDocumentLinkKey id t ↔ s < t := by
  rw [constructDocumentLinkKey, constructDocumentLinkKey, List.append_lt_append_iff,
    List.cons_lt_cons_iff]
  simp

/-! ## Kinds of keys -/

/-- A key of the document `id`: its start key or one of its versions. -/
def IsKeyOf (id k : QByteArray) : Prop :=
  k = constructDocumentStartKey id ∨ ∃ s, k = constructDocumentLinkKey id s

theorem isKeyOf_startKey (id : QByteArray) : IsKeyOf id (constructDocumentStartKey id) :=
  .inl rfl

theorem isKeyOf_linkKey (id : QByteArray) (s : Byte) :
    IsKeyOf id (constructDocumentLinkKey id s) :=
  .inr ⟨s, rfl⟩

/-- A key behind the documents, such as those of indexes and of the snapshot list. -/
def IsMetaKey (k : QByteArray) : Prop := ∃ c r, k = c :: r ∧ 100 < c

theorem IsKeyOf.documentPrefix_prefix {id k : QByteArray} (h : IsKeyOf id k) :
    documentPrefix id <+: k := by
  rcases h with rfl | ⟨s, rfl⟩
  · exact documentPrefix_prefix_startKey id
  · exact documentPrefix_prefix_linkKey id s

theorem IsKeyOf.startKey_le {id k : QByteArray} (h : IsKeyOf id k) :
    constructDocumentStartKey id ≤ k := by
  rcases h with rfl | ⟨s, rfl⟩
  · exact le_rfl
  · exact (startKey_lt_linkKey id s).le

theorem IsKeyOf.exists_eq {id k : QByteArray} (h : IsKeyOf id k) :
    ∃ t : QByteArray, t.length ≤ 1 ∧ k = documentPrefix id ++ colon :: t := by
  rcases h with rfl | ⟨s, rfl⟩
  · exact ⟨[], by simp, rfl⟩
  · exact ⟨[s], by simp, constructDocumentLinkKey_eq id s⟩

/-- Document keys are below the others. -/
theorem IsKeyOf.lt_of_isMetaKey {id k k' : QByteArray} (h : IsKeyOf id k) (h' : IsMetaKey k') :
    k < k' := by
  obtain ⟨t, -, rfl⟩ := h.exists_eq
  obtain ⟨c, r, rfl, hc⟩ := h'
  exact .rel hc

theorem IsMetaKey.not_documentPrefix {k p : QByteArray} (h : IsMetaKey k) :
    ¬ 100 :: p <+: k := by
  obtain ⟨c, r, rfl, hc⟩ := h
  intro hp
  exact absurd (List.cons_prefix_cons.mp hp).1 hc.ne

theorem IsMetaKey.not_isKeyOf {k id : QByteArray} (h : IsMetaKey k) : ¬ IsKeyOf id k :=
  fun hk => h.not_documentPrefix hk.documentPrefix_prefix

theorem isMetaKey_snapshotsKey : IsMetaKey snapshotsKey := ⟨115, [58], by decide, by decide⟩

theorem isMetaKey_indexesKey : IsMetaKey indexesKey := ⟨105, [110, 58], by decide, by decide⟩

theorem IsKeyOf.ne_indexesKey {id k : QByteArray} (h : IsKeyOf id k) : k ≠ indexesKey := by
  rintro rfl
  exact isMetaKey_indexesKey.not_isKeyOf h

theorem IsKeyOf.ne_snapshotsKey {id k : QByteArray} (h : IsKeyOf id k) : k ≠ snapshotsKey := by
  rintro rfl
  exact isMetaKey_snapshotsKey.not_isKeyOf h

/-- Index entries start with `iv:`. -/
theorem exists_constructIndexValueStartKey_eq (indexName : QString) (s : Byte) :
    ∃ r, constructIndexValueStartKey indexName s = 105 :: 118 :: 58 :: r := by
  have hqs : qs "iv:" = [105, 118, 58] := by decide
  refine ⟨toUtf8 (indexName ++ qs ":") ++ [s, colon], ?_⟩
  rw [constructIndexValueStartKey, toLocal8Bit, hqs, List.append_assoc]
  simp only [List.cons_append, List.nil_append]
  rw [toUtf8_cons_of_ascii (by decide), toUtf8_cons_of_ascii (by decide),
    toUtf8_cons_of_ascii (by decide)]
  rfl

theorem isMetaKey_constructIndexValueKey (indexName : QString) (s : Byte) (d : QByteArray) :
    IsMetaKey (constructIndexValueKey indexName s d) := by
  obtain ⟨r, hr⟩ := exists_constructIndexValueStartKey_eq indexName s
  exact ⟨105, 118 :: 58 :: r ++ d, by rw [constructIndexValueKey, hr]; rfl, by decide⟩

/-! ## Sets of ids -/

/-- Where an id extends another one, it goes on below the colon. -/
def Separated (F : Set QByteArray) : Prop :=
  ∀ I ∈ F, ∀ c r, I ++ c :: r ∈ F → c < colon

/-- Ids that are not empty, have no colon and are not prefixes of one another. -/
structure SafeIds (F : Set QByteArray) : Prop where
  ne_nil : ∀ I ∈ F, I ≠ []
  colon_notMem : ∀ I ∈ F, colon ∉ I
  eq_of_prefix : ∀ I ∈ F, ∀ J ∈ F, I <+: J → I = J

theorem SafeIds.separated {F : Set QByteArray} (hF : SafeIds F) : Separated F := by
  intro I hI c r hJ
  have h := hF.eq_of_prefix I hI _ hJ (List.prefix_append _ _)
  simp at h

/-- Ids that are not empty and have no colon, so that a start key does not look like a
version key. -/
structure ColonFree (F : Set QByteArray) : Prop where
  ne_nil : ∀ I ∈ F, I ≠ []
  colon_notMem : ∀ I ∈ F, colon ∉ I

/-- Separated ids that are not empty and have no colon. -/
structure PlainIds (F : Set QByteArray) : Prop where
  ne_nil : ∀ I ∈ F, I ≠ []
  colon_notMem : ∀ I ∈ F, colon ∉ I
  separated : Separated F

theorem PlainIds.colonFree {F : Set QByteArray} (hF : PlainIds F) : ColonFree F :=
  ⟨hF.ne_nil, hF.colon_notMem⟩

theorem SafeIds.plain {F : Set QByteArray} (hF : SafeIds F) : PlainIds F :=
  ⟨hF.ne_nil, hF.colon_notMem, hF.separated⟩

/-- Ids of one length that have no colon are safe. -/
theorem safeIds_of_length {n : ℕ} (hn : n ≠ 0) :
    SafeIds {I : QByteArray | I.length = n ∧ colon ∉ I} where
  ne_nil := by
    rintro I ⟨hlen, -⟩ rfl
    exact hn hlen.symm
  colon_notMem := fun I hI => hI.2
  eq_of_prefix := fun I hI J hJ h => h.eq_of_length (hI.1.trans hJ.1.symm)

/-- Ids of one byte other than the colon. -/
abbrev oneByteIds : Set QByteArray := {I | I.length = 1 ∧ colon ∉ I}

theorem safeIds_oneByteIds : SafeIds oneByteIds := safeIds_of_length Nat.one_ne_zero

section Separated

variable {F : Set QByteArray} (hF : Separated F) {I J k : QByteArray} (hI : I ∈ F) (hJ : J ∈ F)
include hF hI hJ

/-- **Block lemma**: from its start key on, only the keys of an id carry its prefix. -/
theorem Separated.eq_of_documentPrefix (hk : IsKeyOf J k) (hp : documentPrefix I <+: k)
    (hle : constructDocumentStartKey I ≤ k) : J = I := by
  obtain ⟨t, -, rfl⟩ := hk.exists_eq
  have hp' : I <+: J ++ colon :: t := by simpa [documentPrefix] using hp
  rcases List.prefix_or_prefix_of_prefix hp' (List.prefix_append J _) with ⟨u, rfl⟩ | ⟨u, rfl⟩
  · -- `J` extends `I`, by a byte below the colon, so its keys are before `I`
    cases u with
    | nil => rw [List.append_nil]
    | cons c r =>
      have hc := hF I hI c r hJ
      have hlt : documentPrefix (I ++ c :: r) ++ colon :: t < constructDocumentStartKey I := by
        have h := List.append_cons_lt_append_cons (documentPrefix I) hc (r ++ colon :: t) []
        simpa [documentPrefix, constructDocumentStartKey] using h
      exact absurd hle (not_le_of_gt hlt)
  · -- `I` extends `J` by the colon behind it
    cases u with
    | nil => rw [List.append_nil]
    | cons c r =>
      obtain ⟨rfl, -⟩ := List.cons_prefix_cons.mp ((List.prefix_append_right_inj J).mp hp')
      exact absurd (hF J hJ _ r hI) (lt_irrefl _)

theorem Separated.eq_of_startKey_prefix (hk : IsKeyOf J k)
    (hp : constructDocumentStartKey I <+: k) : J = I :=
  hF.eq_of_documentPrefix hI hJ hk ((documentPrefix_prefix_startKey I).trans hp) hp.le_of_lex

/-- A key belongs to one id. -/
theorem Separated.eq_of_isKeyOf (hk : IsKeyOf I k) (hk' : IsKeyOf J k) : J = I :=
  hF.eq_of_documentPrefix hI hJ hk' hk.documentPrefix_prefix hk.startKey_le

theorem Separated.startKey_ne_linkKey (s : Byte) :
    constructDocumentStartKey I ≠ constructDocumentLinkKey J s := by
  intro h
  have hIJ : J = I := hF.eq_of_isKeyOf hI hJ (.inl h.symm) (.inr ⟨s, rfl⟩)
  have hlen := congrArg List.length h
  simp [hIJ] at hlen

end Separated

section ColonFree

variable {F : Set QByteArray} (hF : ColonFree F) {I J k : QByteArray}
include hF

/-- What is in front of the first colon. -/
theorem ColonFree.append_colon_inj (hI : I ∈ F) (hJ : J ∈ F) {u t : QByteArray}
    (h : I ++ colon :: u = J ++ colon :: t) : I = J ∧ u = t := by
  have hinj : ∀ {I J r u t : QByteArray}, colon ∉ J → J = I ++ r →
      colon :: u = r ++ colon :: t → I = J ∧ u = t := by
    intro I J r u t hJ hr hu
    cases r with
    | nil => exact ⟨by simp [hr], by simpa using hu⟩
    | cons c r => simp_all
  rcases List.append_eq_append_iff.mp h with ⟨r, hr, hu⟩ | ⟨r, hr, hu⟩
  · exact hinj (hF.colon_notMem J hJ) hr hu
  · exact (hinj (hF.colon_notMem I hI) hr hu).imp Eq.symm Eq.symm

theorem ColonFree.startKey_ne_linkKey (hI : I ∈ F) (s : Byte) :
    constructDocumentStartKey I ≠ constructDocumentLinkKey J s := by
  intro h
  have hk := congrArg List.dropLast h
  rw [constructDocumentStartKey, constructDocumentLinkKey, List.dropLast_concat,
    List.dropLast_concat] at hk
  have hmem : I = J ++ [colon] := by
    simpa [documentPrefix, constructDocumentStartKey] using hk
  exact hF.colon_notMem I hI (by simp [hmem])

/-- A version key belongs to the id that it is constructed for. -/
theorem ColonFree.eq_of_isKeyOf_linkKey (hI : I ∈ F) {s : Byte}
    (hk : IsKeyOf I (constructDocumentLinkKey J s)) : I = J := by
  rcases hk with hk | ⟨t, hk⟩
  · exact absurd hk.symm (hF.startKey_ne_linkKey hI s)
  · exact (constructDocumentLinkKey_inj.mp hk).1.symm

/-- The keys that carry the start key of an id are its own. -/
theorem ColonFree.eq_of_startKey_prefix (hI : I ∈ F) (hJ : J ∈ F) (hk : IsKeyOf J k)
    (hp : constructDocumentStartKey I <+: k) : J = I := by
  obtain ⟨t, -, rfl⟩ := hk.exists_eq
  obtain ⟨u, hu⟩ := hp
  have heq : I ++ colon :: u = J ++ colon :: t := by
    simpa [documentPrefix, constructDocumentStartKey] using hu
  exact (hF.append_colon_inj hI hJ heq).1.symm

/-- A key belongs to one id. -/
theorem ColonFree.eq_of_isKeyOf (hI : I ∈ F) (hJ : J ∈ F) (hk : IsKeyOf I k)
    (hk' : IsKeyOf J k) : J = I := by
  obtain ⟨t, -, rfl⟩ := hk.exists_eq
  obtain ⟨u, -, hu⟩ := hk'.exists_eq
  have heq : I ++ colon :: t = J ++ colon :: u := by simpa [documentPrefix] using hu
  exact (hF.append_colon_inj hI hJ heq).1.symm

end ColonFree

/-! ## Telling versions from start keys -/

/-- The test of the snapshot operations: `key[key.size() - 2] == ':'`. -/
def isVersionKey (key : QByteArray) : Bool := key.getD (key.length - 2) 0 = colon

/-- `key[key.size() - 1]` -/
def lastByte (key : QByteArray) : Byte := key.getD (key.length - 1) 0

@[simp] theorem lastByte_concat (k : QByteArray) (s : Byte) : lastByte (k ++ [s]) = s := by
  simp [lastByte]

@[simp] theorem lastByte_linkKey (id : QByteArray) (s : Byte) :
    lastByte (constructDocumentLinkKey id s) = s :=
  lastByte_concat _ s

@[simp] theorem isVersionKey_linkKey (id : QByteArray) (s : Byte) :
    isVersionKey (constructDocumentLinkKey id s) = true := by
  simp [isVersionKey, constructDocumentLinkKey_eq]

theorem isVersionKey_startKey {id : QByteArray} (hne : id ≠ []) (hcolon : colon ∉ id) :
    isVersionKey (constructDocumentStartKey id) = false := by
  obtain ⟨l, c, rfl⟩ := (List.eq_nil_or_concat' id).resolve_left hne
  have hc : c ≠ colon := fun h => hcolon (by simp [h])
  simp [isVersionKey, constructDocumentStartKey, documentPrefix, hc]

end Qdocdb
