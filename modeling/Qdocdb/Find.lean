import Qdocdb.QuerySemantics

/-!
# What find returns

`find` has three ways to go. A query with an `_id` or with a value for an indexed field is
answered from link keys, a missing index entry ends it with an error, and otherwise it loops
over the documents. Each way ends in the same selection: the candidates that are documents
and satisfy the query (`collectValid_eq`).
-/

namespace Qdocdb

variable {E : Env} {R : Reader} {query : QJsonObject}

/-- The key helps `find`: it is the `_id`, or an index is consulted for it. -/
def Helps (indexes : List (QString × QString)) (f : QString × QJsonValue) : Prop :=
  f.1 = qs "_id" ∨ (consultedIndex indexes f.1 f.2).isSome

/-- Some key of the query helps. -/
def Indexed (indexes : List (QString × QString)) (query : QJsonObject) : Prop :=
  ∃ f ∈ query, Helps indexes f

instance (indexes : List (QString × QString)) (query : QJsonObject) :
    Decidable (Indexed indexes query) :=
  inferInstanceAs (Decidable (∃ f ∈ query, f.1 = qs "_id" ∨
    (consultedIndex indexes f.1 f.2).isSome))

/-- Each index that `find` consults has an entry for the value. -/
def EntriesThere (E : Env) (R : Reader) (indexes : List (QString × QString))
    (query : QJsonObject) : Prop :=
  ∀ f ∈ query, f.1 ≠ qs "_id" → ∀ indexName, consultedIndex indexes f.1 f.2 = some indexName →
    (R.getIndexValueLinkKeys E indexName f.2).isSome

theorem entriesThere_of_not_indexed {indexes : List (QString × QString)}
    (h : ¬ Indexed indexes query) : EntriesThere E R indexes query := by
  intro f hf _ indexName hindex
  exact absurd ⟨f, hf, .inr (by simp [hindex])⟩ h

/-- **The loop over the keys** goes through when the entries are there, and then it has link
keys when some key helped. -/
theorem findLinkKeys_of_entriesThere {indexes : List (QString × QString)}
    (h : EntriesThere E R indexes query) (linkKeys : Option (List QByteArray)) :
    ∃ linkKeys', findLinkKeys E R indexes query linkKeys = .ok linkKeys' ∧
      (linkKeys'.isSome ↔ linkKeys.isSome ∨ Indexed indexes query) := by
  induction query generalizing linkKeys with
  | nil => exact ⟨linkKeys, rfl, by simp [Indexed]⟩
  | cons f query ih =>
    obtain ⟨key, operand⟩ := f
    have hrest : EntriesThere E R indexes query := fun f hf => h f (List.mem_cons_of_mem _ hf)
    have hindexed : Indexed indexes ((key, operand) :: query) ↔
        Helps indexes (key, operand) ∨ Indexed indexes query := by
      simp [Indexed]
    rw [hindexed, findLinkKeys]
    by_cases hid : key = qs "_id"
    · rw [if_pos hid]
      obtain ⟨linkKeys', hfind, hsome⟩ :=
        ih hrest (some (linkKeys.getD [] ++ idLinkKeys R.snapshotId operand))
      have hhelps : Helps indexes (key, operand) := .inl hid
      exact ⟨linkKeys', hfind, by simpa [hhelps] using hsome⟩
    · rw [if_neg hid]
      cases hindex : consultedIndex indexes key operand with
      | none =>
        obtain ⟨linkKeys', hfind, hsome⟩ := ih hrest linkKeys
        have hhelps : ¬ Helps indexes (key, operand) := by simp [Helps, hid, hindex]
        exact ⟨linkKeys', hfind, by simpa [hhelps] using hsome⟩
      | some indexName =>
        have hthere := h (key, operand) List.mem_cons_self hid indexName hindex
        obtain ⟨indexLinkKeys, hentry⟩ := Option.isSome_iff_exists.mp hthere
        have hhelps : Helps indexes (key, operand) := .inr (by simp [hindex])
        simp only [hentry]
        obtain ⟨linkKeys', hfind, hsome⟩ := ih hrest _
        exact ⟨linkKeys', hfind, by simpa [hhelps] using hsome⟩

/-- A missing entry ends the loop. -/
theorem findLinkKeys_of_not_entriesThere {indexes : List (QString × QString)}
    (h : ¬ EntriesThere E R indexes query) (linkKeys : Option (List QByteArray)) :
    findLinkKeys E R indexes query linkKeys = .error .errorDatabase := by
  induction query generalizing linkKeys with
  | nil => exact absurd (List.forall_mem_nil _) h
  | cons f query ih =>
    obtain ⟨key, operand⟩ := f
    rw [EntriesThere, List.forall_mem_cons] at h
    rw [findLinkKeys]
    by_cases hid : key = qs "_id"
    · rw [if_pos hid]
      exact ih (fun hrest => h ⟨fun hne => absurd hid hne, hrest⟩) _
    · rw [if_neg hid]
      cases hindex : consultedIndex indexes key operand with
      | none => exact ih (fun hrest => h ⟨fun _ n hn => by simp [hindex] at hn, hrest⟩) _
      | some indexName =>
        cases hentry : R.getIndexValueLinkKeys E indexName operand with
        | none => simp only [hentry]
        | some indexLinkKeys =>
          simp only [hentry]
          refine ih (fun hrest => h ⟨fun _ n hn => ?_, hrest⟩) _
          obtain rfl : indexName = n := Option.some.inj (hindex.symm.trans hn)
          simp [hentry]

/-! ## The selection -/

theorem checkQuery_of_wellFormed (hq : WellFormed (.object query)) (doc : QJsonValue) :
    ∃ b, checkQuery E query doc = some b ∧ (b = true ↔ Sat (.object query) doc) := by
  cases hq with
  | query hfields =>
    exact checkValidR_of_contributes
      (fun f hf => contributes_of_wellFormedField (hfields f hf) (E.uninitialized doc)) doc [] true

/-- The candidate is a document that satisfies the query. -/
def selects (E : Env) (query : QJsonObject) (e : QJsonValue × QByteArray) : Bool :=
  e.1.isObject && checkQuery E query e.1 = some true

theorem selects_iff (hq : WellFormed (.object query)) {e : QJsonValue × QByteArray} :
    selects E query e = true ↔ (∃ o, e.1 = .object o) ∧ Sat (.object query) e.1 := by
  obtain ⟨v, id⟩ := e
  obtain ⟨b, hcheck, hb⟩ := @checkQuery_of_wellFormed E query hq v
  cases v <;> simp [selects, QJsonValue.isObject, hcheck, hb]

/-- **The loops over candidates** select those that are documents and satisfy the query. -/
theorem collectValid_eq (hq : WellFormed (.object query)) (l : List (QJsonValue × QByteArray)) :
    collectValid E query l = (.success, l.filter (selects E query)) := by
  induction l with
  | nil => rfl
  | cons e l ih =>
    obtain ⟨jsonValue, id⟩ := e
    obtain ⟨b, hcheck, -⟩ := @checkQuery_of_wellFormed E query hq jsonValue
    rw [collectValid, hcheck, ih]
    cases hobject : jsonValue.isObject <;> cases b <;>
      simp [selects, hobject, hcheck]

/-! ## The ways of find -/

/-- From link keys: the documents under them that satisfy the query. -/
theorem find_of_indexed (hq : WellFormed (.object query)) (options : QJsonObject)
    (hindexed : Indexed R.getIndexes query) (hthere : EntriesThere E R R.getIndexes query) :
    ∃ linkKeys : List QByteArray, find E R query options = (.success,
      (linkKeys.map fun k => (R.getJsonValueByLinkKey k, k)).filter (selects E query)) := by
  obtain ⟨linkKeys, hfind, hsome⟩ := findLinkKeys_of_entriesThere hthere none
  obtain ⟨linkKeys, rfl⟩ := Option.isSome_iff_exists.mp (hsome.mpr (.inr hindexed))
  refine ⟨linkKeys, ?_⟩
  rw [find, hfind]
  exact collectValid_eq hq _

/-- Without an entry: an error. -/
theorem find_of_not_entriesThere (options : QJsonObject)
    (hthere : ¬ EntriesThere E R R.getIndexes query) :
    find E R query options = (.errorDatabase, []) := by
  rw [find, findLinkKeys_of_not_entriesThere hthere]
  rfl

/-- From the loop over the documents: those that satisfy the query, with the options applied. -/
theorem find_of_not_indexed (hq : WellFormed (.object query)) (options : QJsonObject)
    (hindexed : ¬ Indexed R.getIndexes query) :
    find E R query options = (.success, applyOptions
      ((enumerate E.backend R.db R.snapshotId).filter (selects E query)) options) := by
  obtain ⟨linkKeys, hfind, hsome⟩ :=
    findLinkKeys_of_entriesThere (entriesThere_of_not_indexed (E := E) (R := R) hindexed) none
  have hnone : linkKeys = none := by
    rw [← Option.not_isSome_iff_eq_none, hsome]
    simpa using hindexed
  rw [find, hfind, hnone, findFrom, fullSearch, collectValid_eq hq]

end Qdocdb
