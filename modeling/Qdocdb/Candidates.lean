import Qdocdb.Find
import Qdocdb.UnsetFlags

/-!
# The loops over candidates

The loops of `find` end at the first document that the query cannot be evaluated on, and reply
with those before it that satisfy the query (`collectValid_spec`). Where an evaluation reads
unset flags a loop may come to several replies. What all of them have in common is told by what
the query may come to on each document: whether they all are empty (`forall_snd_eq_nil_iff`),
whether they all are the same (`forall_docs_eq_iff`), and whether all loops go through
(`forall_fst_eq_success_iff`).
-/

namespace Qdocdb

/-! ## One loop -/

section Loops

variable {E : Env} {query : QJsonObject}

/-- The query can be evaluated on the candidate, or it is no document. -/
def evaluable (E : Env) (query : QJsonObject) (e : QJsonValue × QByteArray) : Bool :=
  !e.1.isObject || (checkQuery E query e.1).isSome

/-- None of the candidates up to the first one that ends the loop satisfies the query. -/
def Fruitless (E : Env) (query : QJsonObject) (l : List (QJsonValue × QByteArray)) : Prop :=
  ∀ e ∈ l.takeWhile (evaluable E query), selects E query e = false

instance (E : Env) (query : QJsonObject) (l : List (QJsonValue × QByteArray)) :
    Decidable (Fruitless E query l) :=
  inferInstanceAs (Decidable (∀ e ∈ _, _))

/-- **The loop** ends at the first document that the query cannot be evaluated on. -/
theorem collectValid_spec (E : Env) (query : QJsonObject) (l : List (QJsonValue × QByteArray)) :
    collectValid E query l =
      (if l.all (evaluable E query) then .success else .errorQuery,
        (l.takeWhile (evaluable E query)).filter (selects E query)) := by
  induction l with
  | nil => rfl
  | cons e l ih =>
    obtain ⟨v, id⟩ := e
    rw [collectValid]
    cases hobject : v.isObject with
    | false =>
      have hskip : selects E query (v, id) = false := by simp [selects, hobject]
      have hgood : evaluable E query (v, id) = true := by simp [evaluable, hobject]
      rw [if_neg (by simp), ih, List.all_cons, hgood, Bool.true_and,
        List.takeWhile_cons_of_pos hgood, List.filter_cons_of_neg (by simp [hskip])]
    | true =>
      rw [if_pos rfl]
      cases hcheck : checkQuery E query v with
      | none =>
        have hbad : evaluable E query (v, id) = false := by simp [evaluable, hobject, hcheck]
        rw [List.all_cons, hbad, List.takeWhile_cons_of_neg (by simp [hbad])]
        rfl
      | some valid =>
        have hgood : evaluable E query (v, id) = true := by simp [evaluable, hcheck]
        have hselects : selects E query (v, id) = valid := by
          cases valid <;> simp [selects, hobject, hcheck]
        rw [ih, List.all_cons, hgood, Bool.true_and, List.takeWhile_cons_of_pos hgood]
        cases valid with
        | true => rw [List.filter_cons_of_pos hselects]; rfl
        | false => rw [List.filter_cons_of_neg (by simp [hselects])]; rfl

/-- A query that can be evaluated on all candidates selects those that satisfy it. -/
theorem collectValid_of_all {l : List (QJsonValue × QByteArray)}
    (h : l.all (evaluable E query) = true) :
    collectValid E query l = (.success, l.filter (selects E query)) := by
  rw [collectValid_spec, if_pos h, List.takeWhile_eq_self_iff.mpr (List.all_eq_true.mp h)]

theorem collectValid_fst (l : List (QJsonValue × QByteArray)) :
    (collectValid E query l).1 = .success ↔ l.all (evaluable E query) = true := by
  rw [collectValid_spec]
  cases l.all (evaluable E query) <;> simp

theorem collectValid_snd_eq_nil (l : List (QJsonValue × QByteArray)) :
    (collectValid E query l).2 = [] ↔ Fruitless E query l := by
  rw [collectValid_spec, List.filter_eq_nil_iff, Fruitless]
  simp

/-- What satisfies the query is a document. -/
theorem exists_object_of_selects {e : QJsonValue × QByteArray} (h : selects E query e = true) :
    ∃ o, e.1 = .object o := by
  obtain ⟨v, id⟩ := e
  cases v <;> try cases h
  exact ⟨_, rfl⟩

/-- What the loop replies with was a candidate, and a document. -/
theorem of_mem_collectValid {l : List (QJsonValue × QByteArray)} {e : QJsonValue × QByteArray}
    (h : e ∈ (collectValid E query l).2) : e ∈ l ∧ ∃ o, e.1 = .object o := by
  rw [collectValid_spec] at h
  obtain ⟨hmem, hselects⟩ := List.mem_filter.mp h
  exact ⟨(List.takeWhile_sublist _).subset hmem, exists_object_of_selects hselects⟩

/-- Two loops end alike when both go to their ends, or none does. -/
theorem collectValid_fst_eq_iff {l l' : List (QJsonValue × QByteArray)} :
    (collectValid E query l).1 = (collectValid E query l').1 ↔
      l.all (evaluable E query) = l'.all (evaluable E query) := by
  rw [collectValid_spec, collectValid_spec]
  cases l.all (evaluable E query) <;> cases l'.all (evaluable E query) <;> simp

end Loops

/-! ## The link keys -/

section Gather

variable {E : Env} {R : Reader} {query : QJsonObject}

/-- The entry that is looked up for a key of the query. -/
def entryOf (E : Env) (R : Reader) (f : QString × QJsonValue) : Option (List QByteArray) :=
  if f.1 = qs "_id" then none
  else (consultedIndex R.getIndexes f.1 f.2).bind fun indexName =>
    R.getIndexValueLinkKeys E indexName f.2

/-- What a key of the query adds: an `_id` its version keys, a consulted index its entry, to
which the link keys before are cut down. -/
def gather (E : Env) (R : Reader) (linkKeys : Option (List QByteArray))
    (f : QString × QJsonValue) : Option (List QByteArray) :=
  if f.1 = qs "_id" then some (linkKeys.getD [] ++ idLinkKeys R.snapshotId f.2)
  else
    match entryOf E R f with
    | none => linkKeys
    | some entry => some (linkKeys.elim entry fun linkKeys =>
        (multiply E linkKeys entry).getD (E.afterErase linkKeys entry))

/-- The documents that the link keys of a query name, with these link keys. -/
def candidates (E : Env) (R : Reader) (query : QJsonObject) : List (QJsonValue × QByteArray) :=
  ((query.foldl (gather E R) none).getD []).map fun k => (R.getJsonValueByLinkKey k, k)

/-- Each time that link keys are cut down to a further entry, `multiply` stays in its list; a
missing entry ends the loop over the keys. -/
def IntersectionsEnd (E : Env) (R : Reader) : QJsonObject → Option (List QByteArray) → Prop
  | [], _ => True
  | f :: query, linkKeys =>
    (∀ keys ∈ linkKeys, ∀ entry ∈ entryOf E R f, (multiply E keys entry).isSome) ∧
      (EntriesThere E R R.getIndexes [f] → IntersectionsEnd E R query (gather E R linkKeys f))

/-- **The loop over the keys**, with an entry for each index that is consulted. -/
theorem findLinkKeys_eq (h : EntriesThere E R R.getIndexes query)
    (linkKeys : Option (List QByteArray)) :
    findLinkKeys E R R.getIndexes query linkKeys = .ok (query.foldl (gather E R) linkKeys) := by
  induction query generalizing linkKeys with
  | nil => rfl
  | cons f query ih =>
    obtain ⟨key, operand⟩ := f
    have hrest : EntriesThere E R R.getIndexes query := fun f hf => h f (List.mem_cons_of_mem _ hf)
    rw [findLinkKeys, List.foldl_cons, gather, entryOf]
    by_cases hid : key = qs "_id"
    · simp only [if_pos hid]
      exact ih hrest _
    · simp only [if_neg hid]
      cases hindex : consultedIndex R.getIndexes key operand with
      | none => exact ih hrest _
      | some indexName =>
        have hthere := h (key, operand) List.mem_cons_self hid indexName hindex
        obtain ⟨entry, hentry⟩ := Option.isSome_iff_exists.mp hthere
        rw [Option.bind_some, hentry]
        simp only [hentry]
        cases linkKeys with
        | none => exact ih hrest _
        | some linkKeys => exact ih hrest _

/-- **The loop over the keys returns** when the intersections stay in their lists. -/
theorem isSome_findLinkKeys?_iff (linkKeys : Option (List QByteArray)) :
    (findLinkKeys? E R R.getIndexes query linkKeys).isSome ↔
      IntersectionsEnd E R query linkKeys := by
  induction query generalizing linkKeys with
  | nil => exact iff_of_true rfl trivial
  | cons f query ih =>
    obtain ⟨key, operand⟩ := f
    rw [findLinkKeys?, IntersectionsEnd, gather, entryOf]
    by_cases hid : key = qs "_id"
    · have hthere : EntriesThere E R R.getIndexes [(key, operand)] := by
        rintro f hf hne
        obtain rfl := List.mem_singleton.mp hf
        exact absurd hid hne
      simp only [if_pos hid]
      exact (ih _).trans (by simp [hthere])
    · simp only [if_neg hid]
      cases hindex : consultedIndex R.getIndexes key operand with
      | none =>
        have hthere : EntriesThere E R R.getIndexes [(key, operand)] := by
          rintro f hf - indexName hsome
          obtain rfl := List.mem_singleton.mp hf
          rw [hindex] at hsome
          cases hsome
        exact (ih _).trans (by simp [hthere])
      | some indexName =>
        have hthere : EntriesThere E R R.getIndexes [(key, operand)] ↔
            (R.getIndexValueLinkKeys E indexName operand).isSome := by
          constructor
          · exact fun h => h (key, operand) (List.mem_singleton_self _) hid indexName hindex
          · rintro hsome f hf - indexName' hindex'
            obtain rfl := List.mem_singleton.mp hf
            obtain rfl := Option.some.inj (hindex.symm.trans hindex')
            exact hsome
        rw [hthere, Option.bind_some]
        cases hentry : R.getIndexValueLinkKeys E indexName operand with
        | none => simp [hentry]
        | some entry =>
          simp only [hentry]
          cases linkKeys with
          | none => exact (ih _).trans (by simp)
          | some linkKeys =>
            cases hmultiply : multiply E linkKeys entry with
            | none => simp [hmultiply]
            | some linkKeys' => simpa [hmultiply] using ih (some linkKeys')

/-- **From link keys** `find` is the loop over the candidates. -/
theorem find_eq_collectValid (hindexed : Indexed R.getIndexes query)
    (hthere : EntriesThere E R R.getIndexes query) (options : QJsonObject) :
    find E R query options = collectValid E query (candidates E R query) := by
  obtain ⟨linkKeys, hfind, hsome⟩ := findLinkKeys_of_entriesThere hthere none
  obtain ⟨linkKeys, rfl⟩ := Option.isSome_iff_exists.mp (hsome.mpr (.inr hindexed))
  have hgather := (findLinkKeys_eq hthere none).symm.trans hfind
  rw [find, hfind, candidates, Except.ok.inj hgather]
  rfl

/-- **find returns** when the intersections stay in their lists. -/
theorem find?_eq_some_iff {options : QJsonObject}
    {r : ResultEnum × List (QJsonValue × QByteArray)} :
    find? E R query options = some r ↔
      IntersectionsEnd E R query none ∧ find E R query options = r := by
  rw [← isSome_findLinkKeys?_iff none]
  constructor
  · intro h
    refine ⟨?_, find_of_find? h⟩
    rw [find?] at h
    have hsome := congrArg Option.isSome h
    rwa [Option.isSome_map] at hsome
  · rintro ⟨hends, rfl⟩
    obtain ⟨linkKeys, hkeys⟩ := Option.isSome_iff_exists.mp hends
    have hfind : find? E R query options = some (findFrom E R query options linkKeys) := by
      rw [find?, hkeys, Option.map_some]
    rw [find_of_find? hfind, hfind]

/-- Where no key helps there is nothing to intersect. -/
theorem intersectionsEnd_of_not_indexed (h : ¬ Indexed R.getIndexes query)
    (linkKeys : Option (List QByteArray)) : IntersectionsEnd E R query linkKeys := by
  induction query generalizing linkKeys with
  | nil => trivial
  | cons f query ih =>
    have hfirst : ¬ Helps R.getIndexes f := fun hf => h ⟨f, List.mem_cons_self, hf⟩
    have hrest : ¬ Indexed R.getIndexes query := fun ⟨g, hg, hhelps⟩ =>
      h ⟨g, List.mem_cons_of_mem _ hg, hhelps⟩
    refine ⟨fun keys _ entry hentry => ?_, fun _ => ih hrest _⟩
    have hnone : entryOf E R f = none := by
      rw [Helps, not_or, Option.not_isSome_iff_eq_none] at hfirst
      rw [entryOf, if_neg hfirst.1, hfirst.2, Option.bind_none]
    rw [hnone] at hentry
    cases hentry

end Gather

/-! ## What the unset flags decide -/

/-- The environment with other contents of the unset flags. -/
def Env.withFlags (E : Env) (flags : QJsonValue → List ℕ → Bool) : Env :=
  { E with uninitialized := flags }

/-- With some contents of the unset flags the query comes to `r` on the document. -/
def MayComeTo (query : QJsonObject) (v : QJsonValue) (r : Option Bool) : Prop :=
  v.isObject = true ∧ ∃ junk, checkValidR junk (.object query) v [] true = r

instance (query : QJsonObject) (v : QJsonValue) (r : Option Bool) :
    Decidable (MayComeTo query v r) :=
  decidable_of_iff (v.isObject = true ∧ (outcomes (.object query) v (.certain true)).has r = true)
    (and_congr_right fun _ => ((realizes_checkValidR (.object query) v [] true).outcome r).symm)

/-- The query cannot be evaluated on the document, whatever the flags hold. -/
def Breaks (query : QJsonObject) (v : QJsonValue) : Prop :=
  v.isObject = true ∧ ∀ b, ¬ MayComeTo query v (some b)

instance (query : QJsonObject) (v : QJsonValue) : Decidable (Breaks query v) :=
  inferInstanceAs (Decidable (_ ∧ ∀ _ : Bool, _))

/-- The query comes to one value on the document, whatever the flags hold. -/
def Certain (query : QJsonObject) (v : QJsonValue) : Prop :=
  v.isObject = true → ∃ b, ∀ r, MayComeTo query v r → r = some b

instance (query : QJsonObject) (v : QJsonValue) : Decidable (Certain query v) :=
  inferInstanceAs (Decidable (_ → ∃ _ : Bool, ∀ _ : Option Bool, _))

/-- The candidates before the first document that the query cannot be evaluated on. -/
def reached (query : QJsonObject) (l : List (QJsonValue × QByteArray)) :
    List (QJsonValue × QByteArray) :=
  l.takeWhile fun e => decide (¬ Breaks query e.1)

/-- None of the candidates that are reached can satisfy the query. -/
def Barren (query : QJsonObject) (l : List (QJsonValue × QByteArray)) : Prop :=
  ∀ e ∈ reached query l, ¬ MayComeTo query e.1 (some true)

instance (query : QJsonObject) (l : List (QJsonValue × QByteArray)) :
    Decidable (Barren query l) :=
  inferInstanceAs (Decidable (∀ e ∈ _, _))

/-- The query comes to one value on each candidate up to one from which on nothing can be
found. -/
def Steady (query : QJsonObject) (l : List (QJsonValue × QByteArray)) : Prop :=
  Barren query (l.dropWhile fun e => decide (Certain query e.1))

instance (query : QJsonObject) (l : List (QJsonValue × QByteArray)) :
    Decidable (Steady query l) :=
  inferInstanceAs (Decidable (Barren _ _))

section Flags

variable {E : Env} {R : Reader} {query : QJsonObject} {l : List (QJsonValue × QByteArray)}
  {e : QJsonValue × QByteArray}

theorem checkQuery_withFlags (flags : QJsonValue → List ℕ → Bool) (v : QJsonValue) :
    checkQuery (E.withFlags flags) query v = checkValidR (flags v) (.object query) v [] true := rfl

theorem mayComeTo_of_selects {flags : QJsonValue → List ℕ → Bool}
    (h : selects (E.withFlags flags) query e = true) : MayComeTo query e.1 (some true) := by
  rw [selects, Bool.and_eq_true, decide_eq_true_eq] at h
  exact ⟨h.1, flags e.1, h.2⟩

theorem mayComeTo_none_of_not_evaluable {flags : QJsonValue → List ℕ → Bool}
    (h : evaluable (E.withFlags flags) query e = false) : MayComeTo query e.1 none := by
  rw [evaluable, Bool.or_eq_false_iff, Bool.not_eq_false', Option.isSome_eq_false_iff,
    Option.isNone_iff_eq_none] at h
  exact ⟨h.1, flags e.1, h.2⟩

theorem mayComeTo_none_iff : MayComeTo query e.1 none ↔
    ∃ flags, evaluable (E.withFlags flags) query e = false := by
  refine ⟨fun ⟨hobject, junk, hjunk⟩ => ⟨fun _ => junk, ?_⟩, fun ⟨flags, h⟩ =>
    mayComeTo_none_of_not_evaluable h⟩
  rw [evaluable, hobject, checkQuery_withFlags, hjunk]
  rfl

/-- A document that breaks the loop may only fail. -/
theorem Breaks.not_evaluable (h : Breaks query e.1) (flags : QJsonValue → List ℕ → Bool) :
    evaluable (E.withFlags flags) query e = false := by
  rw [evaluable, h.1, checkQuery_withFlags]
  cases hcheck : checkValidR (flags e.1) (.object query) e.1 [] true with
  | none => rfl
  | some b => exact absurd ⟨h.1, flags e.1, hcheck⟩ (h.2 b)

theorem not_breaks_of_evaluable {flags : QJsonValue → List ℕ → Bool}
    (h : evaluable (E.withFlags flags) query e = true) : ¬ Breaks query e.1 := fun hbreaks => by
  rw [hbreaks.not_evaluable flags] at h
  cases h

/-- With some contents, the loop only ends where it has to. -/
theorem exists_flags (E : Env) (query : QJsonObject) : ∃ flags : QJsonValue → List ℕ → Bool,
    ∀ e : QJsonValue × QByteArray, ¬ Breaks query e.1 →
      evaluable (E.withFlags flags) query e = true := by
  have hjunk : ∀ v, ∃ junk : List ℕ → Bool, v.isObject = true → ¬ Breaks query v →
      (checkValidR junk (.object query) v [] true).isSome = true := by
    intro v
    by_cases hv : ∃ b, MayComeTo query v (some b)
    · obtain ⟨b, -, junk, hjunk⟩ := hv
      exact ⟨junk, fun _ _ => by rw [hjunk, Option.isSome_some]⟩
    · exact ⟨fun _ => false, fun hobject hbreaks =>
        absurd ⟨hobject, fun b hb => hv ⟨b, hb⟩⟩ hbreaks⟩
  choose flags hflags using hjunk
  refine ⟨flags, fun e he => ?_⟩
  rw [evaluable, checkQuery_withFlags]
  cases hobject : e.1.isObject with
  | false => rfl
  | true => exact hflags e.1 hobject he

/-- And one document can be chosen to satisfy the query, if it may. -/
theorem exists_flags_selects (E : Env) (h : MayComeTo query e.1 (some true)) :
    ∃ flags : QJsonValue → List ℕ → Bool, selects (E.withFlags flags) query e = true ∧
      ∀ e' : QJsonValue × QByteArray, ¬ Breaks query e'.1 →
        evaluable (E.withFlags flags) query e' = true := by
  obtain ⟨hobject, junk, hjunk⟩ := h
  obtain ⟨flags, hflags⟩ := exists_flags E query
  refine ⟨Function.update flags e.1 junk, ?_, fun e' he' => ?_⟩
  · rw [selects, hobject, checkQuery_withFlags, Function.update_self, hjunk]
    rfl
  · rw [evaluable, checkQuery_withFlags]
    by_cases heq : e'.1 = e.1
    · rw [heq, Function.update_self, hjunk, Option.isSome_some, Bool.or_true]
    · rw [Function.update_of_ne heq]
      exact hflags e' he'

theorem mem_takeWhile_of_imp {α : Type*} {p q : α → Bool} {l : List α} {x : α}
    (h : ∀ y, p y = true → q y = true) (hx : x ∈ l.takeWhile p) : x ∈ l.takeWhile q := by
  have heq : l.takeWhile p = (l.takeWhile q).takeWhile p := by
    rw [List.takeWhile_takeWhile]
    refine congrArg (fun p => l.takeWhile p) (funext fun y => ?_)
    cases hp : p y <;> simp [h y, hp]
  rw [heq] at hx
  exact List.takeWhile_subset _ hx

/-- **All loops reply with nothing** when no document that is reached can satisfy the query. -/
theorem forall_snd_eq_nil_iff :
    (∀ flags, (collectValid (E.withFlags flags) query l).2 = []) ↔ Barren query l := by
  simp only [collectValid_snd_eq_nil]
  constructor
  · intro h e he htrue
    obtain ⟨flags, hselects, hflags⟩ := exists_flags_selects E htrue
    have hmem : e ∈ l.takeWhile (evaluable (E.withFlags flags) query) :=
      mem_takeWhile_of_imp (fun e' he' => hflags e' (of_decide_eq_true he')) he
    rw [h flags e hmem] at hselects
    cases hselects
  · intro h flags e he
    refine Bool.eq_false_iff.mpr fun hselects => h e ?_ (mayComeTo_of_selects hselects)
    exact mem_takeWhile_of_imp
      (fun e' he' => decide_eq_true (not_breaks_of_evaluable he')) he

/-- **All loops go through** when the query may fail on none of the documents. -/
theorem forall_fst_eq_success_iff :
    (∀ flags, (collectValid (E.withFlags flags) query l).1 = .success) ↔
      ∀ e ∈ l, ¬ MayComeTo query e.1 none := by
  simp only [collectValid_fst, List.all_eq_true]
  constructor
  · intro h e he hfails
    obtain ⟨flags, hflags⟩ := (mayComeTo_none_iff (E := E)).mp hfails
    rw [h flags e he] at hflags
    cases hflags
  · intro h flags e he
    by_contra hfails
    exact h e he (mayComeTo_none_of_not_evaluable (Bool.eq_false_iff.mpr hfails))

/-- **No loop goes through** when there is a document on which the query has to fail. -/
theorem forall_fst_ne_success_iff :
    (∀ flags, (collectValid (E.withFlags flags) query l).1 ≠ .success) ↔
      ∃ e ∈ l, Breaks query e.1 := by
  simp only [ne_eq, collectValid_fst, List.all_eq_true]
  constructor
  · intro h
    obtain ⟨flags, hflags⟩ := exists_flags E query
    by_contra hnone
    push Not at hnone
    exact h flags fun e he => hflags e (hnone e he)
  · rintro ⟨e, he, hbreaks⟩ flags h
    exact not_breaks_of_evaluable (h e he) hbreaks

/-! ### One reply -/

theorem Certain.evaluable (h : Certain query e.1) (flags : QJsonValue → List ℕ → Bool) :
    evaluable (E.withFlags flags) query e = true := by
  by_contra hfails
  have hnone := mayComeTo_none_of_not_evaluable (Bool.eq_false_iff.mpr hfails)
  obtain ⟨b, hb⟩ := h hnone.1
  cases hb _ hnone

theorem Certain.selects_eq (h : Certain query e.1) (flags flags' : QJsonValue → List ℕ → Bool) :
    selects (E.withFlags flags) query e = selects (E.withFlags flags') query e := by
  rw [selects, selects, checkQuery_withFlags, checkQuery_withFlags]
  cases hobject : e.1.isObject with
  | false => rfl
  | true =>
    obtain ⟨b, hb⟩ := h hobject
    rw [hb _ ⟨hobject, flags e.1, rfl⟩, hb _ ⟨hobject, flags' e.1, rfl⟩]

/-- The loop over documents that the query is certain on, and over others behind them. -/
theorem collectValid_append_snd (l' : List (QJsonValue × QByteArray))
    (h : ∀ e ∈ l, Certain query e.1) (flags : QJsonValue → List ℕ → Bool) :
    (collectValid (E.withFlags flags) query (l ++ l')).2 =
      l.filter (selects (E.withFlags flags) query) ++
        (collectValid (E.withFlags flags) query l').2 := by
  rw [collectValid_spec, collectValid_spec,
    List.takeWhile_append_of_pos fun e he => (h e he).evaluable flags, List.filter_append]

/-- What is not certain may fail, or may come to both values. -/
theorem mayComeTo_of_not_certain (h : ¬ Certain query e.1) :
    MayComeTo query e.1 none ∨ ∀ b, MayComeTo query e.1 (some b) := by
  by_contra hnot
  push Not at hnot
  obtain ⟨hnone, b, hb⟩ := hnot
  refine h fun _ => ⟨!b, fun r hr => ?_⟩
  rcases r with _ | b'
  · exact absurd hr hnone
  · by_cases heq : b' = b
    · exact absurd (heq ▸ hr) hb
    · rw [Bool.eq_not_of_ne heq]

/-- When the first document is not certain, loops that reply alike reply with nothing. -/
theorem barren_of_not_certain (hfirst : ¬ Certain query e.1)
    (h : ∀ flags flags', (collectValid (E.withFlags flags) query (e :: l)).2.map Prod.fst =
      (collectValid (E.withFlags flags') query (e :: l)).2.map Prod.fst) :
    Barren query (e :: l) := by
  refine (forall_snd_eq_nil_iff (E := E)).mp fun flags => ?_
  rcases mayComeTo_of_not_certain hfirst with hnone | hboth
  · obtain ⟨flags', hfails⟩ := (mayComeTo_none_iff (E := E)).mp hnone
    have hnil := h flags flags'
    rw [collectValid_spec (E.withFlags flags'), List.takeWhile_cons_of_neg (by simp [hfails])]
      at hnil
    exact List.map_eq_nil_iff.mp hnil
  · obtain ⟨hobject, junk, hjunk⟩ := hboth true
    obtain ⟨-, junk', hjunk'⟩ := hboth false
    have hselects : selects (E.withFlags fun _ => junk) query e = true := by
      rw [selects, hobject, checkQuery_withFlags, hjunk]
      rfl
    have hevaluable : evaluable (E.withFlags fun _ => junk) query e = true := by
      rw [evaluable, checkQuery_withFlags, hjunk, Option.isSome_some, Bool.or_true]
    have hmem : e.1 ∈ (collectValid (E.withFlags fun _ => junk) query (e :: l)).2.map Prod.fst := by
      rw [collectValid_spec, List.takeWhile_cons_of_pos hevaluable,
        List.filter_cons_of_pos hselects]
      exact List.mem_cons_self
    rw [h _ fun _ => junk', collectValid_spec] at hmem
    obtain ⟨e', he', heq⟩ := List.mem_map.mp hmem
    have hskips := (List.mem_filter.mp he').2
    rw [selects, checkQuery_withFlags, heq, hobject, hjunk'] at hskips
    cases hskips

/-- **All loops reply with the same documents** when the query is certain on each one up to one
from which on nothing can be found. -/
theorem forall_docs_eq_iff :
    (∀ flags flags', (collectValid (E.withFlags flags) query l).2.map Prod.fst =
      (collectValid (E.withFlags flags') query l).2.map Prod.fst) ↔ Steady query l := by
  have hsplit := List.takeWhile_append_dropWhile (p := fun e => decide (Certain query e.1)) (l := l)
  have hcertain : ∀ e ∈ l.takeWhile fun e => decide (Certain query e.1), Certain query e.1 := by
    intro e he
    have hdecide := List.mem_takeWhile_imp he
    exact of_decide_eq_true hdecide
  have hreply := fun flags => collectValid_append_snd (E := E)
    (l.dropWhile fun e => decide (Certain query e.1)) hcertain flags
  have hfilter : ∀ flags flags' : QJsonValue → List ℕ → Bool,
      (l.takeWhile fun e => decide (Certain query e.1)).filter
          (selects (E.withFlags flags) query) =
        (l.takeWhile fun e => decide (Certain query e.1)).filter
          (selects (E.withFlags flags') query) := fun flags flags' =>
    List.filter_congr fun e he => (hcertain e he).selects_eq flags flags'
  simp only [hsplit] at hreply
  rw [Steady]
  constructor
  · intro h
    have hrest : ∀ flags flags' : QJsonValue → List ℕ → Bool,
        (collectValid (E.withFlags flags) query
          (l.dropWhile fun e => decide (Certain query e.1))).2.map Prod.fst =
        (collectValid (E.withFlags flags') query
          (l.dropWhile fun e => decide (Certain query e.1))).2.map Prod.fst := by
      intro flags flags'
      have heq := h flags flags'
      rw [hreply, hreply, hfilter flags flags', List.map_append, List.map_append] at heq
      exact List.append_cancel_left heq
    cases hdrop : l.dropWhile fun e => decide (Certain query e.1) with
    | nil => exact List.forall_mem_nil _
    | cons e rest =>
      have hfirst := List.head?_dropWhile_not (fun e => decide (Certain query e.1)) l
      rw [hdrop] at hrest hfirst
      exact barren_of_not_certain (by simpa using hfirst) hrest
  · intro h flags flags'
    rw [hreply, hreply, forall_snd_eq_nil_iff.mpr h, forall_snd_eq_nil_iff.mpr h,
      hfilter flags flags']

/-! ### The link keys -/

theorem intersectionsEnd_withFlags (flags : QJsonValue → List ℕ → Bool)
    (linkKeys : Option (List QByteArray)) :
    IntersectionsEnd (E.withFlags flags) R query linkKeys ↔
      IntersectionsEnd E R query linkKeys := by
  induction query generalizing linkKeys with
  | nil => exact Iff.rfl
  | cons f query ih => exact and_congr_right fun _ => imp_congr_right fun _ => ih _

theorem find?_withFlags_eq_some_iff (hindexed : Indexed R.getIndexes query)
    (hthere : EntriesThere E R R.getIndexes query) (options : QJsonObject)
    (flags : QJsonValue → List ℕ → Bool) {r : ResultEnum × List (QJsonValue × QByteArray)} :
    find? (E.withFlags flags) R query options = some r ↔ IntersectionsEnd E R query none ∧
      collectValid (E.withFlags flags) query (candidates E R query) = r := by
  have hthere' : EntriesThere (E.withFlags flags) R R.getIndexes query := hthere
  rw [find?_eq_some_iff, intersectionsEnd_withFlags,
    find_eq_collectValid hindexed hthere']
  exact Iff.rfl

/-- Without an entry there is an error, if `find` returns. -/
theorem fst_of_find?_of_not_entriesThere (hthere : ¬ EntriesThere E R R.getIndexes query)
    {options : QJsonObject} {flags : QJsonValue → List ℕ → Bool}
    {r : ResultEnum × List (QJsonValue × QByteArray)}
    (h : find? (E.withFlags flags) R query options = some r) : r.1 = .errorDatabase := by
  have hthere' : ¬ EntriesThere (E.withFlags flags) R R.getIndexes query := hthere
  rw [← find_of_find? h, find_of_not_entriesThere options hthere']

end Flags

end Qdocdb
