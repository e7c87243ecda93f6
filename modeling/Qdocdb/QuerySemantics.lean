import Qdocdb.Query

/-!
# What a query means

A well-formed query denotes a predicate on JSON values (`Sat`): the conjunction of what its
keys say, where a key with a `$` speaks about the value itself and any other key about the
value at that path. `checkValidR` evaluates a query with accumulators and loops that stop
early; on well-formed queries it computes the denotation (`checkValidR_of_wellFormed`),
whatever its uninitialised variables hold.
-/

namespace Qdocdb

/-! ## Well-formed queries -/

/-- The comparison operators. -/
def comparisons : List QString := [qs "$gt", qs "$gte", qs "$lt", qs "$lte"]

mutual

/-- An object all of whose keys have the operands they ask for. -/
inductive WellFormed : QJsonValue → Prop
  | query {fields : QJsonObject} (h : ∀ f ∈ fields, WellFormedField f.1 f.2) :
    WellFormed (.object fields)

/-- A key of a query with its operand. -/
inductive WellFormedField : QString → QJsonValue → Prop
  | defined (b : Bool) : WellFormedField (qs "$exists") (.bool b)
  | comparison {key : QString} (h : key ∈ comparisons) (operand : QJsonValue) :
    WellFormedField key operand
  | member (queryArray : List QJsonValue) : WellFormedField (qs "$in") (.array queryArray)
  | disjunction {queryArray : List QJsonValue} (h : ∀ q ∈ queryArray, WellFormed q) :
    WellFormedField (qs "$or") (.array queryArray)
  | conjunction {queryArray : List QJsonValue} (h : ∀ q ∈ queryArray, WellFormed q) :
    WellFormedField (qs "$and") (.array queryArray)
  | negation {query : QJsonValue} (h : WellFormed query) : WellFormedField (qs "$not") query
  | path {key : QString} (hkey : key.head? ≠ some 36) {query : QJsonValue}
    (h : WellFormed query) : WellFormedField key query
  | literal {key : QString} (hkey : key.head? ≠ some 36) {operand : QJsonValue}
    (h : operand.isObject = false) : WellFormedField key operand

end

/-! ## The denotation -/

mutual

/-- The value satisfies the query. -/
def Sat (query doc : QJsonValue) : Prop :=
  match query with
  | .object fields => ∀ f, f ∈ fields → SatField f.1 f.2 doc
  | _ => True
termination_by (sizeOf query, 1)
decreasing_by
  have := List.sizeOf_lt_of_mem ‹f ∈ fields›
  cases f
  simp_all
  omega

/-- The value satisfies what a key of a query says. -/
def SatField (key : QString) (operand doc : QJsonValue) : Prop :=
  if key = qs "$exists" then operand.toBool = true ↔ doc ≠ .undefined
  else if key ∈ comparisons then compare doc operand key = true
  else if key = qs "$in" then ∃ v ∈ operand.toArray, doc.eq v = true
  else if key = qs "$or" then
    match operand with
    | .array queryArray => ∃ q, ∃ _ : q ∈ queryArray, Sat q doc
    | _ => False
  else if key = qs "$and" then
    match operand with
    | .array queryArray => ∀ q, q ∈ queryArray → Sat q doc
    | _ => True
  else if key = qs "$not" then ¬ Sat operand doc
  else if operand.isObject = true then Sat operand (getJsonValueByPath doc key)
  else
    match getJsonValueByPath doc key with
    | .array docArray => ∃ v ∈ docArray, v.eq operand = true
    | docValue => docValue.eq operand = true
termination_by (sizeOf operand, 2)
decreasing_by
  all_goals first
    | exact Prod.Lex.right _ (by decide)
    | exact Prod.Lex.left _ _ (by have hlt := List.sizeOf_lt_of_mem ‹_ ∈ queryArray›; simp_all; omega)

end

theorem sat_object {fields : QJsonObject} {doc : QJsonValue} :
    Sat (.object fields) doc ↔ ∀ f ∈ fields, SatField f.1 f.2 doc := by
  rw [Sat]

section SatField

variable {key : QString} {operand doc : QJsonValue} {queryArray : List QJsonValue}

theorem satField_exists {b : Bool} :
    SatField (qs "$exists") (.bool b) doc ↔ (b = true ↔ doc ≠ .undefined) := by
  rw [SatField.eq_def, if_pos rfl, QJsonValue.toBool]

theorem satField_comparison (h : key ∈ comparisons) :
    SatField key operand doc ↔ compare doc operand key = true := by
  have hne : key ≠ qs "$exists" := by
    rintro rfl
    revert h
    decide
  rw [SatField.eq_def, if_neg hne, if_pos h]

theorem satField_in :
    SatField (qs "$in") (.array queryArray) doc ↔ ∃ v ∈ queryArray, doc.eq v = true := by
  rw [SatField.eq_def, if_neg (by decide), if_neg (by decide), if_pos rfl, QJsonValue.toArray]

theorem satField_or :
    SatField (qs "$or") (.array queryArray) doc ↔ ∃ q ∈ queryArray, Sat q doc := by
  rw [SatField.eq_def, if_neg (by decide), if_neg (by decide), if_neg (by decide), if_pos rfl]
  simp only [exists_prop]

theorem satField_and :
    SatField (qs "$and") (.array queryArray) doc ↔ ∀ q ∈ queryArray, Sat q doc := by
  rw [SatField.eq_def, if_neg (by decide), if_neg (by decide), if_neg (by decide), if_neg (by decide),
    if_pos rfl]

theorem satField_not : SatField (qs "$not") operand doc ↔ ¬ Sat operand doc := by
  rw [SatField.eq_def, if_neg (by decide), if_neg (by decide), if_neg (by decide), if_neg (by decide),
    if_neg (by decide), if_pos rfl]

/-- A key without a `$` speaks about the value at its path. -/
theorem satField_path (hkey : key.head? ≠ some 36) :
    SatField key operand doc ↔
      if operand.isObject = true then Sat operand (getJsonValueByPath doc key)
      else
        match getJsonValueByPath doc key with
        | .array docArray => ∃ v ∈ docArray, v.eq operand = true
        | docValue => docValue.eq operand = true := by
  have hne : ∀ k : QString, k.head? = some 36 → key ≠ k := by
    rintro k hk rfl
    exact hkey hk
  have hcmp : key ∉ comparisons := fun h => by
    simp only [comparisons, List.mem_cons, List.not_mem_nil, or_false] at h
    rcases h with h | h | h | h <;> exact hne _ rfl h
  rw [SatField.eq_def, if_neg (hne _ rfl), if_neg hcmp, if_neg (hne _ rfl), if_neg (hne _ rfl),
    if_neg (hne _ rfl), if_neg (hne _ rfl)]

end SatField

/-! ## The evaluator -/

section Evaluator

variable {junk : List ℕ → Bool} {docPart : QJsonValue}

/-- The loop of `$or` stops at the first query that holds, and finds one if there is one. -/
theorem checkOr_spec {queryArray : List QJsonValue}
    (h : ∀ q ∈ queryArray, ∀ pos valid, ∃ b, checkValidR junk q docPart pos valid = some b ∧
      (b = true ↔ Sat q docPart)) (pos : List ℕ) (valid1 : Bool) :
    ∃ b, checkOr junk queryArray docPart pos valid1 = some b ∧
      (b = true ↔ valid1 = true ∨ ∃ q ∈ queryArray, Sat q docPart) := by
  induction queryArray generalizing pos valid1 with
  | nil => exact ⟨valid1, by simp [checkOr], by simp⟩
  | cons q rest ih =>
    rw [checkOr]
    cases valid1 with
    | true => exact ⟨true, by simp, by simp⟩
    | false =>
      obtain ⟨b, hcheck, hb⟩ := h q List.mem_cons_self (1 :: pos) (junk pos)
      obtain ⟨b', hrest, hb'⟩ :=
        ih (fun q hq => h q (List.mem_cons_of_mem _ hq)) (0 :: pos) (false || b)
      refine ⟨b', by simpa [hcheck] using hrest, ?_⟩
      rw [hb', List.exists_mem_cons_iff, ← hb]
      simp

/-- The loop of `$and` stops at the first query that does not hold. -/
theorem checkAnd_spec {queryArray : List QJsonValue}
    (h : ∀ q ∈ queryArray, ∀ pos valid, ∃ b, checkValidR junk q docPart pos valid = some b ∧
      (b = true ↔ Sat q docPart)) (pos : List ℕ) (valid1 : Bool) :
    ∃ b, checkAnd junk queryArray docPart pos valid1 = some b ∧
      (b = true ↔ valid1 = true ∧ ∀ q ∈ queryArray, Sat q docPart) := by
  induction queryArray generalizing pos valid1 with
  | nil => exact ⟨valid1, by simp [checkAnd], by simp⟩
  | cons q rest ih =>
    rw [checkAnd]
    cases valid1 with
    | false => exact ⟨false, by simp, by simp⟩
    | true =>
      obtain ⟨b, hcheck, hb⟩ := h q List.mem_cons_self (1 :: pos) (junk pos)
      obtain ⟨b', hrest, hb'⟩ :=
        ih (fun q hq => h q (List.mem_cons_of_mem _ hq)) (0 :: pos) (true && b)
      refine ⟨b', by simpa [hcheck] using hrest, ?_⟩
      rw [hb', List.forall_mem_cons, ← hb]
      simp

/-- What a key contributes to `valid`: the loop over the keys goes on with it. -/
def Contributes (junk : List ℕ → Bool) (key : QString) (operand : QJsonValue) : Prop :=
  ∀ docPart pos, ∃ b, (b = true ↔ SatField key operand docPart) ∧ ∀ rest valid,
    checkFields junk ((key, operand) :: rest) docPart pos valid =
      checkFields junk rest docPart (0 :: pos) (valid && b)

/-- The loop over the keys is the conjunction of what they contribute. -/
theorem checkFields_spec {fields : QJsonObject} (h : ∀ f ∈ fields, Contributes junk f.1 f.2)
    (pos : List ℕ) (valid : Bool) :
    ∃ b, checkFields junk fields docPart pos valid = some b ∧
      (b = true ↔ valid = true ∧ ∀ f ∈ fields, SatField f.1 f.2 docPart) := by
  induction fields generalizing pos valid with
  | nil => exact ⟨valid, by simp [checkFields], by simp⟩
  | cons f rest ih =>
    obtain ⟨b, hb, hfield⟩ := h f List.mem_cons_self docPart pos
    obtain ⟨b', hrest, hb'⟩ :=
      ih (fun f hf => h f (List.mem_cons_of_mem _ hf)) (0 :: pos) (valid && b)
    refine ⟨b', (hfield rest valid).trans hrest, ?_⟩
    rw [hb', List.forall_mem_cons, ← hb, Bool.and_eq_true, and_assoc]

end Evaluator

/-- A query whose keys contribute what they say. -/
theorem checkValidR_of_contributes {junk : List ℕ → Bool} {fields : QJsonObject}
    (h : ∀ f ∈ fields, Contributes junk f.1 f.2) (docPart : QJsonValue) (pos : List ℕ)
    (valid : Bool) :
    ∃ b, checkValidR junk (.object fields) docPart pos valid = some b ∧
      (b = true ↔ Sat (.object fields) docPart) := by
  obtain ⟨b, hcheck, hb⟩ := @checkFields_spec junk docPart fields h pos true
  refine ⟨b, by simpa [checkValidR] using hcheck, ?_⟩
  rw [hb, sat_object]
  simp

/-- Each key of a well-formed query contributes what it says. By induction on how the query is
formed. -/
theorem contributes_of_wellFormedField {key : QString} {operand : QJsonValue}
    (h : WellFormedField key operand) (junk : List ℕ → Bool) : Contributes junk key operand := by
  refine @WellFormedField.rec
    (fun query _ => ∀ docPart pos valid, ∃ b,
      checkValidR junk query docPart pos valid = some b ∧ (b = true ↔ Sat query docPart))
    (fun key operand _ => Contributes junk key operand)
    ?query ?defined ?comparison ?member ?disjunction ?conjunction ?negation ?path ?literal
    key operand h
  case query =>
    exact fun _ hfields => checkValidR_of_contributes hfields
  case defined =>
    intro b docPart pos
    refine ⟨b == !docPart.isUndefined, ?_, fun rest valid => ?_⟩
    · rw [satField_exists]
      cases b <;> cases docPart <;> simp [QJsonValue.isUndefined]
    · rw [checkFields.eq_def]
      rfl
  case comparison =>
    intro key hkey operand docPart pos
    refine ⟨compare docPart operand key, (satField_comparison hkey).symm, fun rest valid => ?_⟩
    simp only [comparisons, List.mem_cons, List.not_mem_nil, or_false] at hkey
    rw [checkFields.eq_def]
    rcases hkey with rfl | rfl | rfl | rfl <;> rfl
  case member =>
    intro queryArray docPart pos
    refine ⟨queryArray.any fun v => docPart.eq v, ?_, fun rest valid => ?_⟩
    · rw [satField_in, List.any_eq_true]
    · rw [checkFields.eq_def]
      rfl
  case disjunction =>
    intro queryArray _ hqueries docPart pos
    obtain ⟨b, hcheck, hb⟩ :=
      checkOr_spec (fun q hq => hqueries q hq docPart) (1 :: pos) false
    refine ⟨b, by rw [hb, satField_or]; simp, fun rest valid => ?_⟩
    rw [checkFields.eq_def]
    simp only [show checkOr junk queryArray docPart (1 :: pos) false = some b from hcheck]
    rfl
  case conjunction =>
    intro queryArray _ hqueries docPart pos
    obtain ⟨b, hcheck, hb⟩ :=
      checkAnd_spec (fun q hq => hqueries q hq docPart) (1 :: pos) true
    refine ⟨b, by rw [hb, satField_and]; simp, fun rest valid => ?_⟩
    rw [checkFields.eq_def]
    simp only [hcheck]
    rfl
  case negation =>
    intro query _ hquery docPart pos
    obtain ⟨b, hcheck, hb⟩ := hquery docPart (1 :: pos) true
    refine ⟨!b, by rw [satField_not, ← hb]; simp, fun rest valid => ?_⟩
    rw [checkFields.eq_def]
    simp only [hcheck]
    rfl
  case path =>
    intro key hkey query hwf hquery docPart pos
    obtain ⟨b, hcheck, hb⟩ := hquery (getJsonValueByPath docPart key) (1 :: pos) true
    have hobject : query.isObject = true := by
      cases hwf
      rfl
    refine ⟨b, by rw [satField_path hkey, if_pos hobject, hb], fun rest valid => ?_⟩
    rw [checkFields.eq_def]
    simp [hkey, hobject, hcheck]
  case literal =>
    intro key hkey operand hobject docPart pos
    cases hvalue : getJsonValueByPath docPart key with
    | array docArray =>
      refine ⟨docArray.any fun v => v.eq operand, ?_, fun rest valid => ?_⟩
      · rw [satField_path hkey, if_neg (by simp [hobject]), hvalue, List.any_eq_true]
      · rw [checkFields.eq_def]
        simp [hkey, hobject, hvalue]
    | _ =>
      refine ⟨(getJsonValueByPath docPart key).eq operand, ?_, fun rest valid => ?_⟩
      · rw [satField_path hkey, if_neg (by simp [hobject]), hvalue]
      · rw [checkFields.eq_def]
        simp [hkey, hobject, hvalue]

/-- **The evaluator is compositional**: on a well-formed query it succeeds with the
denotation. -/
theorem checkValidR_of_wellFormed {query : QJsonValue} (h : WellFormed query)
    (junk : List ℕ → Bool) (docPart : QJsonValue) (pos : List ℕ) (valid : Bool) :
    ∃ b, checkValidR junk query docPart pos valid = some b ∧ (b = true ↔ Sat query docPart) := by
  cases h with
  | query hfields =>
    exact checkValidR_of_contributes (fun f hf => contributes_of_wellFormedField (hfields f hf) junk)
      docPart pos valid

/-- A query with nested operators: `n` is absent, or is one of two values. -/
def nestedQuery : QJsonValue :=
  .object [(qs "$or", .array
    [.object [(qs "n", .object [(qs "$exists", .bool false)])],
      .object [(qs "n", .object [(qs "$not", .object [(qs "$in", .array [.null])])])]])]

theorem wellFormed_nestedQuery : WellFormed nestedQuery := by
  refine .query (List.forall_mem_singleton.mpr (.disjunction ?_))
  refine List.forall_mem_cons.mpr ⟨?_, List.forall_mem_singleton.mpr ?_⟩
  · refine .query (List.forall_mem_singleton.mpr (.path (by decide) ?_))
    exact .query (List.forall_mem_singleton.mpr (.defined false))
  · refine .query (List.forall_mem_singleton.mpr (.path (by decide) ?_))
    refine .query (List.forall_mem_singleton.mpr (.negation ?_))
    exact .query (List.forall_mem_singleton.mpr (.member [.null]))

/-- The nested query is evaluated to its denotation. -/
theorem checkValidR_nestedQuery :
    ∃ b, checkValidR (fun _ => true) nestedQuery (.object [(qs "n", .null)]) [] true = some b ∧
      (b = true ↔ Sat nestedQuery (.object [(qs "n", .null)])) :=
  checkValidR_of_wellFormed wellFormed_nestedQuery _ _ _ _

end Qdocdb
