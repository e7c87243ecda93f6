import Mathlib.Data.Fintype.Option
import Qdocdb.Query

/-!
# The unset flags of a query

An operand of `$or` or `$and` that is no object leaves the flag of its round as it was declared,
without a value. `outcomes` reads a query with such an operand as true or false, in three-valued
logic with failures: what a query may come to is put together from what its parts may come to.
Every flag is read in one place, so the parts are independent and nothing else may happen
(`realizes_checkValidR`). The answer to a query does not depend on unset flags exactly when the
query may not come to both answers (`independent_iff`).
-/

namespace Qdocdb

/-! ## Three-valued evaluation -/

/-- What the evaluation of a part of a query may come to. -/
structure Outcomes where
  /-- it may be true -/
  yes : Bool
  /-- it may be false -/
  no : Bool
  /-- it may be `errorQuery` -/
  fails : Bool
  deriving DecidableEq

namespace Outcomes

/-- The evaluation may come to this. -/
def has (o : Outcomes) : Option Bool → Bool
  | some true => o.yes
  | some false => o.no
  | none => o.fails

/-- A value without unset flags. -/
def certain (b : Bool) : Outcomes := ⟨b, !b, false⟩

/-- A failure. -/
def failure : Outcomes := ⟨false, false, true⟩

/-- An unset flag. -/
def either : Outcomes := ⟨true, true, false⟩

/-- The other value. -/
def negate (o : Outcomes) : Outcomes := ⟨o.no, o.yes, o.fails⟩

/-- Both parts are evaluated, and both have to be true. -/
def both (o o' : Outcomes) : Outcomes where
  yes := o.yes && o'.yes
  no := o.no && (o'.yes || o'.no) || o.yes && o'.no
  fails := o.fails || (o.yes || o.no) && o'.fails

/-- The second part is evaluated when the first one is true. -/
def andThen (o o' : Outcomes) : Outcomes where
  yes := o.yes && o'.yes
  no := o.no || o.yes && o'.no
  fails := o.fails || o.yes && o'.fails

/-- The second part is evaluated when the first one is false. -/
def orElse (o o' : Outcomes) : Outcomes where
  yes := o.yes || o.no && o'.yes
  no := o.no && o'.no
  fails := o.fails || o.no && o'.fails

section

variable {o o' : Outcomes} (ho' : ∃ c, o'.has c = true) (r : Option Bool)

include ho'

/-- Evaluating both parts. -/
theorem has_both : (∃ a b, o.has a = true ∧ o'.has b = true ∧
    (a.bind fun b' => b.map (b' && ·)) = r) ↔ (o.both o').has r = true := by
  obtain ⟨y, n, e⟩ := o
  obtain ⟨y', n', e'⟩ := o'
  revert ho' r y n e y' n' e'
  decide

/-- Evaluating the second part when the first one is true. -/
theorem has_andThen : (∃ a b, o.has a = true ∧ o'.has b = true ∧
    (a.bind fun b' => if b' then b else some false) = r) ↔ (o.andThen o').has r = true := by
  obtain ⟨y, n, e⟩ := o
  obtain ⟨y', n', e'⟩ := o'
  revert ho' r y n e y' n' e'
  decide

/-- Evaluating the second part when the first one is false. -/
theorem has_orElse : (∃ a b, o.has a = true ∧ o'.has b = true ∧
    (a.bind fun b' => if b' then some true else b) = r) ↔ (o.orElse o').has r = true := by
  obtain ⟨y, n, e⟩ := o
  obtain ⟨y', n', e'⟩ := o'
  revert ho' r y n e y' n' e'
  decide

end

end Outcomes

mutual

/-- What a query may come to; `valid` is what an operand that is no object comes to. -/
def outcomes (queryPart docPart : QJsonValue) (valid : Outcomes) : Outcomes :=
  match queryPart with
  | .object fields => outcomesOfFields fields docPart
  | _ => valid

/-- What the keys of a query may come to. -/
def outcomesOfFields (fields : List (QString × QJsonValue)) (docPart : QJsonValue) : Outcomes :=
  match fields with
  | [] => .certain true
  | (key, queryValue) :: rest =>
    let valid1 : Outcomes :=
      if key.head? = some 36 then
        if key = qs "$exists" then
          match queryValue with
          | .bool b => .certain (b == !docPart.isUndefined)
          | _ => .failure
        else if key = qs "$gt" ∨ key = qs "$gte" ∨ key = qs "$lt" ∨ key = qs "$lte" then
          .certain (compare docPart queryValue key)
        else if key = qs "$in" then
          match queryValue with
          | .array queryArray => .certain (queryArray.any fun v => docPart.eq v)
          | _ => .failure
        else if key = qs "$or" then
          match queryValue with
          | .array queryArray => outcomesOfOr queryArray docPart
          | _ => .failure
        else if key = qs "$and" then
          match queryValue with
          | .array queryArray => outcomesOfAnd queryArray docPart
          | _ => .failure
        else if key = qs "$not" then (outcomes queryValue docPart (.certain true)).negate
        else .failure
      else
        let docValue := getJsonValueByPath docPart key
        if queryValue.isObject then outcomes queryValue docValue (.certain true)
        else
          match docValue with
          | .array docArray => .certain (docArray.any fun v => v.eq queryValue)
          | _ => .certain (docValue.eq queryValue)
    valid1.both (outcomesOfFields rest docPart)

/-- What an `$or` may come to: an operand is looked at when those before it are false. -/
def outcomesOfOr (queryArray : List QJsonValue) (docPart : QJsonValue) : Outcomes :=
  match queryArray with
  | [] => .certain false
  | q :: rest => (outcomes q docPart .either).orElse (outcomesOfOr rest docPart)

/-- What an `$and` may come to: an operand is looked at when those before it are true. -/
def outcomesOfAnd (queryArray : List QJsonValue) (docPart : QJsonValue) : Outcomes :=
  match queryArray with
  | [] => .certain true
  | q :: rest => (outcomes q docPart .either).andThen (outcomesOfAnd rest docPart)

end

/-! ## The flags that a part reads -/

/-- The places at or below a place. -/
def below (pos : List ℕ) : Set (List ℕ) := {p | pos <:+ p}

/-- The places below a place that the first of two parts may read; the second one reads below
`0 :: pos`. -/
def firstBelow (pos : List ℕ) : Set (List ℕ) := below pos \ below (0 :: pos)

theorem below_cons_subset (n : ℕ) (pos : List ℕ) : below (n :: pos) ⊆ below pos :=
  fun _ hp => (List.suffix_cons n pos).trans hp

theorem below_one_subset (pos : List ℕ) : below (1 :: pos) ⊆ firstBelow pos := by
  refine fun p hp => ⟨below_cons_subset 1 pos hp, fun hp' => ?_⟩
  have hsuffix : 0 :: pos <:+ 1 :: pos := List.suffix_of_suffix_length_le hp' hp (by simp)
  cases hsuffix.eq_of_length (by simp)

theorem mem_firstBelow (pos : List ℕ) : pos ∈ firstBelow pos := by
  refine ⟨List.suffix_rfl, fun hp => ?_⟩
  have hlength := List.IsSuffix.length_le hp
  rw [List.length_cons] at hlength
  omega

/-- A part of an evaluation reads no flags but those of some places, and comes to some of the
outcomes, and with the right flags to each of them. -/
structure Realizes (places : Set (List ℕ)) (f : (List ℕ → Bool) → Option Bool) (o : Outcomes) :
    Prop where
  reads : ∀ junk junk', (∀ p ∈ places, junk p = junk' p) → f junk = f junk'
  outcome : ∀ r, (∃ junk, f junk = r) ↔ o.has r = true

namespace Realizes

variable {places places' : Set (List ℕ)} {pos : List ℕ} {f g : (List ℕ → Bool) → Option Bool}
  {o o' : Outcomes}

theorem mono (h : Realizes places f o) (hsub : places ⊆ places') : Realizes places' f o where
  reads := fun junk junk' heq => h.reads junk junk' fun p hp => heq p (hsub hp)
  outcome := h.outcome

theorem certain (places : Set (List ℕ)) (b : Bool) :
    Realizes places (fun _ => some b) (.certain b) where
  reads := fun _ _ _ => rfl
  outcome := fun r => by cases r with
    | none => simp [Outcomes.has, Outcomes.certain]
    | some c => cases b <;> cases c <;> simp [Outcomes.has, Outcomes.certain]

theorem failure (places : Set (List ℕ)) : Realizes places (fun _ => none) .failure where
  reads := fun _ _ _ => rfl
  outcome := fun r => by cases r with
    | none => simp [Outcomes.has, Outcomes.failure]
    | some c => cases c <;> simp [Outcomes.has, Outcomes.failure]

theorem negate (h : Realizes places f o) :
    Realizes places (fun junk => (f junk).map (!·)) o.negate where
  reads := fun junk junk' heq => by rw [h.reads junk junk' heq]
  outcome := fun r => by
    have hnot : o.negate.has r = o.has (r.map (!·)) := by
      cases r with
      | none => rfl
      | some c => cases c <;> rfl
    rw [hnot, ← h.outcome]
    apply exists_congr
    intro junk
    cases f junk <;> cases r <;> simp

/-- Some outcome there is. -/
theorem exists_has (h : Realizes places f o) : ∃ r, o.has r = true :=
  ⟨_, (h.outcome _).mp ⟨fun _ => false, rfl⟩⟩

/-- **Two parts** are independent: the flags of one are none of the other's. -/
theorem exists_junk (hf : Realizes (firstBelow pos) f o) (hg : Realizes (below (0 :: pos)) g o')
    (junk junk' : List ℕ → Bool) : ∃ junk'', f junk'' = f junk ∧ g junk'' = g junk' := by
  classical
  refine ⟨fun p => if p ∈ below (0 :: pos) then junk' p else junk p, ?_, ?_⟩
  · apply hf.reads
    intro p hp
    rw [if_neg hp.2]
  · apply hg.reads
    intro p hp
    rw [if_pos hp]

/-- What two parts come to together, by what they come to on their own. -/
theorem combine (hf : Realizes (firstBelow pos) f o) (hg : Realizes (below (0 :: pos)) g o')
    {join : Option Bool → Option Bool → Option Bool} {o'' : Outcomes}
    (hjoin : ∀ r, (∃ a b, o.has a = true ∧ o'.has b = true ∧ join a b = r) ↔ o''.has r = true) :
    Realizes (below pos) (fun junk => join (f junk) (g junk)) o'' where
  reads := fun junk junk' heq => by
    have hfirst : f junk = f junk' := hf.reads junk junk' fun p hp => heq p hp.1
    have hsecond : g junk = g junk' :=
      hg.reads junk junk' fun p hp => heq p (below_cons_subset 0 pos hp)
    rw [hfirst, hsecond]
  outcome := fun r => by
    rw [← hjoin]
    constructor
    · rintro ⟨junk, rfl⟩
      exact ⟨_, _, (hf.outcome _).mp ⟨junk, rfl⟩, (hg.outcome _).mp ⟨junk, rfl⟩, rfl⟩
    · rintro ⟨a, b, ha, hb, rfl⟩
      obtain ⟨junk, rfl⟩ := (hf.outcome a).mpr ha
      obtain ⟨junk', rfl⟩ := (hg.outcome b).mpr hb
      obtain ⟨junk'', heq, heq'⟩ := exists_junk hf hg junk junk'
      exact ⟨junk'', by rw [heq, heq']⟩

end Realizes

/-! ## The evaluator -/

/-- An operand of `$or` or `$and`: the flag of its round is its place itself. -/
theorem realizes_operand {q docPart : QJsonValue} {pos : List ℕ}
    (h : Realizes (below (1 :: pos)) (fun junk => checkValidR junk q docPart (1 :: pos) true)
      (outcomes q docPart (.certain true))) :
    Realizes (firstBelow pos) (fun junk => checkValidR junk q docPart (1 :: pos) (junk pos))
      (outcomes q docPart .either) := by
  have hunset : Realizes (firstBelow pos) (fun junk => some (junk pos)) .either := by
    refine ⟨fun junk junk' heq => ?_, fun r => ?_⟩
    · rw [heq pos (mem_firstBelow pos)]
    · cases r with
      | none => simp [Outcomes.has, Outcomes.either]
      | some b =>
        have hyes : Outcomes.either.has (some b) = true := by cases b <;> rfl
        exact iff_of_true ⟨fun _ => b, rfl⟩ hyes
  cases q with
  | object fields =>
    simp only [checkValidR, outcomes] at h ⊢
    exact h.mono (below_one_subset pos)
  | _ =>
    simp only [checkValidR, outcomes]
    exact hunset

/-- What was found so far only adds to what the other keys come to. -/
theorem checkFields_valid (junk : List ℕ → Bool) (fields : List (QString × QJsonValue))
    (docPart : QJsonValue) (pos : List ℕ) (valid : Bool) :
    checkFields junk fields docPart pos valid =
      (checkFields junk fields docPart pos true).map (valid && ·) := by
  induction fields generalizing pos valid with
  | nil => simp [checkFields]
  | cons f rest ih =>
    rw [checkFields.eq_def, checkFields.eq_def junk _ _ _ true]
    dsimp only
    split
    · rfl
    · rename_i valid1 _
      rw [ih _ (valid && valid1), ih _ (true && valid1), Option.map_map]
      cases valid <;> simp [Function.comp_def]

/-- The next key of a query, and the keys behind it. -/
theorem realizes_cons {f : (List ℕ → Bool) → Option Bool} {o : Outcomes} {key : QString}
    {queryValue docPart : QJsonValue} {rest : List (QString × QJsonValue)} {pos : List ℕ}
    (hf : Realizes (firstBelow pos) f o)
    (hrest : Realizes (below (0 :: pos)) (fun junk => checkFields junk rest docPart (0 :: pos) true)
      (outcomesOfFields rest docPart))
    (hcheck : ∀ junk, checkFields junk ((key, queryValue) :: rest) docPart pos true =
      match f junk with
      | none => none
      | some valid1 => checkFields junk rest docPart (0 :: pos) (true && valid1))
    (hout : outcomesOfFields ((key, queryValue) :: rest) docPart =
      o.both (outcomesOfFields rest docPart)) :
    Realizes (below pos) (fun junk => checkFields junk ((key, queryValue) :: rest) docPart pos true)
      (outcomesOfFields ((key, queryValue) :: rest) docPart) := by
  have hboth := hf.combine hrest (Outcomes.has_both hrest.exists_has)
  rw [hout]
  convert hboth using 2 with junk
  rw [hcheck]
  cases f junk with
  | none => rfl
  | some valid1 => exact checkFields_valid junk rest docPart (0 :: pos) (true && valid1)

mutual

theorem realizes_checkValidR (queryPart docPart : QJsonValue) (pos : List ℕ) (valid : Bool) :
    Realizes (below pos) (fun junk => checkValidR junk queryPart docPart pos valid)
      (outcomes queryPart docPart (.certain valid)) := by
  cases queryPart with
  | object fields =>
    simp only [checkValidR, outcomes]
    exact realizes_checkFields fields docPart pos
  | _ =>
    simp only [checkValidR, outcomes]
    exact .certain _ valid

/-- **The keys** of a query: by cases on what the next key asks for. -/
theorem realizes_checkFields (fields : List (QString × QJsonValue)) (docPart : QJsonValue)
    (pos : List ℕ) :
    Realizes (below pos) (fun junk => checkFields junk fields docPart pos true)
      (outcomesOfFields fields docPart) := by
  match fields with
  | [] =>
    simp only [checkFields, outcomesOfFields]
    exact .certain _ true
  | (key, queryValue) :: rest =>
    have hrest := realizes_checkFields rest docPart (0 :: pos)
    by_cases hop : key.head? = some 36
    · by_cases hexists : key = qs "$exists"
      · subst hexists
        match queryValue with
        | .bool b =>
          exact realizes_cons (.certain _ (b == !docPart.isUndefined)) hrest
            (fun _ => by rw [checkFields.eq_def]; rfl) (by rw [outcomesOfFields.eq_def]; rfl)
        | .undefined | .null | .double _ | .string _ | .array _ | .object _ =>
          exact realizes_cons (.failure _) hrest (fun _ => by rw [checkFields.eq_def]; rfl)
            (by rw [outcomesOfFields.eq_def]; rfl)
      by_cases hcmp : key = qs "$gt" ∨ key = qs "$gte" ∨ key = qs "$lt" ∨ key = qs "$lte"
      · exact realizes_cons (.certain _ (compare docPart queryValue key)) hrest
          (fun _ => by rw [checkFields.eq_def]; simp only [if_pos hop, if_neg hexists, if_pos hcmp])
          (by rw [outcomesOfFields.eq_def]; simp only [if_pos hop, if_neg hexists, if_pos hcmp])
      by_cases hin : key = qs "$in"
      · subst hin
        match queryValue with
        | .array queryArray =>
          exact realizes_cons (.certain _ (queryArray.any fun v => docPart.eq v)) hrest
            (fun _ => by rw [checkFields.eq_def]; rfl) (by rw [outcomesOfFields.eq_def]; rfl)
        | .undefined | .null | .double _ | .string _ | .bool _ | .object _ =>
          exact realizes_cons (.failure _) hrest (fun _ => by rw [checkFields.eq_def]; rfl)
            (by rw [outcomesOfFields.eq_def]; rfl)
      by_cases hor : key = qs "$or"
      · subst hor
        match queryValue with
        | .array queryArray =>
          have hparts := realizes_checkOr queryArray docPart (1 :: pos)
          exact realizes_cons (hparts.mono (below_one_subset pos)) hrest
            (fun _ => by rw [checkFields.eq_def]; rfl) (by rw [outcomesOfFields.eq_def]; rfl)
        | .undefined | .null | .double _ | .string _ | .bool _ | .object _ =>
          exact realizes_cons (.failure _) hrest (fun _ => by rw [checkFields.eq_def]; rfl)
            (by rw [outcomesOfFields.eq_def]; rfl)
      by_cases hand : key = qs "$and"
      · subst hand
        match queryValue with
        | .array queryArray =>
          have hparts := realizes_checkAnd queryArray docPart (1 :: pos)
          exact realizes_cons (hparts.mono (below_one_subset pos)) hrest
            (fun _ => by rw [checkFields.eq_def]; rfl) (by rw [outcomesOfFields.eq_def]; rfl)
        | .undefined | .null | .double _ | .string _ | .bool _ | .object _ =>
          exact realizes_cons (.failure _) hrest (fun _ => by rw [checkFields.eq_def]; rfl)
            (by rw [outcomesOfFields.eq_def]; rfl)
      by_cases hnot : key = qs "$not"
      · subst hnot
        have hpart := (realizes_checkValidR queryValue docPart (1 :: pos) true).negate
        exact realizes_cons (hpart.mono (below_one_subset pos)) hrest
          (fun _ => by rw [checkFields.eq_def]; rfl) (by rw [outcomesOfFields.eq_def]; rfl)
      · exact realizes_cons (.failure _) hrest
          (fun _ => by
            rw [checkFields.eq_def]
            simp only [if_pos hop, if_neg hexists, if_neg hcmp, if_neg hin,
              if_neg hor, if_neg hand, if_neg hnot])
          (by
            rw [outcomesOfFields.eq_def]
            simp only [if_pos hop, if_neg hexists, if_neg hcmp, if_neg hin,
              if_neg hor, if_neg hand, if_neg hnot])
    · by_cases hobject : queryValue.isObject = true
      · have hpart :=
          realizes_checkValidR queryValue (getJsonValueByPath docPart key) (1 :: pos) true
        exact realizes_cons (hpart.mono (below_one_subset pos)) hrest
          (fun junk => by
            have hcheck := checkFields.eq_def junk ((key, queryValue) :: rest) docPart pos true
            simp only [if_neg hop, if_pos hobject] at hcheck
            exact hcheck)
          (by rw [outcomesOfFields.eq_def]; simp only [if_neg hop, if_pos hobject])
      · cases hvalue : getJsonValueByPath docPart key with
        | array docArray =>
          exact realizes_cons (.certain _ (docArray.any fun v => v.eq queryValue)) hrest
            (fun _ => by rw [checkFields.eq_def]; simp only [if_neg hop, if_neg hobject, hvalue])
            (by rw [outcomesOfFields.eq_def]; simp only [if_neg hop, if_neg hobject, hvalue])
        | _ =>
          exact realizes_cons (.certain _ ((getJsonValueByPath docPart key).eq queryValue)) hrest
            (fun _ => by rw [checkFields.eq_def]; simp only [if_neg hop, if_neg hobject, hvalue])
            (by rw [outcomesOfFields.eq_def]; simp only [if_neg hop, if_neg hobject, hvalue])

theorem realizes_checkOr (queryArray : List QJsonValue) (docPart : QJsonValue) (pos : List ℕ) :
    Realizes (below pos) (fun junk => checkOr junk queryArray docPart pos false)
      (outcomesOfOr queryArray docPart) := by
  match queryArray with
  | [] =>
    simp only [checkOr, outcomesOfOr]
    exact .certain _ false
  | q :: rest =>
    have hq := realizes_operand (realizes_checkValidR q docPart (1 :: pos) true)
    have hrest := realizes_checkOr rest docPart (0 :: pos)
    have hor := hq.combine hrest (Outcomes.has_orElse hrest.exists_has)
    rw [outcomesOfOr]
    convert hor using 2 with junk
    rw [checkOr, if_neg (by simp)]
    cases checkValidR junk q docPart (1 :: pos) (junk pos) with
    | none => rfl
    | some valid2 =>
      cases valid2 with
      | true => cases rest <;> simp [checkOr]
      | false => rfl

theorem realizes_checkAnd (queryArray : List QJsonValue) (docPart : QJsonValue) (pos : List ℕ) :
    Realizes (below pos) (fun junk => checkAnd junk queryArray docPart pos true)
      (outcomesOfAnd queryArray docPart) := by
  match queryArray with
  | [] =>
    simp only [checkAnd, outcomesOfAnd]
    exact .certain _ true
  | q :: rest =>
    have hq := realizes_operand (realizes_checkValidR q docPart (1 :: pos) true)
    have hrest := realizes_checkAnd rest docPart (0 :: pos)
    have hand := hq.combine hrest (Outcomes.has_andThen hrest.exists_has)
    rw [outcomesOfAnd]
    convert hand using 2 with junk
    rw [checkAnd, if_neg (by simp)]
    cases checkValidR junk q docPart (1 :: pos) (junk pos) with
    | none => rfl
    | some valid2 =>
      cases valid2 with
      | true => rfl
      | false => cases rest <;> simp [checkAnd]

end

/-! ## Independence -/

/-- The query may come to one outcome only. -/
def Outcomes.Settled (o : Outcomes) : Prop := ∃ r, ∀ r', o.has r' = true ↔ r' = r

/-- **The answer to a query** is the same for all contents of the unset flags exactly when the
query may not come to both answers; and with the failures, exactly when it may come to one
outcome only. -/
theorem independent_iff (query : QJsonObject) (docPart : QJsonValue) (pos : List ℕ)
    (valid : Bool) :
    ((∀ junk junk' b b', checkValidR junk (.object query) docPart pos valid = some b →
        checkValidR junk' (.object query) docPart pos valid = some b' → b = b') ↔
      ¬ ((outcomesOfFields query docPart).yes = true ∧
        (outcomesOfFields query docPart).no = true)) ∧
    ((∀ junk junk', checkValidR junk (.object query) docPart pos valid =
        checkValidR junk' (.object query) docPart pos valid) ↔
      (outcomesOfFields query docPart).Settled) := by
  have hquery := realizes_checkValidR (.object query) docPart pos valid
  simp only [outcomes] at hquery
  constructor
  · constructor
    · rintro h ⟨hyes, hno⟩
      obtain ⟨junk, hjunk⟩ := (hquery.outcome (some true)).mpr hyes
      obtain ⟨junk', hjunk'⟩ := (hquery.outcome (some false)).mpr hno
      cases h junk junk' true false hjunk hjunk'
    · intro h junk junk' b b' hb hb'
      have hmay := (hquery.outcome (some b)).mp ⟨junk, hb⟩
      have hmay' := (hquery.outcome (some b')).mp ⟨junk', hb'⟩
      cases b <;> cases b'
      · rfl
      · exact absurd ⟨hmay', hmay⟩ h
      · exact absurd ⟨hmay, hmay'⟩ h
      · rfl
  · constructor
    · intro h
      refine ⟨checkValidR (fun _ => false) (.object query) docPart pos valid, fun r' => ?_⟩
      rw [← hquery.outcome]
      constructor
      · rintro ⟨junk, rfl⟩
        exact h junk _
      · rintro rfl
        exact ⟨_, rfl⟩
    · rintro ⟨r, hr⟩ junk junk'
      have hmay := (hr _).mp ((hquery.outcome _).mp ⟨junk, rfl⟩)
      have hmay' := (hr _).mp ((hquery.outcome _).mp ⟨junk', rfl⟩)
      exact hmay.trans hmay'.symm

/-- `{"$or":[5]}` is answered by what the flag holds. -/
theorem not_independent_or :
    ¬ ∀ (query : QJsonObject) (docPart : QJsonValue) (pos : List ℕ) (valid : Bool)
      (junk junk' : List ℕ → Bool) (b b' : Bool),
      checkValidR junk (.object query) docPart pos valid = some b →
        checkValidR junk' (.object query) docPart pos valid = some b' → b = b' := by
  intro h
  have heq := h [(qs "$or", .array [.double ⟨0x4014000000000000#64⟩])] .null [] true
    (fun _ => true) (fun _ => false) true false (by decide +kernel) (by decide +kernel)
  cases heq

end Qdocdb
