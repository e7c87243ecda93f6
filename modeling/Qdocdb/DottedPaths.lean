import Qdocdb.UnsetFlags

/-!
# Dotted paths and nested queries

A path is cut at its dots, so following `p.q` is following `p` and then `q`, as long as `p` is
not empty and does not end with a dot of its own (`getJsonValueByPath_append`). A query names a
field by a path, so `{"p.q": c}` and `{"p": {"q": c}}` ask `c` of the same value. They are two
evaluations, and where `c` reads unset flags the two may differ; the nested query means the
same as the dotted one exactly when the answer of `c` does not depend on them
(`dottedSame_iff`).
-/

namespace Qdocdb

/-! ## Paths -/

theorem pathSegments_ne_nil {p : QString} (hp : p ≠ []) : pathSegments p ≠ [] := by
  cases p with
  | nil => exact absurd rfl hp
  | cons c rest =>
    rw [pathSegments]
    split
    · exact List.cons_ne_nil _ _
    · split <;> exact List.cons_ne_nil _ _

/-- A dot behind a path that does not end with one cuts there. By induction on the first path. -/
theorem pathSegments_append {p : QString} (hp : p ≠ []) (hdot : p.getLast? ≠ some 46)
    (q : QString) : pathSegments (p ++ 46 :: q) = pathSegments p ++ pathSegments q := by
  induction p with
  | nil => exact absurd rfl hp
  | cons c rest ih =>
    cases rest with
    | nil =>
      have hc : c ≠ 46 := fun h => hdot (congrArg some h)
      simp [pathSegments, hc]
    | cons d rest =>
      have hsegments := ih (List.cons_ne_nil d rest) (by rwa [List.getLast?_cons_cons] at hdot)
      rw [List.cons_append, pathSegments, pathSegments.eq_2 c (d :: rest), hsegments]
      split
      · rfl
      · obtain ⟨s, ss, hs⟩ :=
          List.exists_cons_of_ne_nil (pathSegments_ne_nil (List.cons_ne_nil d rest))
        rw [hs]
        rfl

/-- Nothing is found in what is not there. -/
theorem walkPath_undefined (ss : List QString) : walkPath .undefined ss = .undefined := by
  cases ss with
  | nil => rfl
  | cons s ss => rfl

theorem walkPath_append (v : QJsonValue) (ss ts : List QString) :
    walkPath v (ss ++ ts) = walkPath (walkPath v ss) ts := by
  induction ss generalizing v with
  | nil => rfl
  | cons s ss ih =>
    rw [List.cons_append, walkPath, walkPath]
    cases pathStep v s with
    | none => exact (walkPath_undefined ts).symm
    | some w => exact ih w

/-- **Paths**: `p.q` leads where `q` leads from where `p` leads. -/
theorem getJsonValueByPath_append {p : QString} (hp : p ≠ []) (hdot : p.getLast? ≠ some 46)
    (v : QJsonValue) (q : QString) :
    getJsonValueByPath v (p ++ 46 :: q) = getJsonValueByPath (getJsonValueByPath v p) q := by
  rw [getJsonValueByPath, pathSegments_append hp hdot, walkPath_append]
  rfl

/-! ## Queries -/

/-- What the field of a query asks of the value at its path. -/
def checkOperand (junk : List ℕ → Bool) (queryValue docValue : QJsonValue) (pos : List ℕ) :
    Option Bool :=
  if queryValue.isObject then checkValidR junk queryValue docValue pos true
  else
    match docValue with
    | .array docArray => some (docArray.any fun v => v.eq queryValue)
    | _ => some (docValue.eq queryValue)

variable {key p q : QString} {c v : QJsonValue} {junk : List ℕ → Bool} {pos : List ℕ}

/-- A query with one field. -/
theorem checkValidR_field (hkey : key.head? ≠ some 36) (valid : Bool) :
    checkValidR junk (.object [(key, c)]) v pos valid =
      checkOperand junk c (getJsonValueByPath v key) (1 :: pos) := by
  rw [checkValidR, checkFields.eq_def]
  simp only [if_neg hkey, checkFields, Bool.true_and]
  split
  · rename_i hvalid
    exact hvalid.symm
  · rename_i valid1 hvalid
    exact hvalid.symm

theorem checkOperand_of_object (hobject : c.isObject = true) :
    checkOperand junk c v pos = checkValidR junk c v pos true := by
  rw [checkOperand.eq_def, if_pos hobject]

/-- The operand comes to what `outcomes` says. -/
theorem realizes_checkOperand (hobject : c.isObject = true) (pos : List ℕ) :
    Realizes (below pos) (fun junk => checkOperand junk c v pos) (outcomes c v (.certain true)) := by
  simp only [checkOperand_of_object hobject]
  exact realizes_checkValidR c v pos true

/-- An operand that is no object is compared with the value, without a flag. -/
theorem settled_of_not_object (hobject : c.isObject ≠ true) :
    (outcomes c v (.certain true)).Settled := by
  have hcertain : outcomes c v (.certain true) = .certain true := by
    cases c with
    | object fields => exact absurd rfl hobject
    | _ => simp only [outcomes]
  rw [hcertain]
  exact ⟨some true, by decide⟩

/-- What is said of paths and queries. -/
structure DottedSame (p q : QString) (c v : QJsonValue) : Prop where
  path : getJsonValueByPath v (p ++ 46 :: q) = getJsonValueByPath (getJsonValueByPath v p) q
  query : p.head? ≠ some 36 → q.head? ≠ some 36 →
    ∀ (junk junk' : List ℕ → Bool) (pos pos' : List ℕ) (valid : Bool),
      checkValidR junk (.object [(p ++ 46 :: q, c)]) v pos valid =
        checkValidR junk' (.object [(p, .object [(q, c)])]) v pos' valid

/-- The same operand is asked of the same value, so only its unset flags may tell the two
queries apart. -/
theorem query_iff (hp : p ≠ []) (hdot : p.getLast? ≠ some 46) (hpkey : p.head? ≠ some 36)
    (hqkey : q.head? ≠ some 36) :
    (∀ (junk junk' : List ℕ → Bool) (pos pos' : List ℕ) (valid : Bool),
        checkValidR junk (.object [(p ++ 46 :: q, c)]) v pos valid =
          checkValidR junk' (.object [(p, .object [(q, c)])]) v pos' valid) ↔
      (outcomes c (getJsonValueByPath v (p ++ 46 :: q)) (.certain true)).Settled := by
  have hkey : (p ++ 46 :: q).head? ≠ some 36 := by
    rwa [List.head?_append_of_ne_nil p hp]
  have hdotted : ∀ junk pos valid, checkValidR junk (.object [(p ++ 46 :: q, c)]) v pos valid =
      checkOperand junk c (getJsonValueByPath v (p ++ 46 :: q)) (1 :: pos) :=
    fun junk pos valid => checkValidR_field hkey valid
  have hnested : ∀ junk pos valid,
      checkValidR junk (.object [(p, .object [(q, c)])]) v pos valid =
        checkOperand junk c (getJsonValueByPath v (p ++ 46 :: q)) (1 :: 1 :: pos) := by
    intro junk pos valid
    rw [checkValidR_field hpkey, checkOperand_of_object rfl, checkValidR_field hqkey,
      getJsonValueByPath_append hp hdot]
  simp only [hdotted, hnested]
  generalize getJsonValueByPath v (p ++ 46 :: q) = w
  by_cases hobject : c.isObject = true
  · constructor
    · -- one evaluation of the nested query is what the dotted one always comes to
      intro h
      refine ⟨checkOperand (fun _ => false) c w [1, 1], fun r => ?_⟩
      rw [← (realizes_checkOperand hobject [1]).outcome]
      constructor
      · rintro ⟨junk, rfl⟩
        exact h junk _ [] [] true
      · rintro rfl
        exact ⟨fun _ => false, h _ _ [] [] true⟩
    · rintro ⟨r, hr⟩ junk junk' pos pos' -
      have hfirst := (hr _).mp (((realizes_checkOperand hobject (1 :: pos)).outcome _).mp ⟨junk, rfl⟩)
      have hsecond :=
        (hr _).mp (((realizes_checkOperand hobject (1 :: 1 :: pos')).outcome _).mp ⟨junk', rfl⟩)
      exact hfirst.trans hsecond.symm
  · refine iff_of_true (fun junk junk' pos pos' _ => ?_) (settled_of_not_object hobject)
    simp only [checkOperand, if_neg hobject]

/-- **Dotted paths** mean the same as nested ones: always as paths, and in queries exactly when
the answer of the operand, for the value that it is asked of, does not depend on unset flags. -/
theorem dottedSame_iff (hp : p ≠ []) (hdot : p.getLast? ≠ some 46) (q : QString)
    (c v : QJsonValue) :
    DottedSame p q c v ↔
      (p.head? ≠ some 36 → q.head? ≠ some 36 →
        (outcomes c (getJsonValueByPath v (p ++ 46 :: q)) (.certain true)).Settled) := by
  constructor
  · intro h hpkey hqkey
    exact (query_iff hp hdot hpkey hqkey).mp (h.query hpkey hqkey)
  · intro h
    refine ⟨getJsonValueByPath_append hp hdot v q, fun hpkey hqkey => ?_⟩
    exact (query_iff hp hdot hpkey hqkey).mpr (h hpkey hqkey)

/-- `a.b` and `{"$gt": "x"}`. -/
theorem dottedSame_gt :
    DottedSame (qs "a") (qs "b") (.object [(qs "$gt", .string (qs "x"))])
        (.object [(qs "a", .object [(qs "b", .string (qs "y"))])]) ↔
      ((qs "a").head? ≠ some 36 → (qs "b").head? ≠ some 36 →
        (outcomes (.object [(qs "$gt", .string (qs "x"))])
          (getJsonValueByPath (.object [(qs "a", .object [(qs "b", .string (qs "y"))])])
            (qs "a" ++ 46 :: qs "b")) (.certain true)).Settled) :=
  dottedSame_iff (by decide) (by decide) _ _ _

/-- `{"$or": [5]}` may hold at `a.b` and not at `b` in `a`. -/
theorem not_dottedSame :
    ¬ ∀ (p q : QString) (c v : QJsonValue), p ≠ [] → p.getLast? ≠ some 46 → DottedSame p q c v := by
  intro h
  have hsame := h (qs "a") (qs "b")
    (.object [(qs "$or", .array [.double ⟨0x4014000000000000#64⟩])]) .null (by decide) (by decide)
  obtain ⟨r, hr⟩ := (query_iff (by decide) (by decide) (by decide) (by decide)).mp
    (hsame.query (by decide) (by decide))
  have hyes := (hr (some true)).mp (by decide +kernel)
  have hno := (hr (some false)).mp (by decide +kernel)
  cases hyes.trans hno.symm

end Qdocdb
