import Qdocdb.Lib.While
import Qdocdb.Options

/-!
# The options on two lists

`applyOptions` walks over the reply and over the ids with an iterator for each, in loops that
end when a condition says so, and a caller may pass no ids. `applyOptionsLists` is this walk.
The rest of the development uses a list of pairs and counts the rounds (`applyOptions`); here
both are shown to be the same, so that the loops end (`applyOptionsLists_eq`).
-/

namespace Qdocdb

/-! ## The loops -/

/-- The variables of the `$orderBy` loops; there are no ids when `pIds` is `NULL`. -/
structure OrderState where
  /-- `*pReply` -/
  reply : List QJsonValue
  /-- `*pIds` -/
  ids : Option (List QByteArray)
  /-- the position in the reply -/
  it : ℕ
  /-- the position in the ids -/
  itl : ℕ
  /-- the order values that were read -/
  valueByPathMap : PathCache
  /-- this round has swapped something -/
  swapped : Bool

/-- `v = *i; *i = *j; *j = v`. -/
def swapAt {α : Type} (l : List α) (i j : ℕ) : List α :=
  match l[i]?, l[j]? with
  | some v, some w => (l.set i w).set j v
  | _, _ => l

/-- The body of `while (it != pReply->end())`. -/
def orderStep (orderPath oper : QString) (s : OrderState) : OrderState :=
  let s' :=
    if s.it + 1 = s.reply.length then s
    else
      let (value, map) := cachedValue orderPath (s.reply.getD s.it .undefined) s.valueByPathMap
      let (value1, map) := cachedValue orderPath (s.reply.getD (s.it + 1) .undefined) map
      if compare value value1 oper then
        { s with
          reply := swapAt s.reply s.it (s.it + 1)
          ids := s.ids.map fun ids => swapAt ids s.itl (s.itl + 1)
          valueByPathMap := map
          swapped := true }
      else { s with valueByPathMap := map }
  { s' with it := s.it + 1, itl := if s.ids.isSome then s.itl + 1 else s.itl }

/-- `while (it != pReply->end())` of the `$orderBy` part. -/
def orderRound (orderPath oper : QString) (fuel : ℕ) (s : OrderState) : Option OrderState :=
  whileLoop (fun s => decide (s.it ≠ s.reply.length)) (fun s => some (orderStep orderPath oper s))
    fuel s

/-- The body of `while (swapped)`. -/
def orderAgain (orderPath oper : QString) (fuel : ℕ) (s : OrderState) : Option OrderState :=
  orderRound orderPath oper fuel { s with it := 0, itl := 0, swapped := false }

/-- `while (swapped)`. -/
def orderRounds (orderPath oper : QString) (fuel : ℕ) (s : OrderState) : Option OrderState :=
  whileLoop OrderState.swapped (orderAgain orderPath oper fuel) fuel s

/-- The variables of the `$limit` loops. -/
structure LimitState where
  /-- `*pReply` -/
  reply : List QJsonValue
  /-- `*pIds` -/
  ids : Option (List QByteArray)
  /-- the position in the reply -/
  it : ℕ
  /-- the position in the ids -/
  itl : ℕ
  /-- the documents that were kept -/
  index : ℤ

/-- `while ((it != pReply->end()) && (index < limit))`. -/
def limitKeep (limit : ℤ) (fuel : ℕ) (s : LimitState) : Option LimitState :=
  whileLoop (fun s => decide (s.it ≠ s.reply.length) && decide (s.index < limit))
    (fun s => some
      { s with
        index := s.index + 1
        it := s.it + 1
        itl := if s.ids.isSome then s.itl + 1 else s.itl }) fuel s

/-- `while (it != pReply->end())` of the `$limit` part. -/
def limitErase (fuel : ℕ) (s : LimitState) : Option LimitState :=
  whileLoop (fun s => decide (s.it ≠ s.reply.length))
    (fun s => some
      { s with
        reply := s.reply.eraseIdx s.it
        ids := s.ids.map fun ids => ids.eraseIdx s.itl }) fuel s

/-- The `$orderBy` part of `applyOptions`. -/
def orderLists (fuel : ℕ) (reply : List QJsonValue) (ids : Option (List QByteArray))
    (options : QJsonObject) : Option (List QJsonValue × Option (List QByteArray)) :=
  let (orderPath, orderUp) := orderBy options
  if orderPath = [] then some (reply, ids)
  else
    (orderRounds orderPath (if orderUp then qs "$gt" else qs "$lt") fuel
      ⟨reply, ids, 0, 0, [], true⟩).map fun s => (s.reply, s.ids)

/-- The `$limit` part of `applyOptions`. -/
def limitLists (fuel : ℕ) (reply : List QJsonValue) (ids : Option (List QByteArray))
    (limit : ℤ) : Option (List QJsonValue × Option (List QByteArray)) :=
  ((limitKeep limit fuel ⟨reply, ids, 0, 0, 0⟩).bind (limitErase fuel)).map fun s =>
    (s.reply, s.ids)

/-- `QDocCollection::applyOptions` on a reply and its ids. The fuel bounds the rounds of each
loop. -/
def applyOptionsLists (fuel : ℕ) (reply : List QJsonValue) (ids : Option (List QByteArray))
    (options : QJsonObject) : Option (List QJsonValue × Option (List QByteArray)) :=
  (if QJsonObject.contains options (qs "$orderBy") then orderLists fuel reply ids options
    else some (reply, ids)).bind fun (reply, ids) =>
      if QJsonObject.contains options (qs "$limit") then
        limitLists fuel reply ids (QJsonObject.value options (qs "$limit")).toInt
      else some (reply, ids)

/-! ## No ids -/

/-- The `$orderBy` loops without the ids. -/
def OrderState.forgetIds (s : OrderState) : OrderState := { s with ids := none, itl := 0 }

/-- The `$limit` loops without the ids. -/
def LimitState.forgetIds (s : LimitState) : LimitState := { s with ids := none, itl := 0 }

theorem orderStep_forgetIds (orderPath oper : QString) (s : OrderState) :
    orderStep orderPath oper s.forgetIds = (orderStep orderPath oper s).forgetIds := by
  unfold orderStep OrderState.forgetIds
  by_cases hend : s.it + 1 = s.reply.length
  · simp [hend]
  · simp only [if_neg hend]
    split <;> simp

theorem orderRound_forgetIds (orderPath oper : QString) (fuel : ℕ) (s : OrderState) :
    orderRound orderPath oper fuel s.forgetIds =
      (orderRound orderPath oper fuel s).map OrderState.forgetIds := by
  apply whileLoop_map
  · intro s
    rfl
  · intro s
    rw [orderStep_forgetIds]
    rfl

theorem orderRounds_forgetIds (orderPath oper : QString) (fuel : ℕ) (s : OrderState) :
    orderRounds orderPath oper fuel s.forgetIds =
      (orderRounds orderPath oper fuel s).map OrderState.forgetIds := by
  apply whileLoop_map
  · intro s
    rfl
  · intro s
    exact orderRound_forgetIds orderPath oper fuel { s with it := 0, itl := 0, swapped := false }

theorem limitKeep_forgetIds (limit : ℤ) (fuel : ℕ) (s : LimitState) :
    limitKeep limit fuel s.forgetIds = (limitKeep limit fuel s).map LimitState.forgetIds := by
  apply whileLoop_map <;> intro s <;> rfl

theorem limitErase_forgetIds (fuel : ℕ) (s : LimitState) :
    limitErase fuel s.forgetIds = (limitErase fuel s).map LimitState.forgetIds := by
  apply whileLoop_map <;> intro s <;> rfl

/-- What the options make of a reply does not depend on whether ids go along. -/
theorem applyOptionsLists_none (fuel : ℕ) (reply : List QJsonValue) (ids : List QByteArray)
    (options : QJsonObject) :
    applyOptionsLists fuel reply none options =
      (applyOptionsLists fuel reply (some ids) options).map fun out => (out.1, none) := by
  have horder : orderLists fuel reply none options =
      (orderLists fuel reply (some ids) options).map fun out => (out.1, none) := by
    simp only [orderLists]
    split
    · rfl
    · have hforget := orderRounds_forgetIds (orderBy options).1
        (if (orderBy options).2 then qs "$gt" else qs "$lt") fuel
        ⟨reply, some ids, 0, 0, [], true⟩
      rw [OrderState.forgetIds] at hforget
      rw [hforget, Option.map_map, Option.map_map]
      rfl
  have hlimit : ∀ (reply : List QJsonValue) (ids : Option (List QByteArray)) (limit : ℤ),
      limitLists fuel reply none limit =
        (limitLists fuel reply ids limit).map fun out => (out.1, none) := by
    intro reply ids limit
    have hforget := limitKeep_forgetIds limit fuel ⟨reply, ids, 0, 0, 0⟩
    rw [LimitState.forgetIds] at hforget
    rw [limitLists, limitLists, hforget]
    cases limitKeep limit fuel ⟨reply, ids, 0, 0, 0⟩ with
    | none => rfl
    | some s =>
      simp only [Option.map_some, Option.bind_some, limitErase_forgetIds, Option.map_map]
      rfl
  have hparts : (if QJsonObject.contains options (qs "$orderBy") then
        orderLists fuel reply none options else some (reply, none)) =
      (if QJsonObject.contains options (qs "$orderBy") then
        orderLists fuel reply (some ids) options
        else some (reply, some ids)).map fun out => (out.1, none) := by
    split
    · exact horder
    · rfl
  rw [applyOptionsLists, applyOptionsLists, hparts]
  cases (if QJsonObject.contains options (qs "$orderBy") then
      orderLists fuel reply (some ids) options else some (reply, some ids)) with
  | none => rfl
  | some out =>
    simp only [Option.map_some, Option.bind_some]
    split
    · exact hlimit out.1 out.2 _
    · rfl

/-! ## Pairs -/

/-- The loops over a list of pairs, in step. -/
def orderStateOf (l : List (QJsonValue × QByteArray)) (i : ℕ) (map : PathCache)
    (swapped : Bool) : OrderState :=
  ⟨l.map Prod.fst, some (l.map Prod.snd), i, i, map, swapped⟩

/-- The limit loops over a list of pairs, in step. -/
def limitStateOf (l : List (QJsonValue × QByteArray)) (i : ℕ) : LimitState :=
  ⟨l.map Prod.fst, some (l.map Prod.snd), i, i, i⟩

theorem swapAt_append {α : Type} (done : List α) (v w : α) (rest : List α) :
    swapAt (done ++ v :: w :: rest) done.length (done.length + 1) = done ++ w :: v :: rest := by
  have hv : (done ++ v :: w :: rest)[done.length]? = some v := by simp
  have hw : (done ++ v :: w :: rest)[done.length + 1]? = some w := by simp
  rw [swapAt, hv, hw]
  simp

/-- Two neighbours are compared, and swapped in both lists or in neither. -/
theorem orderStep_stateOf (orderPath oper : QString) (done : List (QJsonValue × QByteArray))
    (it it1 : QJsonValue × QByteArray) (rest : List (QJsonValue × QByteArray)) (map : PathCache)
    (swapped : Bool) :
    orderStep orderPath oper (orderStateOf (done ++ it :: it1 :: rest) done.length map swapped) =
      if compare (cachedValue orderPath it.1 map).1
          (cachedValue orderPath it1.1 (cachedValue orderPath it.1 map).2).1 oper then
        orderStateOf (done ++ it1 :: it :: rest) (done.length + 1)
          (cachedValue orderPath it1.1 (cachedValue orderPath it.1 map).2).2 true
      else
        orderStateOf (done ++ it :: it1 :: rest) (done.length + 1)
          (cachedValue orderPath it1.1 (cachedValue orderPath it.1 map).2).2 swapped := by
  have hlength : (done.map Prod.fst).length = done.length := List.length_map _
  have hlength' : (done.map Prod.snd).length = done.length := List.length_map _
  have hswap := swapAt_append (done.map Prod.fst) it.1 it1.1 (rest.map Prod.fst)
  have hswap' := swapAt_append (done.map Prod.snd) it.2 it1.2 (rest.map Prod.snd)
  rw [hlength] at hswap
  rw [hlength'] at hswap'
  unfold orderStep orderStateOf
  simp only [List.map_append, List.map_cons, hswap, hswap', Option.map_some]
  have hget : ((done.map Prod.fst) ++ it.1 :: it1.1 :: rest.map Prod.fst).getD done.length
      .undefined = it.1 := by simp [List.getD]
  have hget1 : ((done.map Prod.fst) ++ it.1 :: it1.1 :: rest.map Prod.fst).getD
      (done.length + 1) .undefined = it1.1 := by simp [List.getD]
  have hend : done.length + 1 ≠
      ((done.map Prod.fst) ++ it.1 :: it1.1 :: rest.map Prod.fst).length := by
    simp only [List.length_append, List.length_map, List.length_cons]
    omega
  rw [if_neg hend, hget, hget1]
  split <;> rfl

theorem orderRound_step (orderPath oper : QString) (fuel : ℕ) {s : OrderState}
    (h : s.it ≠ s.reply.length) :
    orderRound orderPath oper (fuel + 1) s =
      orderRound orderPath oper fuel (orderStep orderPath oper s) := by
  apply whileLoop_of_true
  · simpa using h
  · rfl

theorem orderRound_end (orderPath oper : QString) (fuel : ℕ) {s : OrderState}
    (h : s.it = s.reply.length) : orderRound orderPath oper (fuel + 1) s = some s := by
  apply whileLoop_of_false
  simpa using h

/-- **A round** walks over both lists as over the pairs, and ends. By induction on the
documents in front of the iterators. -/
theorem orderRound_stateOf (orderPath oper : QString) (done : List (QJsonValue × QByteArray))
    (it : QJsonValue × QByteArray) (rest : List (QJsonValue × QByteArray)) (map : PathCache)
    (swapped : Bool) {fuel : ℕ} (hfuel : rest.length + 1 < fuel) :
    orderRound orderPath oper fuel (orderStateOf (done ++ it :: rest) done.length map swapped) =
      some (orderStateOf (done ++ (orderPass orderPath oper it rest map).1)
        (done ++ it :: rest).length (orderPass orderPath oper it rest map).2.1
        (swapped || (orderPass orderPath oper it rest map).2.2)) := by
  induction rest generalizing done it map swapped fuel with
  | nil =>
    -- the last document has no neighbour
    obtain ⟨fuel, rfl⟩ : ∃ n, fuel = n + 1 + 1 := ⟨fuel - 2, by simp at hfuel; omega⟩
    have hstep : orderStep orderPath oper (orderStateOf (done ++ [it]) done.length map swapped) =
        orderStateOf (done ++ [it]) (done.length + 1) map swapped := by
      simp [orderStep, orderStateOf]
    rw [orderRound_step _ _ _ (by simp [orderStateOf]), hstep,
      orderRound_end _ _ _ (by simp [orderStateOf])]
    simp [orderPass, orderStateOf]
  | cons it1 rest ih =>
    obtain ⟨fuel, rfl⟩ : ∃ n, fuel = n + 1 := ⟨fuel - 1, by omega⟩
    have hfuel : rest.length + 1 < fuel := by simpa using hfuel
    rw [orderRound_step _ _ _ (by simp [orderStateOf]), orderStep_stateOf, orderPass]
    dsimp only
    split
    · have hrun := ih (done ++ [it1]) it
        (cachedValue orderPath it1.1 (cachedValue orderPath it.1 map).2).2 true hfuel
      simpa using hrun
    · have hrun := ih (done ++ [it]) it1
        (cachedValue orderPath it1.1 (cachedValue orderPath it.1 map).2).2 swapped hfuel
      simpa using hrun

/-- A round over the whole list is a pass over the pairs. -/
theorem orderAgain_of_fits {orderPath oper : QString} {orderValue : QString → QJsonValue}
    {it : QJsonValue × QByteArray} {rest : List (QJsonValue × QByteArray)} {map : PathCache}
    (hfits : CacheFits orderPath orderValue ((it :: rest).map Prod.fst) map) {fuel : ℕ}
    (hfuel : (it :: rest).length < fuel) (i : ℕ) :
    ∃ map', orderAgain orderPath oper fuel (orderStateOf (it :: rest) i map true) =
        some (orderStateOf (bubblePass (lateBy orderValue oper) it rest).1 (it :: rest).length
          map' (bubblePass (lateBy orderValue oper) it rest).2) ∧
      CacheFits orderPath orderValue [] map' ∧
      (rest ≠ [] → ∀ v ∈ (it :: rest).map Prod.fst, (map'.lookup (nameOf v)).isSome) := by
  obtain ⟨heq, hcached, hall⟩ := orderPass_spec oper it rest hfits
  refine ⟨_, ?_, hcached, fun hrest v hv => ?_⟩
  · have hrun := orderRound_stateOf orderPath oper [] it rest map false hfuel
    rw [List.nil_append, List.nil_append, Bool.false_or] at hrun
    rw [← heq]
    exact hrun
  · obtain ⟨e, he, rfl⟩ := List.mem_map.mp hv
    exact hall _ (.inr ⟨hrest, e, he, rfl⟩)

/-- **The rounds** end, with the sorted list: each of them but the last takes inversions
away. By induction on the bound of the inversions. -/
theorem orderRounds_of_fits {orderPath oper : QString} {orderValue : QString → QJsonValue}
    (hlate : ∀ e e' : QJsonValue × QByteArray, lateBy orderValue oper e e' = true →
      lateBy orderValue oper e' e = false) {rounds : ℕ} {l : List (QJsonValue × QByteArray)}
    (h : inversions (lateBy orderValue oper) l < rounds) {map : PathCache}
    (hfits : CacheFits orderPath orderValue (l.map Prod.fst) map) (i : ℕ) {fuel : ℕ}
    (hfuel : l.length < fuel) :
    ∃ map', whileLoop OrderState.swapped (orderAgain orderPath oper fuel) (rounds + 1)
      (orderStateOf l i map true) =
        some (orderStateOf (bubbleSort (lateBy orderValue oper) rounds l) l.length map' false) := by
  induction rounds generalizing l map i with
  | zero => cases h
  | succ rounds ih =>
    have hswapped : (orderStateOf l i map true).swapped = true := rfl
    cases l with
    | nil =>
      obtain ⟨fuel, rfl⟩ := Nat.exists_eq_add_of_lt hfuel
      have hround : orderAgain orderPath oper (0 + fuel + 1) (orderStateOf [] i map true) =
          some (orderStateOf [] 0 map false) := orderRound_end _ _ _ rfl
      refine ⟨map, ?_⟩
      rw [List.length_nil, whileLoop_of_true hswapped hround]
      exact whileLoop_of_false rfl _
    | cons it rest =>
      obtain ⟨map', hround, hfits', hall⟩ := orderAgain_of_fits hfits hfuel i
      have hperm : (bubblePass (lateBy orderValue oper) it rest).1.Perm (it :: rest) :=
        perm_bubblePass it rest
      rw [whileLoop_of_true hswapped hround, bubbleSort]
      cases hpass : (bubblePass (lateBy orderValue oper) it rest).2 with
      | true =>
        have hlt := (inversions_bubblePass hlate it rest).2 hpass
        have hrest : rest ≠ [] := by
          rintro rfl
          cases hpass
        have hnext : CacheFits orderPath orderValue
            ((bubblePass (lateBy orderValue oper) it rest).1.map Prod.fst) map' :=
          hfits'.of_cached fun v hv => hall hrest v ((hperm.map Prod.fst).mem_iff.mp hv)
        obtain ⟨map'', hrun⟩ := ih (by omega) hnext (it :: rest).length
          (hperm.length_eq.trans_lt hfuel)
        rw [hperm.length_eq] at hrun
        exact ⟨map'', hrun⟩
      | false => exact ⟨map', whileLoop_of_false rfl _⟩

/-- The `$orderBy` part on two lists. -/
theorem orderLists_eq (l : List (QJsonValue × QByteArray)) (options : QJsonObject) {fuel : ℕ}
    (hfuel : l.length * l.length + l.length + 1 < fuel) :
    orderLists fuel (l.map Prod.fst) (some (l.map Prod.snd)) options =
      some ((applyOrderBy l options).map Prod.fst, some ((applyOrderBy l options).map Prod.snd)) := by
  simp only [orderLists, applyOrderBy]
  split
  · rfl
  · have hfits := cacheFits_nil (orderBy options).1 (l.map Prod.fst)
    rw [orderLoop_spec _ _ hfits]
    have hle : l.length < fuel := by omega
    obtain ⟨map', hrun⟩ := orderRounds_of_fits (fun _ _ => compare_asymm)
      (Nat.lt_succ_of_le (inversions_le l)) hfits 0 hle
    have hmore := whileLoop_mono (by omega : l.length * l.length + 1 + 1 ≤ fuel) hrun
    rw [orderRounds]
    rw [orderStateOf] at hmore
    rw [hmore]
    rfl

/-! ## The limit -/

/-- The first loop goes over as many documents as the limit allows. By induction on the
documents in front of the iterators. -/
theorem limitKeep_stateOf (limit : ℤ) (l : List (QJsonValue × QByteArray)) {i fuel : ℕ}
    (hi : i ≤ min l.length limit.toNat) (hfuel : l.length < i + fuel) :
    limitKeep limit fuel (limitStateOf l i) =
      some (limitStateOf l (min l.length limit.toNat)) := by
  induction fuel generalizing i with
  | zero => omega
  | succ fuel ih =>
    by_cases hlt : i < min l.length limit.toNat
    · rw [← ih hlt (by omega)]
      apply whileLoop_of_true
      · have hlimit : (i : ℤ) < limit := by omega
        have hne : i ≠ l.length := by omega
        simp [limitStateOf, hlimit, hne]
      · simp [limitStateOf]
    · obtain rfl : i = min l.length limit.toNat := by omega
      apply whileLoop_of_false
      by_cases hend : l.length ≤ limit.toNat
      · simp [limitStateOf, hend]
      · simp [limitStateOf, Nat.min_eq_right (Nat.le_of_not_le hend)]

/-- The second loop erases what is left, in both lists. -/
theorem limitErase_stateOf (kept gone : List (QJsonValue × QByteArray)) {fuel : ℕ}
    (hfuel : gone.length < fuel) :
    limitErase fuel (limitStateOf (kept ++ gone) kept.length) =
      some (limitStateOf kept kept.length) := by
  induction gone generalizing fuel with
  | nil =>
    obtain ⟨fuel, rfl⟩ := Nat.exists_eq_add_of_lt hfuel
    rw [List.append_nil]
    apply whileLoop_of_false
    simp [limitStateOf]
  | cons e gone ih =>
    obtain ⟨fuel, rfl⟩ : ∃ n, fuel = n + 1 := ⟨fuel - 1, by simp at hfuel; omega⟩
    rw [← ih (by simpa using hfuel)]
    apply whileLoop_of_true
    · simp [limitStateOf]
    · simp [limitStateOf, List.eraseIdx_append_of_length_le]

/-- The `$limit` part on two lists. -/
theorem limitLists_eq (l : List (QJsonValue × QByteArray)) (limit : ℤ) {fuel : ℕ}
    (hfuel : l.length < fuel) :
    limitLists fuel (l.map Prod.fst) (some (l.map Prod.snd)) limit =
      some ((l.take limit.toNat).map Prod.fst, some ((l.take limit.toNat).map Prod.snd)) := by
  have hkeep := limitKeep_stateOf limit l (Nat.zero_le _) (by omega : l.length < 0 + fuel)
  have hlength : (l.take limit.toNat).length = min l.length limit.toNat := by
    rw [List.length_take, Nat.min_comm]
  have hgone : (l.drop limit.toNat).length < fuel := by
    rw [List.length_drop]
    omega
  have herase := limitErase_stateOf (l.take limit.toNat) (l.drop limit.toNat) hgone
  rw [List.take_append_drop, hlength] at herase
  have hrun : (limitKeep limit fuel
      ⟨l.map Prod.fst, some (l.map Prod.snd), 0, 0, 0⟩).bind (limitErase fuel) =
      some (limitStateOf (l.take limit.toNat) (min l.length limit.toNat)) :=
    (congrArg (Option.bind · (limitErase fuel)) hkeep).trans herase
  rw [limitLists, hrun]
  rfl

/-! ## The options -/

/-- **The walk over two lists** ends with what the options make of the pairs. -/
theorem applyOptionsLists_eq (l : List (QJsonValue × QByteArray)) (options : QJsonObject)
    {fuel : ℕ} (hfuel : l.length * l.length + l.length + 1 < fuel) :
    applyOptionsLists fuel (l.map Prod.fst) (some (l.map Prod.snd)) options =
      some ((applyOptions l options).map Prod.fst,
        some ((applyOptions l options).map Prod.snd)) := by
  have hsort : (if QJsonObject.contains options (qs "$orderBy") then
        orderLists fuel (l.map Prod.fst) (some (l.map Prod.snd)) options
        else some (l.map Prod.fst, some (l.map Prod.snd))) =
      some ((if QJsonObject.contains options (qs "$orderBy") then applyOrderBy l options
          else l).map Prod.fst,
        some ((if QJsonObject.contains options (qs "$orderBy") then applyOrderBy l options
          else l).map Prod.snd)) := by
    split
    · exact orderLists_eq l options hfuel
    · rfl
  have hperm : (if QJsonObject.contains options (qs "$orderBy") then applyOrderBy l options
      else l).Perm l := by
    split
    · exact perm_applyOrderBy l options
    · exact .refl l
  rw [applyOptionsLists, hsort, Option.bind_some, applyOptions]
  dsimp only
  split
  · apply limitLists_eq
    rw [hperm.length_eq]
    omega
  · rfl

/-- How many of `n` documents the options keep. -/
def keptOf (options : QJsonObject) (n : ℕ) : ℤ :=
  if QJsonObject.contains options (qs "$limit") then
    min n (max 0 (QJsonObject.value options (qs "$limit")).toInt)
  else n

/-- `applyOptions` ends on a reply and its ids, and on the reply alone with the same reply. -/
def EndsWith (reply : List QJsonValue) (ids : List QByteArray) (options : QJsonObject)
    (reply' : List QJsonValue) (ids' : List QByteArray) : Prop :=
  ∃ rounds, ∀ fuel ≥ rounds,
    applyOptionsLists fuel reply (some ids) options = some (reply', some ids') ∧
      applyOptionsLists fuel reply none options = some (reply', none)

/-- **In lockstep**: `applyOptions` ends; it leaves the first pairs of an arrangement of the
pairs it was given, as many as the limit asks for, and the same reply when it is given no
ids. -/
theorem applyOptions_lockstep {reply : List QJsonValue} {ids : List QByteArray}
    (h : ids.length = reply.length) (options : QJsonObject) :
    ∃ reply' ids', EndsWith reply ids options reply' ids' ∧
      ids'.length = reply'.length ∧ (reply'.length : ℤ) = keptOf options reply.length ∧
      ∃ l : List (QJsonValue × QByteArray), l.Perm (reply.zip ids) ∧
        reply'.zip ids' = l.take (keptOf options reply.length).toNat := by
  have hfst : (reply.zip ids).map Prod.fst = reply := List.map_fst_zip h.ge
  have hsnd : (reply.zip ids).map Prod.snd = ids := List.map_snd_zip h.le
  have hzip : (reply.zip ids).length = reply.length := by simp [h]
  obtain ⟨l, hperm, hcut⟩ := exists_perm_applyOptions (reply.zip ids) options
  have hlength : l.length = reply.length := hperm.length_eq.trans hzip
  have htake : applyOptions (reply.zip ids) options =
      l.take (keptOf options reply.length).toNat := by
    rw [hcut, limitOf, keptOf]
    split
    · rw [cut, List.take_eq_take_iff]
      omega
    · rw [cut, List.take_of_length_le]
      omega
  refine ⟨(applyOptions (reply.zip ids) options).map Prod.fst,
    (applyOptions (reply.zip ids) options).map Prod.snd,
    ⟨reply.length * reply.length + reply.length + 2, fun fuel hfuel => ?_⟩, ?_, ?_, l, hperm, ?_⟩
  · have hbound : (reply.zip ids).length * (reply.zip ids).length + (reply.zip ids).length + 1 <
        fuel := by
      rw [hzip]
      omega
    have hrun := applyOptionsLists_eq (reply.zip ids) options hbound
    rw [hfst, hsnd] at hrun
    refine ⟨hrun, ?_⟩
    rw [applyOptionsLists_none fuel reply ids, hrun]
    rfl
  · rw [List.length_map, List.length_map]
  · rw [List.length_map, htake, List.length_take, hlength, keptOf]
    split <;> omega
  · rw [← htake, List.zip_map']
    exact List.map_id _

/-- Two numbers, the smaller one behind, of which one is kept. -/
theorem applyOptions_lockstep_two :
    ∃ reply' ids', EndsWith [withN "a" (.double two), withN "b" (.double one)]
        [[97], [98]] (orderByN (some one)) reply' ids' ∧
      ids'.length = reply'.length ∧ (reply'.length : ℤ) = 1 ∧
      ∃ l : List (QJsonValue × QByteArray),
        l.Perm [(withN "a" (.double two), [97]), (withN "b" (.double one), [98])] ∧
        reply'.zip ids' = l.take 1 := by
  have hkept : keptOf (orderByN (some one)) 2 = 1 := by decide
  have h := @applyOptions_lockstep [withN "a" (.double two), withN "b" (.double one)]
    [[97], [98]] rfl (orderByN (some one))
  rw [List.length_cons, List.length_singleton, hkept] at h
  exact h

end Qdocdb
