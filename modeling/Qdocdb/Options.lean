import Qdocdb.Lib.Selections
import Qdocdb.Transaction

/-!
# What the options make of a reply

`applyOptions` sorts a reply with neighbour swaps and cuts it. It reads the order value of
a document once for each `_id`, so it compares the documents themselves as long as no two of
them share their `_id`; of several it reads the first. What it makes of the reply is `bubbleSort`
followed by `cut` (`applyOptions_eq`).
-/

namespace Qdocdb

/-- The options swap the two documents when they meet in this order. -/
def outOfOrder (options : QJsonObject) (v w : QJsonValue) : Bool :=
  QJsonObject.contains options (qs "$orderBy") && decide ((orderBy options).1 ≠ []) &&
    compare (getJsonValueByPath v (orderBy options).1) (getJsonValueByPath w (orderBy options).1)
      (if (orderBy options).2 then qs "$gt" else qs "$lt")

/-- The `$limit` of the options. -/
def limitOf (options : QJsonObject) : Option ℕ :=
  if QJsonObject.contains options (qs "$limit") then
    some (QJsonObject.value options (qs "$limit")).toInt.toNat
  else none

/-- The `_id` of a document of a reply. -/
def nameOf (v : QJsonValue) : QString := (QJsonObject.value v.toObject (qs "_id")).toQString

/-- No two documents share their `_id`. -/
def NamesApart (l : List QJsonValue) : Prop := ∀ v ∈ l, ∀ w ∈ l, nameOf v = nameOf w → v = w

/-! ## The order -/

theorem Double.lt_asymm {x y : Double} (h : x.lt y = true) : y.lt x = false := by
  simp only [Double.lt, Bool.and_eq_true, Bool.not_eq_true', decide_eq_true_eq] at h
  have hle : ¬ y.orderKey < x.orderKey := by omega
  simp [Double.lt, hle]

/-- `$gt` and `$lt` hold in one direction only. -/
theorem compare_asymm {up : Bool} {a b : QJsonValue}
    (h : compare a b (if up then qs "$gt" else qs "$lt") = true) :
    compare b a (if up then qs "$gt" else qs "$lt") = false := by
  have hne : qs "$lt" ≠ qs "$gt" := by decide
  have hne' : qs "$lt" ≠ qs "$gte" := by decide
  cases a <;> cases b <;> try cases h
  case double.double x y =>
    cases up
    · simp [compare, hne, hne'] at h ⊢
      exact Double.lt_asymm h
    · simp [compare] at h ⊢
      exact Double.lt_asymm h
  case string.string x y =>
    cases up
    · simp [compare, hne, hne'] at h ⊢
      exact h.le
    · simp [compare] at h ⊢
      exact h.le

/-- Two documents are not swapped forth and back. -/
theorem outOfOrder_asymm {options : QJsonObject} (v w : QJsonValue)
    (h : outOfOrder options v w = true) : outOfOrder options w v = false := by
  simp only [outOfOrder, Bool.and_eq_true] at h ⊢
  rw [h.1.1, h.1.2, Bool.and_self, Bool.true_and]
  exact compare_asymm h.2

/-! ## The order values -/

/-- The document of a reply that the order value of `v` is read from: the first one with
the `_id` of `v`. -/
def firstNamed (docs : List QJsonValue) (v : QJsonValue) : QJsonValue :=
  (docs.find? fun w => nameOf w = nameOf v).getD v

/-- The options swap `v` and `w` when they meet in this order in a reply that was `docs`. -/
def outOfOrderIn (options : QJsonObject) (docs : List QJsonValue) (v w : QJsonValue) : Bool :=
  outOfOrder options (firstNamed docs v) (firstNamed docs w)

theorem outOfOrderIn_asymm {options : QJsonObject} {docs : List QJsonValue} (v w : QJsonValue)
    (h : outOfOrderIn options docs v w = true) : outOfOrderIn options docs w v = false :=
  outOfOrder_asymm _ _ h

theorem firstNamed_of_namesApart {docs : List QJsonValue} (h : NamesApart docs) {v : QJsonValue}
    (hv : v ∈ docs) : firstNamed docs v = v := by
  rw [firstNamed]
  cases hfind : docs.find? fun w => nameOf w = nameOf v with
  | none => rfl
  | some w =>
    have hname : nameOf w = nameOf v := by simpa using List.find?_some hfind
    exact h w (List.mem_of_find?_eq_some hfind) v hv hname

/-- The cache and the documents that are still to be read agree on what the order value of
an `_id` is. -/
structure CacheFits (orderPath : QString) (orderValue : QString → QJsonValue)
    (l : List QJsonValue) (map : PathCache) : Prop where
  cached : ∀ name x, map.lookup name = some x → x = orderValue name
  unread : ∀ name v, map.lookup name = none → (l.find? fun w => nameOf w = name) = some v →
    getJsonValueByPath v orderPath = orderValue name

/-- The order value of an `_id` in a reply. -/
def orderValueIn (orderPath : QString) (docs : List QJsonValue) (name : QString) : QJsonValue :=
  ((docs.find? fun w => nameOf w = name).map fun w => getJsonValueByPath w orderPath).getD
    .undefined

theorem orderValueIn_nameOf (orderPath : QString) {docs : List QJsonValue} {v : QJsonValue}
    (hv : v ∈ docs) : orderValueIn orderPath docs (nameOf v) =
      getJsonValueByPath (firstNamed docs v) orderPath := by
  have hsome : (docs.find? fun w => nameOf w = nameOf v).isSome :=
    List.find?_isSome.mpr ⟨v, hv, by simp⟩
  obtain ⟨w, hw⟩ := Option.isSome_iff_exists.mp hsome
  simp [orderValueIn, firstNamed, hw]

theorem cacheFits_nil (orderPath : QString) (docs : List QJsonValue) :
    CacheFits orderPath (orderValueIn orderPath docs) docs [] where
  cached := fun _ _ h => nomatch h
  unread := fun name v _ hfind => by simp [orderValueIn, hfind]

section Cache

variable {orderPath : QString} {orderValue : QString → QJsonValue} {l : List QJsonValue}
  {map : PathCache}

/-- Nothing is left to be read when every name is cached. -/
theorem CacheFits.of_cached (h : CacheFits orderPath orderValue [] map)
    (hl : ∀ v ∈ l, (map.lookup (nameOf v)).isSome) : CacheFits orderPath orderValue l map where
  cached := h.cached
  unread := fun name v hnone hfind => by
    have hname : nameOf v = name := by simpa using List.find?_some hfind
    have hsome := hl v (List.mem_of_find?_eq_some hfind)
    rw [hname, hnone] at hsome
    cases hsome

/-- A document that was read may be met again. -/
theorem CacheFits.cons (h : CacheFits orderPath orderValue l map) {v : QJsonValue}
    (hv : (map.lookup (nameOf v)).isSome) : CacheFits orderPath orderValue (v :: l) map where
  cached := h.cached
  unread := fun name w hnone hfind => by
    have hne : nameOf v ≠ name := fun heq => by simp [heq, hnone] at hv
    rw [List.find?_cons_of_neg (by simpa using hne)] at hfind
    exact h.unread name w hnone hfind

/-- **Reading** the order value of the next document. -/
theorem cachedValue_spec {v : QJsonValue} (h : CacheFits orderPath orderValue (v :: l) map) :
    (cachedValue orderPath v map).1 = orderValue (nameOf v) ∧
      CacheFits orderPath orderValue l (cachedValue orderPath v map).2 ∧
      ∀ name, ((cachedValue orderPath v map).2.lookup name).isSome ↔
        name = nameOf v ∨ (map.lookup name).isSome := by
  have hfirst : ((v :: l).find? fun w => nameOf w = nameOf v) = some v := by simp
  -- behind the document, other names are looked up as before
  have hbehind : ∀ name, name ≠ nameOf v →
      ((v :: l).find? fun w => nameOf w = name) = l.find? fun w => nameOf w = name :=
    fun name hne => List.find?_cons_of_neg (by simpa using Ne.symm hne)
  cases hlookup : List.lookup (nameOf v) map with
  | some x =>
    have hread : cachedValue orderPath v map = (x, map) := by
      rw [nameOf] at hlookup
      simp [cachedValue, hlookup]
    rw [hread]
    refine ⟨h.cached _ x hlookup, ⟨h.cached, fun name w hnone hfind => ?_⟩, fun name => ?_⟩
    · have hne : name ≠ nameOf v := fun heq => by simp [heq, hlookup] at hnone
      exact h.unread name w hnone (hbehind name hne ▸ hfind)
    · constructor
      · exact .inr
      · rintro (rfl | hsome)
        · simp [hlookup]
        · exact hsome
  | none =>
    have hvalue := h.unread _ v hlookup hfirst
    have hread : cachedValue orderPath v map = (getJsonValueByPath v orderPath,
        (nameOf v, getJsonValueByPath v orderPath) :: map) := by
      rw [nameOf] at hlookup
      simp [cachedValue, hlookup, nameOf]
    rw [hread]
    refine ⟨hvalue, ⟨fun name x hx => ?_, fun name w hnone hfind => ?_⟩, fun name => ?_⟩
    · rw [List.lookup_cons] at hx
      split at hx
      · -- the entry is new
        rename_i hname
        rw [← Option.some.inj hx, hvalue, beq_iff_eq.mp hname]
      · exact h.cached name x hx
    · rw [List.lookup_cons] at hnone
      split at hnone
      · cases hnone
      · rename_i hname
        have hne : name ≠ nameOf v := by simpa using hname
        exact h.unread name w hnone (hbehind name hne ▸ hfind)
    · rw [List.lookup_cons]
      by_cases hname : name = nameOf v
      · simp [hname]
      · simp [hname, beq_eq_false_iff_ne.mpr hname]

variable {ι : Type} (oper : QString)

/-- The comparison of a round, with the order values at hand. -/
abbrev lateBy (orderValue : QString → QJsonValue) (oper : QString) (e e' : QJsonValue × ι) :
    Bool :=
  compare (orderValue (nameOf e.1)) (orderValue (nameOf e'.1)) oper

/-- **A round of the loop** is a pass over the reply, after which the cache knows every name
of two or more documents. -/
theorem orderPass_spec (it : QJsonValue × ι) (rest : List (QJsonValue × ι)) {map : PathCache}
    (h : CacheFits orderPath orderValue ((it :: rest).map Prod.fst) map) :
    ((orderPass orderPath oper it rest map).1, (orderPass orderPath oper it rest map).2.2) =
      bubblePass (lateBy orderValue oper) it rest ∧
      CacheFits orderPath orderValue [] (orderPass orderPath oper it rest map).2.1 ∧
      ∀ name, (map.lookup name).isSome ∨ rest ≠ [] ∧ (∃ e ∈ it :: rest, nameOf e.1 = name) →
        ((orderPass orderPath oper it rest map).2.1.lookup name).isSome := by
  induction rest generalizing it map with
  | nil =>
    refine ⟨rfl, ⟨h.cached, fun _ _ _ hfind => nomatch hfind⟩, fun name hname => ?_⟩
    exact hname.resolve_right fun hn => hn.1 rfl
  | cons it1 rest ih =>
    obtain ⟨hvalue, h₁, hcached⟩ := cachedValue_spec h
    obtain ⟨hvalue1, h₂, hcached1⟩ := cachedValue_spec h₁
    -- whichever of the two is in hand next, the cache knows both
    have hnext : ∀ it' : QJsonValue × ι, it' = it ∨ it' = it1 → CacheFits orderPath orderValue
        ((it' :: rest).map Prod.fst)
        (cachedValue orderPath it1.1 (cachedValue orderPath it.1 map).2).2 := by
      intro it' hit'
      apply h₂.cons
      rw [hcached1, hcached]
      rcases hit' with rfl | rfl <;> simp
    have hnames : ∀ it' : QJsonValue × ι, ∀ name,
        (map.lookup name).isSome ∨ it1 :: rest ≠ [] ∧ (∃ e ∈ it :: it1 :: rest, nameOf e.1 = name) →
        ((cachedValue orderPath it1.1 (cachedValue orderPath it.1 map).2).2.lookup name).isSome ∨
          rest ≠ [] ∧ ∃ e ∈ it' :: rest, nameOf e.1 = name := by
      rintro it' name (hmap | ⟨-, e, he, rfl⟩)
      · simp [hcached1, hcached, hmap]
      · rw [hcached1, hcached]
        rcases List.mem_cons.mp he with rfl | he
        · simp
        · rcases List.mem_cons.mp he with rfl | he
          · simp
          · exact .inr ⟨List.ne_nil_of_mem he, e, List.mem_cons_of_mem _ he, rfl⟩
    simp only [orderPass, bubblePass, lateBy, hvalue, hvalue1]
    split
    · obtain ⟨heq, hfits, hall⟩ := ih it (hnext it (.inl rfl))
      exact ⟨by simp [← heq], hfits, fun name hname => hall name (hnames it name hname)⟩
    · obtain ⟨heq, hfits, hall⟩ := ih it1 (hnext it1 (.inr rfl))
      exact ⟨by simp [← heq], hfits, fun name hname => hall name (hnames it1 name hname)⟩

/-- **The loop** sorts the reply. -/
theorem orderLoop_spec (fuel : ℕ) {reply : List (QJsonValue × ι)} {map : PathCache}
    (h : CacheFits orderPath orderValue (reply.map Prod.fst) map) :
    orderLoop orderPath oper fuel reply map = bubbleSort (lateBy orderValue oper) fuel reply := by
  induction fuel generalizing reply map with
  | zero => rfl
  | succ fuel ih =>
    cases reply with
    | nil => rfl
    | cons it rest =>
      obtain ⟨heq, hfits, hall⟩ := orderPass_spec oper it rest h
      have hout := congrArg Prod.fst heq
      have hswapped := congrArg Prod.snd heq
      simp only at hout hswapped
      simp only [orderLoop, bubbleSort, ← hout, ← hswapped]
      split
      · rename_i hchanged
        have hrest : rest ≠ [] := by
          rintro rfl
          simp [hswapped, bubblePass] at hchanged
        apply ih
        apply hfits.of_cached
        rintro v hv
        obtain ⟨e, he, rfl⟩ := List.mem_map.mp hv
        rw [hout, (perm_bubblePass it rest).mem_iff] at he
        exact hall _ (.inr ⟨hrest, e, he, rfl⟩)
      · rfl

end Cache

/-! ## The options -/

variable {ι : Type}

/-- **The options** sort the reply and cut it. -/
theorem applyOptions_eq (reply : List (QJsonValue × ι)) (options : QJsonObject) :
    applyOptions reply options = cut (limitOf options)
      (bubbleSort (fun e e' => outOfOrderIn options (reply.map Prod.fst) e.1 e'.1)
        (reply.length * reply.length + 1) reply) := by
  have hsort : (if QJsonObject.contains options (qs "$orderBy") then
        applyOrderBy reply options else reply) =
      bubbleSort (fun e e' => outOfOrderIn options (reply.map Prod.fst) e.1 e'.1)
        (reply.length * reply.length + 1) reply := by
    by_cases hby : QJsonObject.contains options (qs "$orderBy") = true
    · by_cases hpath : (orderBy options).1 = []
      · have hfalse : (fun e e' : QJsonValue × ι =>
            outOfOrderIn options (reply.map Prod.fst) e.1 e'.1) = fun _ _ => false := by
          funext e e'
          simp [outOfOrderIn, outOfOrder, hpath]
        rw [if_pos hby, hfalse, bubbleSort_of_ordered _ (ordered_false _)]
        simp [applyOrderBy, hpath]
      · rw [if_pos hby, applyOrderBy]
        dsimp only
        rw [if_neg hpath, orderLoop_spec _ _ (cacheFits_nil _ _)]
        apply bubbleSort_congr
        intro e he e' he'
        simp [lateBy, outOfOrderIn, outOfOrder, hby, hpath,
          orderValueIn_nameOf _ (List.mem_map_of_mem he),
          orderValueIn_nameOf _ (List.mem_map_of_mem he')]
    · have hfalse : (fun e e' : QJsonValue × ι =>
          outOfOrderIn options (reply.map Prod.fst) e.1 e'.1) = fun _ _ => false := by
        funext e e'
        simp [outOfOrderIn, outOfOrder, hby]
      rw [if_neg hby, hfalse, bubbleSort_of_ordered _ (ordered_false _)]
  rw [applyOptions, ← hsort, limitOf]
  by_cases hlimit : QJsonObject.contains options (qs "$limit") = true
  · simp [hlimit, cut]
  · simp [hlimit, cut]

/-- The options cut some arrangement of the reply. -/
theorem exists_perm_applyOptions (reply : List (QJsonValue × ι)) (options : QJsonObject) :
    ∃ l, l.Perm reply ∧ applyOptions reply options = cut (limitOf options) l :=
  ⟨_, perm_bubbleSort _ reply, applyOptions_eq reply options⟩

theorem perm_applyOrderBy (reply : List (QJsonValue × ι)) (options : QJsonObject) :
    (applyOrderBy reply options).Perm reply := by
  simp only [applyOrderBy]
  split
  · exact .refl _
  · rw [orderLoop_spec _ _ (cacheFits_nil _ _)]
    exact perm_bubbleSort _ _

theorem mem_of_mem_applyOptions {reply : List (QJsonValue × ι)} {options : QJsonObject}
    {e : QJsonValue × ι} (h : e ∈ applyOptions reply options) : e ∈ reply := by
  obtain ⟨l, hl, heq⟩ := exists_perm_applyOptions reply options
  rw [heq] at h
  exact hl.mem_iff.mp ((prefix_cut _ l).subset h)

/-- The options leave nothing when there was nothing, or when the limit says so. -/
theorem applyOptions_eq_nil_iff {reply : List (QJsonValue × ι)} {options : QJsonObject} :
    applyOptions reply options = [] ↔ reply = [] ∨ limitOf options = some 0 := by
  obtain ⟨l, hl, heq⟩ := exists_perm_applyOptions reply options
  have hnil : l = [] ↔ reply = [] := by
    rw [← List.length_eq_zero_iff, hl.length_eq, List.length_eq_zero_iff]
  rw [heq, ← hnil]
  cases limitOf options with
  | none => simp [cut]
  | some n =>
    rw [cut, List.take_eq_nil_iff]
    simp [or_comm]

theorem map_cut {α β : Type*} (f : α → β) (limit : Option ℕ) (l : List α) :
    (cut limit l).map f = cut limit (l.map f) := by
  cases limit with
  | none => rfl
  | some n => exact List.map_take

/-- What goes along with the documents does not matter. -/
theorem map_applyOptions (reply : List (QJsonValue × ι)) (options : QJsonObject) :
    (applyOptions reply options).map Prod.fst =
      cut (limitOf options) (bubbleSort (outOfOrderIn options (reply.map Prod.fst))
        (reply.length * reply.length + 1) (reply.map Prod.fst)) := by
  rw [applyOptions_eq, map_cut, map_bubbleSort]

/-- **The options on a reply alone** sort and cut it. -/
theorem applyOptionsReply_eq (reply : List QJsonValue) (options : QJsonObject) :
    applyOptionsReply reply options =
      cut (limitOf options) (bubbleSort (outOfOrderIn options reply)
        (reply.length * reply.length + 1) reply) := by
  have hmap : (reply.map fun v => (v, ())).map Prod.fst = reply := by
    simp [Function.comp_def]
  rw [applyOptionsReply, map_applyOptions, hmap, List.length_map]

/-- When no two documents share their `_id` they are compared themselves. -/
theorem applyOptions_of_namesApart {reply : List (QJsonValue × ι)}
    (hnames : NamesApart (reply.map Prod.fst)) (options : QJsonObject) :
    applyOptions reply options =
      cut (limitOf options) (bubbleSort (fun e e' => outOfOrder options e.1 e'.1)
        (reply.length * reply.length + 1) reply) := by
  rw [applyOptions_eq]
  congr 1
  apply bubbleSort_congr
  intro e he e' he'
  rw [outOfOrderIn, firstNamed_of_namesApart hnames (List.mem_map_of_mem he),
    firstNamed_of_namesApart hnames (List.mem_map_of_mem he')]

theorem applyOptionsReply_of_namesApart {reply : List QJsonValue} (hnames : NamesApart reply)
    (options : QJsonObject) :
    applyOptionsReply reply options =
      cut (limitOf options) (bubbleSort (outOfOrder options)
        (reply.length * reply.length + 1) reply) := by
  have hmap : (reply.map fun v => (v, ())).map Prod.fst = reply := by
    simp [Function.comp_def]
  rw [applyOptionsReply, applyOptions_of_namesApart (hmap.symm ▸ hnames), map_cut, map_bubbleSort,
    hmap, List.length_map]

/-- What the options make of a reply: its documents in order, as many as the limit allows. -/
theorem exists_applyOptionsReply {reply : List QJsonValue} (hnames : NamesApart reply)
    (options : QJsonObject) :
    ∃ l, l.Perm reply ∧ Ordered (outOfOrder options) l ∧
      applyOptionsReply reply options = cut (limitOf options) l :=
  ⟨_, perm_bubbleSort _ reply,
    ordered_bubbleSort outOfOrder_asymm (Nat.lt_succ_of_le (inversions_le reply)),
    applyOptionsReply_of_namesApart hnames options⟩

/-- A reply in order is only cut. -/
theorem applyOptionsReply_of_ordered {reply : List QJsonValue} (hnames : NamesApart reply)
    {options : QJsonObject} (h : Ordered (outOfOrder options) reply) :
    applyOptionsReply reply options = cut (limitOf options) reply := by
  rw [applyOptionsReply_of_namesApart hnames, bubbleSort_of_ordered _ h]

/-! ## Small replies -/

/-- The number 1. -/
def one : Double := ⟨0x3FF0000000000000#64⟩

/-- The number 2. -/
def two : Double := ⟨0x4000000000000000#64⟩

/-- A document with a value under `n`. -/
def withN (id : String) (v : QJsonValue) : QJsonValue :=
  .object [(qs "_id", .string (qs id)), (qs "n", v)]

/-- `{"$orderBy":{"n":1}}`, and a `$limit` if one is given. -/
def orderByN (limit : Option Double) : QJsonObject :=
  (limit.map fun limit => (qs "$limit", .double limit)).toList ++
    [(qs "$orderBy", .object [(qs "n", .double one)])]

end Qdocdb
