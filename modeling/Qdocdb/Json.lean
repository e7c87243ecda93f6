import Mathlib.Tactic.Common
import Qdocdb.Text

/-!
# JSON values

`QJsonValue` with the parts of its interface the program uses, and the helpers of
`QDocUtils`. An object is a list of fields in key order, as `QJsonObject` keeps
it; a number is an IEEE-754 double given by its bits, so that the comparisons of
the program are computable.
-/

namespace Qdocdb

/-! ## Numbers -/

/-- A `double`, as its 64 bits. -/
structure Double where
  /-- sign, exponent and fraction -/
  bits : BitVec 64
  deriving DecidableEq

namespace Double

/-- The 63 bits below the sign. -/
def magnitude (d : Double) : ℕ := d.bits.toNat % 2 ^ 63

/-- The sign bit. -/
def sign (d : Double) : Bool := decide (2 ^ 63 ≤ d.bits.toNat)

/-- Not a number: all exponent bits set and a fraction. -/
def isNaN (d : Double) : Bool := decide (0x7FF * 2 ^ 52 < d.magnitude)

/-- An integer that orders the doubles that are numbers; both zeros are `0`. -/
def orderKey (d : Double) : ℤ := if d.sign then -d.magnitude else d.magnitude

/-- `a < b` on doubles. -/
def lt (a b : Double) : Bool := !a.isNaN && !b.isNaN && decide (a.orderKey < b.orderKey)

/-- `a <= b` on doubles. -/
def le (a b : Double) : Bool := !a.isNaN && !b.isNaN && decide (a.orderKey ≤ b.orderKey)

/-- `a == b` on doubles. -/
def eq (a b : Double) : Bool := !a.isNaN && !b.isNaN && decide (a.orderKey = b.orderKey)

/-- The absolute value when it is an integer below `2^53`. -/
def absInt? (d : Double) : Option ℕ :=
  let exponent := d.magnitude / 2 ^ 52
  let fraction := d.magnitude % 2 ^ 52
  if d.magnitude = 0 then some 0
  else if exponent = 0 ∨ 1075 < exponent then none
  else if (2 ^ 52 + fraction) % 2 ^ (1075 - exponent) = 0 then
    some ((2 ^ 52 + fraction) / 2 ^ (1075 - exponent))
  else none

/-- `QJsonValue::toInt` on a number: its value when that is an `int`, else the default. -/
def toInt (d : Double) : ℤ :=
  match d.absInt? with
  | some n =>
    let i : ℤ := if d.sign then -n else n
    if -2 ^ 31 ≤ i ∧ i < 2 ^ 31 then i else 0
  | none => 0

end Double

/-! ## Values -/

/-- A JSON value; `undefined` is what a missing field reads as. -/
inductive QJsonValue where
  | undefined
  | null
  | bool (b : Bool)
  | double (d : Double)
  | string (s : QString)
  | array (l : List QJsonValue)
  | object (o : List (QString × QJsonValue))
  deriving Inhabited

/-- An object: fields in key order. -/
abbrev QJsonObject : Type := List (QString × QJsonValue)

namespace QJsonValue

mutual

/-- Structural equality, decided. -/
def same : QJsonValue → QJsonValue → Bool
  | undefined, undefined => true
  | null, null => true
  | bool a, bool b => a = b
  | double a, double b => a = b
  | string a, string b => a = b
  | array a, array b => sameList a b
  | object a, object b => sameFields a b
  | _, _ => false

def sameList : List QJsonValue → List QJsonValue → Bool
  | [], [] => true
  | x :: xs, y :: ys => same x y && sameList xs ys
  | _, _ => false

def sameFields : List (QString × QJsonValue) → List (QString × QJsonValue) → Bool
  | [], [] => true
  | (k, x) :: xs, (k', y) :: ys => decide (k = k') && same x y && sameFields xs ys
  | _, _ => false

end

mutual

theorem same_iff (a b : QJsonValue) : same a b = true ↔ a = b := by
  cases a <;> cases b <;> simp [same, sameList_iff, sameFields_iff]

theorem sameList_iff : ∀ a b : List QJsonValue, sameList a b = true ↔ a = b
  | [], [] => by simp [sameList]
  | [], _ :: _ => by simp [sameList]
  | _ :: _, [] => by simp [sameList]
  | x :: xs, y :: ys => by simp [sameList, same_iff x y, sameList_iff xs ys]

theorem sameFields_iff :
    ∀ a b : List (QString × QJsonValue), sameFields a b = true ↔ a = b
  | [], [] => by simp [sameFields]
  | [], _ :: _ => by simp [sameFields]
  | _ :: _, [] => by simp [sameFields]
  | (k, x) :: xs, (k', y) :: ys => by
    simp [sameFields, same_iff x y, sameFields_iff xs ys, and_assoc]

end

instance : DecidableEq QJsonValue := fun a b => decidable_of_iff _ (same_iff a b)

/-- `isObject`. -/
def isObject : QJsonValue → Bool
  | object _ => true
  | _ => false

/-- `isArray`. -/
def isArray : QJsonValue → Bool
  | array _ => true
  | _ => false

/-- `isString`. -/
def isString : QJsonValue → Bool
  | string _ => true
  | _ => false

/-- `isDouble`. -/
def isDouble : QJsonValue → Bool
  | double _ => true
  | _ => false

/-- `isUndefined`. -/
def isUndefined : QJsonValue → Bool
  | undefined => true
  | _ => false

/-- `toObject`: the empty object for other values. -/
def toObject : QJsonValue → QJsonObject
  | object o => o
  | _ => []

/-- `toArray`: the empty array for other values. -/
def toArray : QJsonValue → List QJsonValue
  | array l => l
  | _ => []

/-- `toString`: the empty string for other values. -/
def toQString : QJsonValue → QString
  | string s => s
  | _ => []

/-- `toBool`: `false` for other values. -/
def toBool : QJsonValue → Bool
  | bool b => b
  | _ => false

/-- `toInt`: `0` for values that are not an `int`. -/
def toInt : QJsonValue → ℤ
  | double d => d.toInt
  | _ => 0

end QJsonValue

namespace QJsonObject

/-- `QJsonObject::value`: undefined when the key is missing. -/
def value (o : QJsonObject) (key : QString) : QJsonValue :=
  ((o.find? fun f => f.1 = key).map Prod.snd).getD .undefined

/-- `QJsonObject::contains`. -/
def contains (o : QJsonObject) (key : QString) : Bool := o.any fun f => f.1 = key

/-- `QJsonObject::insert`: replaces the field, keeping the key order. -/
def insert (o : QJsonObject) (key : QString) (v : QJsonValue) : QJsonObject :=
  o.filter (fun f => f.1 < key) ++ (key, v) :: o.filter fun f => key < f.1

/-- `QJsonObject::keys`, in key order. -/
def keys (o : QJsonObject) : List QString := o.map Prod.fst

theorem contains_of_value_ne {o : QJsonObject} {key : QString} (h : value o key ≠ .undefined) :
    contains o key = true := by
  by_contra hc
  rw [contains, List.any_eq_true] at hc
  have hnone : o.find? (fun f => decide (f.1 = key)) = none :=
    List.find?_eq_none.mpr fun f hf hk => hc ⟨f, hf, hk⟩
  rw [value, hnone] at h
  exact h rfl

theorem value_insert_self (o : QJsonObject) (key : QString) (v : QJsonValue) :
    value (insert o key v) key = v := by
  have hnone : (o.filter fun f => decide (f.1 < key)).find? (fun f => decide (f.1 = key)) = none := by
    rw [List.find?_eq_none]
    intro f hf
    have hlt : f.1 < key := by simpa using (List.mem_filter.mp hf).2
    simpa using hlt.ne
  rw [value, insert, List.find?_append, hnone, Option.none_or, List.find?_cons_of_pos (by simp),
    Option.map_some, Option.getD_some]

/-- Writing one field leaves the others. -/
theorem value_insert_of_ne (o : QJsonObject) {key key' : QString} (v : QJsonValue)
    (h : key' ≠ key) : value (insert o key v) key' = value o key' := by
  -- `key'` is looked up in the one of the two filtered halves that keeps its field
  have hkeep : ∀ p : QString × QJsonValue → Bool, (∀ f, f.1 = key' → p f = true) →
      (o.filter p).find? (fun f => f.1 = key') = o.find? fun f => f.1 = key' := by
    intro p hp
    rw [List.find?_filter]
    congr 1
    funext f
    by_cases hf : f.1 = key'
    · simp [hf, hp f hf]
    · simp [hf]
  have hdrop : ∀ p : QString × QJsonValue → Bool, (∀ f, f.1 = key' → p f = false) →
      (o.filter p).find? (fun f => f.1 = key') = none := by
    intro p hp
    rw [List.find?_filter, List.find?_eq_none]
    intro f _
    by_cases hf : f.1 = key'
    · simp [hp f hf]
    · simp [hf]
  rw [value, insert, List.find?_append, List.find?_cons_of_neg (by simpa using Ne.symm h)]
  rcases lt_or_gt_of_ne h with hlt | hgt
  · rw [hkeep _ fun f hf => by simpa [hf] using hlt, hdrop _ fun f hf => by simpa [hf] using hlt.le,
      Option.or_none, value]
  · rw [hdrop _ fun f hf => by simpa [hf] using hgt.le, hkeep _ fun f hf => by simpa [hf] using hgt,
      Option.none_or, value]

end QJsonObject

namespace QJsonValue

mutual

/-- `QJsonValue::operator==`. -/
def eq : QJsonValue → QJsonValue → Bool
  | undefined, undefined => true
  | null, null => true
  | bool a, bool b => a = b
  | double a, double b => a.eq b
  | string a, string b => a = b
  | array a, array b => eqList a b
  | object a, object b => decide (a.length = b.length) && eqFields a b
  | _, _ => false

def eqList : List QJsonValue → List QJsonValue → Bool
  | [], [] => true
  | x :: xs, y :: ys => eq x y && eqList xs ys
  | _, _ => false

/-- Each field of the first object equals the second object's value there. -/
def eqFields : List (QString × QJsonValue) → List (QString × QJsonValue) → Bool
  | [], _ => true
  | (k, x) :: xs, o => eq x (QJsonObject.value o k) && eqFields xs o

end

theorem eq_of_eq_string {s : QString} {v : QJsonValue} (h : eq (string s) v = true) :
    v = string s := by
  cases v with
  | string t => rw [of_decide_eq_true h]
  | _ => cases h

theorem eq_value_of_eqFields {a b : List (QString × QJsonValue)} (h : eqFields a b = true)
    {f : QString × QJsonValue} (hf : f ∈ a) : eq f.2 (QJsonObject.value b f.1) = true := by
  induction a with
  | nil => cases hf
  | cons g a ih =>
    rw [eqFields, Bool.and_eq_true] at h
    rcases List.mem_cons.mp hf with rfl | hf
    · exact h.1
    · exact ih h.2 hf

/-- Equal objects have the same strings in their fields. -/
theorem value_of_eq_object {a b : List (QString × QJsonValue)}
    (h : eq (object a) (object b) = true) {key s : QString}
    (ha : QJsonObject.value a key = string s) : QJsonObject.value b key = string s := by
  rw [eq, Bool.and_eq_true] at h
  rw [QJsonObject.value] at ha
  cases hfind : a.find? fun f => f.1 = key with
  | none => simp [hfind] at ha
  | some f =>
    have hf : f.2 = string s := by simpa [hfind] using ha
    have hkey : f.1 = key := by simpa using List.find?_some hfind
    have hb := eq_value_of_eqFields h.2 (List.mem_of_find?_eq_some hfind)
    rw [hf, hkey] at hb
    exact eq_of_eq_string hb

theorem eqList_of_append {l xs ys : List QJsonValue} (h : eqList (l ++ xs) (l ++ ys) = true) :
    eqList xs ys = true := by
  induction l with
  | nil => exact h
  | cons v l ih =>
    rw [List.cons_append, List.cons_append, eqList, Bool.and_eq_true] at h
    exact ih h.2

/-- Lists that are equal up to `==` are equal when `==` means equality on their elements. -/
theorem eq_of_eqList {xs ys : List QJsonValue} (h : eqList xs ys = true)
    (heq : ∀ x ∈ xs, ∀ y ∈ ys, eq x y = true → x = y) : xs = ys := by
  induction xs generalizing ys with
  | nil =>
    cases ys with
    | nil => rfl
    | cons y ys => cases h
  | cons x xs ih =>
    cases ys with
    | nil => cases h
    | cons y ys =>
      rw [eqList, Bool.and_eq_true] at h
      rw [heq x List.mem_cons_self y List.mem_cons_self h.1,
        ih h.2 fun x' hx' y' hy' =>
          heq x' (List.mem_cons_of_mem x hx') y' (List.mem_cons_of_mem y hy')]

end QJsonValue

/-! ## QDocUtils -/

/-- `QChar::isSpace`. -/
def isSpace (c : QChar) : Bool :=
  decide (9 ≤ c.val ∧ c.val ≤ 13) ||
    c ∈ ([0x20, 0x85, 0xA0, 0x1680, 0x2028, 0x2029, 0x202F, 0x205F, 0x3000] : List QChar) ||
    decide (0x2000 ≤ c.val ∧ c.val ≤ 0x200A)

/-- The value of a non-empty string of decimal digits. -/
def decimal? (s : QString) : Option ℕ :=
  if s ≠ [] ∧ s.all fun c => decide (48 ≤ c.val ∧ c.val ≤ 57) then
    some (s.foldl (fun n c => 10 * n + (c.val - 48)) 0)
  else none

/-- `QString::toInt(&ok, 10)`: surrounding white space and a sign are accepted;
`none` is a false `ok`. -/
def toInt? (s : QString) : Option ℤ :=
  let t := ((s.dropWhile isSpace).reverse.dropWhile isSpace).reverse
  let i : Option ℤ :=
    match t with
    | [] => none
    | c :: r =>
      if c = 45 then (decimal? r).map fun n => -(n : ℤ)
      else if c = 43 then (decimal? r).map fun n => (n : ℤ)
      else (decimal? t).map fun n => (n : ℤ)
  i.filter fun i => decide (-2 ^ 31 ≤ i ∧ i < 2 ^ 31)

/-- The segments of a path: cut at every `.`, without an empty last segment. -/
def pathSegments : QString → List QString
  | [] => []
  | c :: rest =>
    if c = 46 then [] :: pathSegments rest
    else
      match pathSegments rest with
      | [] => [[c]]
      | s :: ss => (c :: s) :: ss

/-- One step of a path: a field of an object or an element of an array. -/
def pathStep (jsonValue : QJsonValue) (firstKey : QString) : Option QJsonValue :=
  match jsonValue with
  | .object o => some (QJsonObject.value o firstKey)
  | .array l =>
    (toInt? firstKey).map fun i => if 0 ≤ i then l.getD i.toNat .undefined else .undefined
  | _ => none

/-- Follow the segments of a path. -/
def walkPath (jsonValue : QJsonValue) : List QString → QJsonValue
  | [] => jsonValue
  | s :: ss =>
    match pathStep jsonValue s with
    | some v => walkPath v ss
    | none => .undefined

/-- `QDocUtils::getJsonValueByPath`. -/
def getJsonValueByPath (jsonValue : QJsonValue) (path : QString) : QJsonValue :=
  walkPath jsonValue (pathSegments path)

/-- The recursion of the source: an empty path is the value itself; otherwise the
key up to the first `.` is looked up and the path after it is followed from there. -/
theorem getJsonValueByPath_eq (jsonValue : QJsonValue) (path : QString) :
    getJsonValueByPath jsonValue path =
      if path = [] then jsonValue
      else
        match pathStep jsonValue (path.takeWhile (· ≠ 46)) with
        | some v => getJsonValueByPath v (path.dropWhile (· ≠ 46)).tail
        | none => .undefined := by
  have hseg : ∀ p : QString, p ≠ [] →
      pathSegments p = p.takeWhile (· ≠ 46) :: pathSegments (p.dropWhile (· ≠ 46)).tail := by
    intro p
    induction p with
    | nil => exact fun h => absurd rfl h
    | cons c rest ih =>
      intro _
      by_cases hc : c = 46
      · simp [pathSegments, hc]
      · rcases eq_or_ne rest [] with rfl | hr
        · simp [pathSegments, hc]
        · rw [pathSegments, if_neg hc, ih hr]
          simp [hc]
  by_cases hp : path = []
  · subst hp
    rfl
  · rw [getJsonValueByPath, hseg path hp, walkPath, if_neg hp]
    rfl

/-- `QDocUtils::compare`. -/
def compare (a b : QJsonValue) (oper : QString) : Bool :=
  match a, b with
  | .double x, .double y =>
    if oper = qs "$gt" then y.lt x
    else if oper = qs "$gte" then y.le x
    else if oper = qs "$lt" then x.lt y
    else if oper = qs "$lte" then x.le y
    else false
  | .string x, .string y =>
    if oper = qs "$gt" then decide (y < x)
    else if oper = qs "$gte" then decide (y ≤ x)
    else if oper = qs "$lt" then decide (x < y)
    else if oper = qs "$lte" then decide (x ≤ y)
    else false
  | _, _ => false

end Qdocdb
