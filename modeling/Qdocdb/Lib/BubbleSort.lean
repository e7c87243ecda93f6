import Mathlib.Data.List.Chain

/-!
# Bubble sort

A pass walks over a list with an element in hand, and puts it behind each neighbour that
has to come first. Passes are repeated until one of them changes nothing, or the fuel is
used up. The relation that tells which of two neighbours is late need not be transitive:
a swap takes one inversion away as soon as no two elements are late to each other, so the
inversions bound the passes (`isChain_bubbleSort`).
-/

universe u

variable {α : Type u}

/-- One pass with `x` in hand, and whether it changed anything. -/
def bubblePass (late : α → α → Bool) (x : α) : List α → List α × Bool
  | [] => ([x], false)
  | y :: l =>
    if late x y then (y :: (bubblePass late x l).1, true)
    else (x :: (bubblePass late y l).1, (bubblePass late y l).2)

/-- Passes until one of them changes nothing. -/
def bubbleSort (late : α → α → Bool) : ℕ → List α → List α
  | 0, l => l
  | _ + 1, [] => []
  | fuel + 1, x :: l =>
    if (bubblePass late x l).2 then bubbleSort late fuel (bubblePass late x l).1
    else (bubblePass late x l).1

/-- The pairs in which the first element is late. -/
def inversions (late : α → α → Bool) : List α → ℕ
  | [] => 0
  | x :: l => l.countP (late x) + inversions late l

/-- No element is late to the next one. -/
abbrev Ordered (late : α → α → Bool) (l : List α) : Prop := l.IsChain fun x y => late x y = false

variable {late : α → α → Bool}

/-- When nothing is ever late, every list is in order. -/
theorem ordered_false (l : List α) : Ordered (fun _ _ => false) l := by
  induction l with
  | nil => exact List.isChain_nil
  | cons x l ih => exact ih.cons fun _ _ => rfl

/-! ## A pass -/

theorem perm_bubblePass (x : α) (l : List α) : (bubblePass late x l).1.Perm (x :: l) := by
  induction l generalizing x with
  | nil => simp [bubblePass]
  | cons y l ih =>
    rw [bubblePass]
    split
    · exact ((ih x).cons y).trans (List.Perm.swap x y l)
    · exact (ih y).cons x

/-- A pass that changes nothing has gone over a list in order. -/
theorem bubblePass_of_ordered {x : α} {l : List α} (h : Ordered late (x :: l)) :
    bubblePass late x l = (x :: l, false) := by
  induction l generalizing x with
  | nil => simp [bubblePass]
  | cons y l ih =>
    obtain ⟨hxy, hl⟩ := List.isChain_cons_cons.mp h
    simp [bubblePass, hxy, ih hl]

theorem ordered_of_bubblePass {x : α} {l : List α} (h : (bubblePass late x l).2 = false) :
    Ordered late (x :: l) := by
  induction l generalizing x with
  | nil => exact List.isChain_singleton x
  | cons y l ih =>
    rw [bubblePass] at h
    split at h
    · cases h
    · rename_i hxy
      exact List.isChain_cons_cons.mpr ⟨by simpa using hxy, ih h⟩

theorem bubblePass_of_not_changed {x : α} {l : List α} (h : (bubblePass late x l).2 = false) :
    (bubblePass late x l).1 = x :: l := by
  rw [bubblePass_of_ordered (ordered_of_bubblePass h)]

/-! ## Inversions -/

theorem inversions_le (l : List α) : inversions late l ≤ l.length * l.length := by
  induction l with
  | nil => simp [inversions]
  | cons x l ih =>
    have hcount : l.countP (late x) ≤ l.length := List.countP_le_length
    simp only [inversions, List.length_cons, Nat.add_mul, Nat.mul_add]
    omega

section Asymm

variable (hlate : ∀ x y, late x y = true → late y x = false)

include hlate

/-- **A pass** takes inversions away when it changes something, and never adds one. -/
theorem inversions_bubblePass (x : α) (l : List α) :
    inversions late (bubblePass late x l).1 ≤ inversions late (x :: l) ∧
      ((bubblePass late x l).2 = true →
        inversions late (bubblePass late x l).1 < inversions late (x :: l)) := by
  induction l generalizing x with
  | nil => simp [bubblePass, inversions]
  | cons y l ih =>
    rw [bubblePass]
    split
    · -- `y` comes first: it was one of the elements that `x` is late to
      rename_i hxy
      have hcount : (bubblePass late x l).1.countP (late y) = l.countP (late y) := by
        rw [(perm_bubblePass x l).countP_eq, List.countP_cons_of_neg (by simp [hlate x y hxy])]
      have hle := (ih x).1
      simp only [inversions, List.countP_cons_of_pos hxy, hcount] at hle ⊢
      omega
    · rename_i hxy
      have hcount : (bubblePass late y l).1.countP (late x) = (y :: l).countP (late x) :=
        (perm_bubblePass y l).countP_eq _
      obtain ⟨hle, hlt⟩ := ih y
      simp only [inversions, hcount] at hle hlt ⊢
      exact ⟨by omega, fun h => by have := hlt h; omega⟩

end Asymm

/-! ## The whole sort -/

theorem perm_bubbleSort (fuel : ℕ) (l : List α) : (bubbleSort late fuel l).Perm l := by
  induction fuel generalizing l with
  | zero => rfl
  | succ fuel ih =>
    cases l with
    | nil => rfl
    | cons x l =>
      rw [bubbleSort]
      split
      · exact (ih _).trans (perm_bubblePass x l)
      · exact perm_bubblePass x l

/-- **Sorting** puts a list in order when the fuel exceeds its inversions. By induction on
the fuel: each pass but the last uses up an inversion. -/
theorem ordered_bubbleSort (hlate : ∀ x y, late x y = true → late y x = false) {fuel : ℕ}
    {l : List α} (h : inversions late l < fuel) : Ordered late (bubbleSort late fuel l) := by
  induction fuel generalizing l with
  | zero => cases h
  | succ fuel ih =>
    cases l with
    | nil => exact List.isChain_nil
    | cons x l =>
      rw [bubbleSort]
      split
      · rename_i hchanged
        have hlt := (inversions_bubblePass hlate x l).2 hchanged
        exact ih (by omega)
      · rename_i hchanged
        have hchanged : (bubblePass late x l).2 = false := by simpa using hchanged
        rw [bubblePass_of_not_changed hchanged]
        exact ordered_of_bubblePass hchanged

/-- A list in order stays as it is. -/
theorem bubbleSort_of_ordered (fuel : ℕ) {l : List α} (h : Ordered late l) :
    bubbleSort late fuel l = l := by
  cases fuel with
  | zero => rfl
  | succ fuel =>
    cases l with
    | nil => rfl
    | cons x l => simp [bubbleSort, bubblePass_of_ordered h]

/-! ## Other elements, other relations -/

/-- A pass over what `f` makes of the elements. -/
theorem map_bubblePass {β : Type*} (f : β → α) (x : β) (l : List β) :
    ((bubblePass (fun x y => late (f x) (f y)) x l).1.map f,
        (bubblePass (fun x y => late (f x) (f y)) x l).2) =
      bubblePass late (f x) (l.map f) := by
  induction l generalizing x with
  | nil => rfl
  | cons y l ih =>
    rw [bubblePass, List.map_cons, bubblePass]
    split
    · rw [← ih x, List.map_cons]
    · rw [← ih y, List.map_cons]

/-- Sorting by what `f` makes of the elements. -/
theorem map_bubbleSort {β : Type*} (f : β → α) (fuel : ℕ) (l : List β) :
    (bubbleSort (fun x y => late (f x) (f y)) fuel l).map f = bubbleSort late fuel (l.map f) := by
  induction fuel generalizing l with
  | zero => rfl
  | succ fuel ih =>
    cases l with
    | nil => rfl
    | cons x l =>
      rw [bubbleSort, List.map_cons, bubbleSort, ← map_bubblePass f x l]
      split
      · exact ih _
      · rfl

/-- A pass compares no other elements than those of the list. -/
theorem bubblePass_congr {late' : α → α → Bool} {x : α} {l : List α}
    (h : ∀ y ∈ x :: l, ∀ z ∈ x :: l, late y z = late' y z) :
    bubblePass late x l = bubblePass late' x l := by
  induction l generalizing x with
  | nil => rfl
  | cons y l ih =>
    have hx : bubblePass late x l = bubblePass late' x l :=
      ih fun z hz w hw => h z (by grind) w (by grind)
    have hy : bubblePass late y l = bubblePass late' y l :=
      ih fun z hz w hw => h z (List.mem_cons_of_mem x hz) w (List.mem_cons_of_mem x hw)
    rw [bubblePass, bubblePass, h x (by simp) y (by simp), hx, hy]

theorem bubbleSort_congr {late' : α → α → Bool} (fuel : ℕ) {l : List α}
    (h : ∀ y ∈ l, ∀ z ∈ l, late y z = late' y z) :
    bubbleSort late fuel l = bubbleSort late' fuel l := by
  induction fuel generalizing l with
  | zero => rfl
  | succ fuel ih =>
    cases l with
    | nil => rfl
    | cons x l =>
      have hmem : ∀ y, y ∈ (bubblePass late' x l).1 ↔ y ∈ x :: l := fun y =>
        (perm_bubblePass x l).mem_iff
      rw [bubbleSort, bubbleSort, bubblePass_congr h]
      split
      · exact ih fun y hy z hz => h y ((hmem y).mp hy) z ((hmem z).mp hz)
      · rfl
