import Mathlib.Order.Basic

/-!
# Loops

`whileLoop` runs a body as long as a condition holds. The fuel bounds the rounds: `none`
says that it did not suffice, so a loop terminates when some fuel gives a result, and then
more fuel gives the same one (`whileLoop_mono`). A body may run a loop of its own and so is
partial too.
-/

universe u

variable {σ : Type u} {cond : σ → Bool} {body : σ → Option σ}

/-- `while (cond) body`. -/
def whileLoop (cond : σ → Bool) (body : σ → Option σ) : ℕ → σ → Option σ
  | 0, _ => none
  | fuel + 1, s => if cond s then (body s).bind (whileLoop cond body fuel) else some s

/-- The condition fails: the loop ends where it is. -/
theorem whileLoop_of_false {s : σ} (h : cond s = false) (fuel : ℕ) :
    whileLoop cond body (fuel + 1) s = some s := by
  rw [whileLoop, h]
  rfl

/-- The condition holds: the loop goes on behind a round. -/
theorem whileLoop_of_true {s s' : σ} (h : cond s = true) (hbody : body s = some s') (fuel : ℕ) :
    whileLoop cond body (fuel + 1) s = whileLoop cond body fuel s' := by
  rw [whileLoop, h, hbody]
  rfl

/-- More fuel gives the same result. By induction on the fuel that sufficed. -/
theorem whileLoop_mono {fuel fuel' : ℕ} (hle : fuel ≤ fuel') {s s' : σ}
    (h : whileLoop cond body fuel s = some s') : whileLoop cond body fuel' s = some s' := by
  induction fuel generalizing fuel' s with
  | zero => cases h
  | succ fuel ih =>
    obtain ⟨more, rfl⟩ := Nat.exists_eq_add_of_le' hle
    rw [whileLoop] at h
    rw [← Nat.add_assoc, whileLoop]
    split at h
    · rename_i hcond
      obtain ⟨t, ht, hrun⟩ := Option.bind_eq_some_iff.mp h
      rw [if_pos hcond, ht]
      exact ih (by omega) hrun
    · rename_i hcond
      rw [if_neg hcond, h]

/-- A loop that keeps to states from which it goes on does not end. -/
theorem whileLoop_eq_none {P : σ → Prop} (hcond : ∀ s, P s → cond s = true)
    (hbody : ∀ s s', P s → body s = some s' → P s') {s : σ} (hs : P s) (fuel : ℕ) :
    whileLoop cond body fuel s = none := by
  induction fuel generalizing s with
  | zero => rfl
  | succ fuel ih =>
    rw [whileLoop, if_pos (hcond s hs), Option.bind_eq_none_iff]
    exact fun s' hs' => ih (hbody s s' hs hs')

/-- The states in which the condition is tested. -/
inductive WhileReaches (cond : σ → Bool) (body : σ → Option σ) (s : σ) : σ → Prop
  | start : WhileReaches cond body s s
  | round {t t' : σ} : WhileReaches cond body s t → cond t = true → body t = some t' →
    WhileReaches cond body s t'

/-- What is reached from the state behind the first round is reached. -/
theorem WhileReaches.of_round {s s' t : σ} (hcond : cond s = true) (hbody : body s = some s')
    (h : WhileReaches cond body s' t) : WhileReaches cond body s t := by
  induction h with
  | start => exact .round .start hcond hbody
  | round _ hcond' hbody' ih => exact ih.round hcond' hbody'

/-- A state that is reached is the first one, or reached from the state behind the first
round. -/
theorem WhileReaches.eq_or_of_round {s s' t : σ} (hbody : body s = some s')
    (h : WhileReaches cond body s t) : t = s ∨ WhileReaches cond body s' t := by
  induction h with
  | start => exact .inl rfl
  | round _ hcond' hbody' ih =>
    rcases ih with rfl | ih
    · obtain rfl := Option.some.inj (hbody.symm.trans hbody')
      exact .inr .start
    · exact .inr (ih.round hcond' hbody')

/-- Where the condition fails nothing else is reached. -/
theorem WhileReaches.eq_of_false {s t : σ} (hcond : cond s = false)
    (h : WhileReaches cond body s t) : t = s := by
  induction h with
  | start => rfl
  | round _ hcond' _ ih =>
    rw [ih, hcond] at hcond'
    cases hcond'

/-- A loop seen through `f`, when its condition and its body are. -/
theorem whileLoop_map {τ : Type*} {cond' : τ → Bool} {body' : τ → Option τ} (f : σ → τ)
    (hcond : ∀ s, cond' (f s) = cond s) (hbody : ∀ s, body' (f s) = (body s).map f) (fuel : ℕ)
    (s : σ) : whileLoop cond' body' fuel (f s) = (whileLoop cond body fuel s).map f := by
  induction fuel generalizing s with
  | zero => rfl
  | succ fuel ih =>
    rw [whileLoop, whileLoop, hcond, hbody]
    split
    · cases body s with
      | none => rfl
      | some t => exact ih t
    · rfl
