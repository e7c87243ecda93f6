import Mathlib.Data.List.Forall2

/-!
# Runs of two machines

A machine takes an action in a state and gives outputs and the next state, or it does not
return. What it yields in a run is put together from the parts of the run (`Yields.trans`). A
relation between the states of two machines that every action keeps is kept by every run
(`Simulates.run`). An action of the first machine may have no counterpart in the second one; then
it gives no output, and the second machine stays where it is.
-/

universe u v w

section Machine

variable {S T A B O : Type*}

/-- Take some actions in order: all outputs and the last state. -/
def runActions (step : S → A → Option (List O × S)) : S → List A → Option (List O × S)
  | s, [] => some ([], s)
  | s, a :: as =>
    (step s a).bind fun p => (runActions step p.2 as).map fun q => (p.1 ++ q.1, q.2)

theorem runActions_append (step : S → A → Option (List O × S)) (s : S) (as bs : List A) :
    runActions step s (as ++ bs) =
      (runActions step s as).bind fun p =>
        (runActions step p.2 bs).map fun q => (p.1 ++ q.1, q.2) := by
  induction as generalizing s with
  | nil => simp [runActions]
  | cons a as ih =>
    rw [List.cons_append, runActions, runActions]
    cases step s a with
    | none => rfl
    | some p =>
      rw [Option.bind_some, Option.bind_some, ih]
      cases runActions step p.2 as with
      | none => rfl
      | some q =>
        rw [Option.bind_some, Option.map_some, Option.bind_some, Option.map_map]
        exact congrArg (Option.map · _) (funext fun r => by simp)

/-- Some actions give these outputs and lead to this state. -/
def Yields (step : S → A → Option (List O × S)) (s : S) (outputs : List O) (s' : S) : Prop :=
  ∃ as, runActions step s as = some (outputs, s')

namespace Yields

variable {step : S → A → Option (List O × S)} {s s' s'' : S} {outputs outputs' : List O}

theorem refl (s : S) : Yields step s [] s := ⟨[], rfl⟩

theorem single {a : A} (h : step s a = some (outputs, s')) : Yields step s outputs s' :=
  ⟨[a], by simp [runActions, h]⟩

theorem trans (h : Yields step s outputs s') (h' : Yields step s' outputs' s'') :
    Yields step s (outputs ++ outputs') s'' := by
  obtain ⟨as, has⟩ := h
  obtain ⟨bs, hbs⟩ := h'
  exact ⟨as ++ bs, by rw [runActions_append, has, Option.bind_some, hbs]; rfl⟩

/-- **The rule for what was yielded**: what each step keeps of the outputs so far and of the state
is kept by every run. By induction on the actions. -/
theorem invariant {P : List O → S → Prop}
    (hstep : ∀ {s s' : S} {a : A} {before outputs : List O}, P before s →
      step s a = some (outputs, s') → P (before ++ outputs) s')
    (h : Yields step s outputs s') (hP : P [] s) : P outputs s' := by
  suffices hrun : ∀ before as, P before s → runActions step s as = some (outputs, s') →
      P (before ++ outputs) s' by
    obtain ⟨as, has⟩ := h
    exact hrun [] as hP has
  clear h hP
  intro before as hP has
  induction as generalizing s before outputs with
  | nil =>
    obtain ⟨rfl, rfl⟩ := Prod.mk.inj (Option.some.inj has)
    rwa [List.append_nil]
  | cons a as ih =>
    obtain ⟨p, hp, hrest⟩ := Option.bind_eq_some_iff.mp has
    obtain ⟨q, hq, heq⟩ := Option.map_eq_some_iff.mp hrest
    obtain ⟨rfl, rfl⟩ := Prod.mk.inj heq
    rw [← List.append_assoc]
    exact ih _ (hstep hP hp) hq

end Yields

/-- The same outputs, and related states. -/
def SameOutputs (R : S → T → Prop) (p : List O × S) (q : List O × T) : Prop :=
  p.1 = q.1 ∧ R p.2 q.2

/-- Both machines keep the relation on every action that `ok` allows. -/
structure Simulates (step : S → A → Option (List O × S)) (step' : T → B → Option (List O × T))
    (translate : A → Option B) (ok : A → Prop) (R : S → T → Prop) : Prop where
  matched : ∀ {s t a b}, R s t → ok a → translate a = some b →
    Option.Rel (SameOutputs R) (step s a) (step' t b)
  silent : ∀ {s t a}, R s t → ok a → translate a = none →
    ∃ s', step s a = some ([], s') ∧ R s' t

namespace Simulates

variable {step : S → A → Option (List O × S)} {step' : T → B → Option (List O × T)}
  {translate : A → Option B} {ok : A → Prop} {R : S → T → Prop}

/-- **The rule for runs**: both machines give the same outputs and come to related states, or
neither returns. By induction on the actions. -/
theorem run (h : Simulates step step' translate ok R) {s : S} {t : T} (hR : R s t) {as : List A}
    (hok : ∀ a ∈ as, ok a) :
    Option.Rel (SameOutputs R) (runActions step s as)
      (runActions step' t (as.filterMap translate)) := by
  induction as generalizing s t with
  | nil => exact .some ⟨rfl, hR⟩
  | cons a as ih =>
    obtain ⟨ha, has⟩ := List.forall_mem_cons.mp hok
    cases hb : translate a with
    | none =>
      obtain ⟨s', hstep, hR'⟩ := h.silent hR ha hb
      have hrun : runActions step s (a :: as) = runActions step s' as := by
        simp [runActions, hstep]
      rw [List.filterMap_cons_none hb, hrun]
      exact ih hR' has
    | some b =>
      have hstep := h.matched hR ha hb
      rw [List.filterMap_cons_some hb, runActions, runActions]
      generalize step s a = p at hstep ⊢
      generalize step' t b = q at hstep ⊢
      cases hstep with
      | none => exact .none
      | some hpq =>
        rename_i p q
        obtain ⟨houtputs, hR'⟩ := hpq
        have hrest := ih hR' has
        rw [Option.bind_some, Option.bind_some]
        generalize runActions step p.2 as = p' at hrest ⊢
        generalize runActions step' q.2 (as.filterMap translate) = q' at hrest ⊢
        cases hrest with
        | none => exact .none
        | some hpq' => exact .some ⟨congrArg₂ _ houtputs hpq'.1, hpq'.2⟩

/-- What both machines show of related states is the same after a run. -/
theorem map_run (h : Simulates step step' translate ok R) {V : Type*} {view : S → V}
    {view' : T → V} (hview : ∀ s t, R s t → view s = view' t) {s : S} {t : T} (hR : R s t)
    {as : List A} (hok : ∀ a ∈ as, ok a) :
    (runActions step s as).map (fun p => (p.1, view p.2)) =
      (runActions step' t (as.filterMap translate)).map fun p => (p.1, view' p.2) := by
  have hrun := h.run hR hok
  generalize runActions step s as = p at hrun ⊢
  generalize runActions step' t (as.filterMap translate) = q at hrun ⊢
  cases hrun with
  | none => rfl
  | some hpq => exact congrArg some (Prod.ext hpq.1 (hview _ _ hpq.2))

end Simulates

end Machine
