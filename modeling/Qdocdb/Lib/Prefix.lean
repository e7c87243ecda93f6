import Mathlib.Data.List.Lex
import Mathlib.Data.List.Sort
import Mathlib.Data.List.Infix

/-!
# Prefixes in a lexicographically sorted list

Keys are words over a linearly ordered alphabet, compared lexicographically.
Two facts about such keys carry every range scan of an ordered store:

* the words extending a given prefix are **order-convex**, so a scan that runs
  while the prefix matches sees all of them or leaves none behind;
* on a sorted list, running while a condition holds that is closed downwards
  in the list is the same as filtering by it.
-/

universe u v

variable {α : Type u}

/-! ## Lexicographic order and prefixes -/

section Lex

variable [LinearOrder α]

/-- A common prefix does not influence the comparison. -/
theorem List.append_lt_append_iff (p : List α) {a b : List α} :
    p ++ a < p ++ b ↔ a < b := by
  induction p with
  | nil => rfl
  | cons x p ih => rw [List.cons_append, List.cons_append, List.cons_lt_cons_self, ih]

/-- A word is below each of its proper extensions. -/
theorem List.lt_append_cons (p : List α) (x : α) (l : List α) : p < p ++ x :: l := by
  have h : p ++ [] < p ++ x :: l :=
    (List.append_lt_append_iff p).mpr (List.nil_lt_cons x l)
  rwa [List.append_nil] at h

/-- A prefix of a word is not above it. -/
theorem List.IsPrefix.le_of_lex {p a : List α} (h : p <+: a) : p ≤ a := by
  obtain ⟨t, rfl⟩ := h
  cases t with
  | nil => rw [List.append_nil]
  | cons x t => exact (List.lt_append_cons p x t).le

/-- **Convexity**: between two words with a common prefix every word has it. -/
theorem List.IsPrefix.of_le_of_le {p a b c : List α} (ha : p <+: a) (hc : p <+: c)
    (hab : a ≤ b) (hbc : b ≤ c) : p <+: b := by
  induction p generalizing a b c with
  | nil => exact List.nil_prefix
  | cons x p ih =>
    obtain ⟨s, rfl⟩ := ha
    obtain ⟨t, rfl⟩ := hc
    cases b with
    | nil => exact absurd hab (not_le_of_gt (List.nil_lt_cons x (p ++ s)))
    | cons y b =>
      have hyx : y ≤ x := by
        rcases hbc.lt_or_eq with h | h
        · exact List.head_le_of_lt h
        · exact (List.cons.inj h).1.le
      have hxy : x ≤ y := by
        rcases hab.lt_or_eq with h | h
        · exact List.head_le_of_lt h
        · exact (List.cons.inj h).1.le
      obtain rfl : x = y := le_antisymm hxy hyx
      have hps : p ++ s ≤ b := by
        rcases hab.lt_or_eq with h | h
        · exact (List.cons_lt_cons_self.mp h).le
        · exact (List.cons.inj h).2.le
      have hpt : b ≤ p ++ t := by
        rcases hbc.lt_or_eq with h | h
        · exact (List.cons_lt_cons_self.mp h).le
        · exact (List.cons.inj h).2.le
      obtain ⟨r, rfl⟩ := ih (List.prefix_append p s) (List.prefix_append p t) hps hpt
      exact ⟨r, rfl⟩

/-- Words are compared at the first position where they differ. -/
theorem List.append_cons_lt_append_cons (p : List α) {x y : α} (h : x < y)
    (l l' : List α) : p ++ x :: l < p ++ y :: l' :=
  (List.append_lt_append_iff p).mpr (.rel h)

end Lex

/-! ## Scans of sorted lists -/

section Scan

variable {q : α → Bool}

/-- Where a condition is inherited by earlier elements it holds on an initial
segment, so taking while it holds is filtering. -/
theorem List.takeWhile_eq_filter_of_pairwise {l : List α}
    (h : l.Pairwise fun a b => q b = true → q a = true) : l.takeWhile q = l.filter q := by
  induction l with
  | nil => rfl
  | cons a l ih =>
    obtain ⟨ha, hl⟩ := List.pairwise_cons.mp h
    cases hqa : q a with
    | true => rw [List.takeWhile_cons_of_pos hqa, List.filter_cons_of_pos hqa, ih hl]
    | false =>
      -- nothing behind a failing element passes the condition
      have hnil : l.filter q = [] := by
        rw [List.filter_eq_nil_iff]
        intro b hb hqb
        rw [ha b hb hqb] at hqa
        cases hqa
      rw [List.takeWhile_cons_of_neg (by simp [hqa]), List.filter_cons_of_neg (by simp [hqa]), hnil]

/-- Dropping while such a condition holds is filtering by its negation. -/
theorem List.dropWhile_eq_filter_of_pairwise {l : List α}
    (h : l.Pairwise fun a b => q b = true → q a = true) :
    l.dropWhile q = l.filter fun a => !q a := by
  induction l with
  | nil => rfl
  | cons a l ih =>
    obtain ⟨ha, hl⟩ := List.pairwise_cons.mp h
    cases hqa : q a with
    | true => rw [List.dropWhile_cons_of_pos hqa, List.filter_cons_of_neg (by simp [hqa]), ih hl]
    | false =>
      have hall : l.filter (fun b => !q b) = l := by
        rw [List.filter_eq_self]
        intro b hb
        cases hqb : q b with
        | false => rfl
        | true =>
          rw [ha b hb hqb] at hqa
          cases hqa
      rw [List.dropWhile_cons_of_neg (by simp [hqa]), List.filter_cons_of_pos (by simp [hqa]), hall]

end Scan

/-- Among sorted words that are not below `p`, those that extend `p` come first. -/
theorem List.pairwise_prefix_of_pairwise_lt [LinearOrder α] {β : Type v} {p : List α}
    {l : List (List α × β)} (hs : l.Pairwise fun a b => a.1 < b.1) (hp : ∀ e ∈ l, p ≤ e.1) :
    l.Pairwise fun a b => decide (p <+: b.1) = true → decide (p <+: a.1) = true := by
  refine hs.imp_of_mem fun ha _ hab hb => ?_
  rw [decide_eq_true_eq] at hb ⊢
  exact List.prefix_rfl.of_le_of_le hb (hp _ ha) hab.le
