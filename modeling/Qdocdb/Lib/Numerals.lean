import Mathlib.Data.Nat.Digits.Lemmas

/-!
# Numerals

The digits of a number in a base, as they are written: the first digit first, no padding, and one
digit for zero. Two numerals written one behind the other do not tell where the first one ends,
but of two such pairs of which one is as large as the other in both numbers they do
(`numeral_append_inj`).
-/

/-- The digits of `n` in base `b`. -/
def numeral (b n : ℕ) : List ℕ := if n = 0 then [0] else (Nat.digits b n).reverse

variable {b m n m' n' : ℕ}

/-- A numeral is read back. -/
theorem ofDigits_reverse_numeral (b n : ℕ) : Nat.ofDigits b (numeral b n).reverse = n := by
  rw [numeral]
  split
  · rename_i h
    rw [h, List.reverse_singleton, Nat.ofDigits_singleton]
  · rw [List.reverse_reverse, Nat.ofDigits_digits]

theorem numeral_injective (b : ℕ) : Function.Injective (numeral b) := by
  intro m n h
  rw [← ofDigits_reverse_numeral b m, h, ofDigits_reverse_numeral]

theorem lt_of_mem_numeral (hb : 1 < b) {d : ℕ} (h : d ∈ numeral b n) : d < b := by
  rw [numeral] at h
  split at h
  · obtain rfl := List.mem_singleton.mp h
    exact Nat.zero_lt_of_lt hb
  · exact Nat.digits_lt_base hb (List.mem_reverse.mp h)

theorem length_numeral_pos (b n : ℕ) : 0 < (numeral b n).length := by
  rw [numeral]
  split
  · exact Nat.zero_lt_one
  · rename_i h
    rw [List.length_reverse, List.length_pos_iff, Nat.digits_ne_nil_iff_ne_zero]
    exact h

/-- A larger number has a numeral that is at least as long. -/
theorem length_numeral_le (h : m ≤ n) : (numeral b m).length ≤ (numeral b n).length := by
  by_cases hm : m = 0
  · rw [hm]
    exact length_numeral_pos b n
  · have hn : n ≠ 0 := by omega
    rw [numeral, numeral, if_neg hm, if_neg hn, List.length_reverse, List.length_reverse]
    exact Nat.le_length_digits_le b m n h

/-- **Two numerals** one behind the other, and two others for numbers that are not smaller: if
they read the same, they have the same lengths, and so they are the same. -/
theorem numeral_append_inj (hm : m ≤ m') (hn : n ≤ n')
    (h : numeral b m ++ numeral b n = numeral b m' ++ numeral b n') : m = m' ∧ n = n' := by
  have hlength := congrArg List.length h
  rw [List.length_append, List.length_append] at hlength
  have hfirst : (numeral b m).length = (numeral b m').length := by
    have := length_numeral_le (b := b) hm
    have := length_numeral_le (b := b) hn
    omega
  obtain ⟨hm, hn⟩ := List.append_inj h hfirst
  exact ⟨numeral_injective b hm, numeral_injective b hn⟩
