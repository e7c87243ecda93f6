import Mathlib.Data.Nat.ModEq
import Mathlib.Tactic.Ring

/-!
# Reading back what was written

A decoder takes a value off the front of a list of symbols and leaves the rest, or it fails. It
reads a value back from a code (`Decodes`) when it does so whatever follows the code, so a
sequence of decoders reads back the codes one behind the other, and a counted list of values needs
no mark behind its last one. Numbers are written with a fixed number of digits, the most
significant first.
-/

universe u v

/-- A decoder of values of type `α` from symbols of type `σ`. -/
abbrev Decoder (σ : Type u) : Type u → Type u := StateT (List σ) Option

/-- The decoder reads the value back from the code, and leaves what follows. -/
def Decodes {σ α : Type u} (d : Decoder σ α) (code : List σ) (a : α) : Prop :=
  ∀ rest, d.run (code ++ rest) = some (a, rest)

namespace Decoder

variable {σ α β : Type u}

/-- The next symbol. -/
def next : Decoder σ σ
  | [] => none
  | x :: rest => some (x, rest)

/-- As many values as the number says. -/
def many (d : Decoder σ α) : ℕ → Decoder σ (List α)
  | 0 => pure []
  | n + 1 => do
    let a ← d
    let as ← many d n
    pure (a :: as)

end Decoder

namespace Decodes

variable {σ α β : Type u} {code code' : List σ} {a : α} {b : β}

theorem pure (a : α) : Decodes (Pure.pure a : Decoder σ α) [] a := fun _ => rfl

/-- One value behind the other. -/
theorem bind {d : Decoder σ α} {f : α → Decoder σ β} (h : Decodes d code a)
    (hf : Decodes (f a) code' b) : Decodes (d >>= f) (code ++ code') b := by
  intro rest
  rw [StateT.run_bind, List.append_assoc, h]
  exact hf rest

theorem map {d : Decoder σ α} (f : α → β) (h : Decodes d code a) :
    Decodes (f <$> d) code (f a) := by
  intro rest
  rw [StateT.run_map, h]
  rfl

theorem next (x : σ) : Decodes Decoder.next [x] x := fun _ => rfl

/-- Values one behind the other. -/
theorem many {d : Decoder σ α} {w : α → List σ} {as : List α}
    (h : ∀ a ∈ as, Decodes d (w a) a) : Decodes (d.many as.length) (as.flatMap w) as := by
  induction as with
  | nil => exact pure []
  | cons a as ih =>
    have has := ih fun a' ha' => h a' (List.mem_cons_of_mem a ha')
    have htail : Decodes (do let as ← d.many as.length; Pure.pure (a :: as))
        (as.flatMap w ++ []) (a :: as) := has.bind (pure _)
    rw [List.append_nil] at htail
    exact (h a List.mem_cons_self).bind htail

end Decodes

/-! ## Lengths -/

section Length

variable {α : Type u} {σ : Type v} {w : α → List σ} {as : List α}

theorem length_le_length_flatMap_of_mem {a : α} (h : a ∈ as) :
    (w a).length ≤ (as.flatMap w).length := by
  obtain ⟨s, t, rfl⟩ := List.append_of_mem h
  rw [List.flatMap_append, List.flatMap_cons, List.length_append, List.length_append]
  omega

/-- Codes that are not empty are together as long as there are values. -/
theorem length_le_length_flatMap (h : ∀ a ∈ as, w a ≠ []) :
    as.length ≤ (as.flatMap w).length := by
  induction as with
  | nil => exact Nat.zero_le _
  | cons a as ih =>
    have ha := List.length_pos_iff.mpr (h a List.mem_cons_self)
    have has := ih fun a' ha' => h a' (List.mem_cons_of_mem a ha')
    rw [List.flatMap_cons, List.length_append, List.length_cons]
    omega

end Length

/-! ## Numbers -/

section Number

variable (b : ℕ) [NeZero b]

/-- The last `k` digits of a number in base `b`, the most significant first. -/
def bigEndian : ℕ → ℕ → List (Fin b)
  | 0, _ => []
  | k + 1, n => Fin.ofNat b (n / b ^ k) :: bigEndian k n

/-- A number of `k` digits, behind the digits of `n`. -/
def Decoder.number : ℕ → ℕ → Decoder (Fin b) ℕ
  | 0, n => Pure.pure n
  | k + 1, n => do
    let digit ← Decoder.next
    Decoder.number k (b * n + digit.val)

variable {b}

@[simp] theorem length_bigEndian (k n : ℕ) : (bigEndian b k n).length = k := by
  induction k with
  | zero => rfl
  | succ k ih => rw [bigEndian, List.length_cons, ih]

/-- Digits are read back, by induction on their number. -/
theorem Decodes.digits (k n m : ℕ) :
    Decodes (Decoder.number b k m) (bigEndian b k n) (b ^ k * m + n % b ^ k) := by
  induction k generalizing m with
  | zero =>
    rw [pow_zero, one_mul, Nat.mod_one, Nat.add_zero]
    exact Decodes.pure m
  | succ k ih =>
    have hvalue : b ^ (k + 1) * m + n % b ^ (k + 1) =
        b ^ k * (b * m + (Fin.ofNat b (n / b ^ k)).val) + n % b ^ k := by
      rw [Fin.val_ofNat, Nat.mod_pow_succ, pow_succ]
      ring
    rw [hvalue]
    exact (Decodes.next (Fin.ofNat b (n / b ^ k))).bind (ih _)

/-- A number with at most `k` digits is read back. -/
theorem Decodes.number {k n : ℕ} (h : n < b ^ k) :
    Decodes (Decoder.number b k 0) (bigEndian b k n) n := by
  have hdigits := Decodes.digits (b := b) k n 0
  rwa [Nat.mul_zero, Nat.zero_add, Nat.mod_eq_of_lt h] at hdigits

end Number
