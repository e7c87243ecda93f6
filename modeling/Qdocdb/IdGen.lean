import Qdocdb.Lib.Numerals
import Qdocdb.Text

/-!
# Generated ids

`getId` writes the seconds of the clock and the number of the call one behind the other, in
hexadecimal digits without padding. No two ids of one generator are the same, as long as its
clock does not go back and its counter does not wrap (`nodup_getIds`).
-/

namespace Qdocdb

/-! ## Hexadecimal digits -/

/-- A hexadecimal digit, in lower case. -/
def hexDigit (d : ℕ) : Byte := Fin.ofNat 256 (Nat.digitChar d).toNat

/-- `QByteArray::number(n, 16)` for an unsigned number. -/
def QByteArray.number (n : ℕ) : QByteArray := (numeral 16 n).map hexDigit

example : QByteArray.number 48879 = bytes "beef" := by decide +kernel

theorem hexDigit_inj {d d' : ℕ} (hd : d < 16) (hd' : d' < 16) (h : hexDigit d = hexDigit d') :
    d = d' := by
  have hall : ∀ d < 16, ∀ d' < 16, hexDigit d = hexDigit d' → d = d' := by decide
  exact hall d hd d' hd' h

/-- Hexadecimal numerals tell their digits apart. -/
theorem map_hexDigit_inj {l l' : List ℕ} (hl : ∀ d ∈ l, d < 16) (hl' : ∀ d ∈ l', d < 16)
    (h : l.map hexDigit = l'.map hexDigit) : l = l' := by
  induction l generalizing l' with
  | nil => exact (List.map_eq_nil_iff.mp h.symm).symm
  | cons d l ih =>
    obtain ⟨d', rest, rfl, hd, hrest⟩ := List.map_eq_cons_iff.mp h.symm
    obtain rfl := hexDigit_inj (hl' d' List.mem_cons_self) (hl d List.mem_cons_self) hd
    rw [ih (fun e he => hl e (List.mem_cons_of_mem _ he))
      (fun e he => hl' e (List.mem_cons_of_mem _ he)) hrest.symm]

/-- Two numbers one behind the other, and two that are not smaller. -/
theorem number_append_inj {m n m' n' : ℕ} (hm : m ≤ m') (hn : n ≤ n')
    (h : QByteArray.number m ++ QByteArray.number n =
      QByteArray.number m' ++ QByteArray.number n') : m = m' ∧ n = n' := by
  have hdigits : ∀ m n, ∀ d ∈ numeral 16 m ++ numeral 16 n, d < 16 := fun m n d hd =>
    (List.mem_append.mp hd).elim (lt_of_mem_numeral (by decide)) (lt_of_mem_numeral (by decide))
  rw [QByteArray.number, QByteArray.number, QByteArray.number, QByteArray.number,
    ← List.map_append, ← List.map_append] at h
  exact numeral_append_inj hm hn (map_hexDigit_inj (hdigits m n) (hdigits m' n') h)

/-! ## The generator -/

/-- `QDocIdGen`: the counter of `getId`. -/
structure QDocIdGen where
  counter : UInt64

namespace QDocIdGen

/-- The seconds of a clock reading in milliseconds, cut to 32 bits. -/
def tstamp (msecs : ℤ) : ℕ := (msecs.tdiv 1000 % 2 ^ 32).toNat

/-- `getId`, when `currentMSecsSinceEpoch` returns `msecs`. -/
def getId (gen : QDocIdGen) (msecs : ℤ) : QByteArray × QDocIdGen :=
  let counter := gen.counter + 1
  (QByteArray.number (tstamp msecs) ++ QByteArray.number counter.toNat, ⟨counter⟩)

/-- The ids of calls of `getId`, one for each clock reading. -/
def getIds (gen : QDocIdGen) : List ℤ → List QByteArray
  | [] => []
  | msecs :: readings => (gen.getId msecs).1 :: getIds (gen.getId msecs).2 readings

/-- The seconds are whole when they fit into 32 bits. -/
theorem tstamp_le {msecs msecs' : ℤ} (h : 0 ≤ msecs) (hle : msecs ≤ msecs')
    (hlt : msecs'.tdiv 1000 < 2 ^ 32) : tstamp msecs ≤ tstamp msecs' := by
  have hdiv : msecs.tdiv 1000 = msecs / 1000 := Int.tdiv_eq_ediv_of_nonneg h
  have hdiv' : msecs'.tdiv 1000 = msecs' / 1000 := Int.tdiv_eq_ediv_of_nonneg (h.trans hle)
  rw [tstamp, tstamp, hdiv, hdiv']
  rw [hdiv'] at hlt
  omega

variable {gen : QDocIdGen}

/-- **Step**: a call of `getId` counts on, as long as the counter does not wrap. -/
theorem counter_getId (h : gen.counter.toNat + 1 < 2 ^ 64) (msecs : ℤ) :
    (gen.getId msecs).2.counter.toNat = gen.counter.toNat + 1 := by
  show (gen.counter + 1).toNat = gen.counter.toNat + 1
  rw [UInt64.toNat_add]
  exact Nat.mod_eq_of_lt h

/-- **Run**: an id is made of a reading and of a number above the counter. By induction on the
readings. -/
theorem exists_of_mem_getIds {readings : List ℤ}
    (hcalls : gen.counter.toNat + readings.length < 2 ^ 64) {id : QByteArray}
    (h : id ∈ gen.getIds readings) : ∃ msecs ∈ readings, ∃ n, gen.counter.toNat < n ∧
      id = QByteArray.number (tstamp msecs) ++ QByteArray.number n := by
  induction readings generalizing gen with
  | nil => cases h
  | cons msecs readings ih =>
    rw [List.length_cons] at hcalls
    have hcounter : (gen.getId msecs).2.counter.toNat = gen.counter.toNat + 1 :=
      counter_getId (by omega) msecs
    rcases List.mem_cons.mp h with rfl | h
    · exact ⟨msecs, List.mem_cons_self, (gen.getId msecs).2.counter.toNat, by omega, rfl⟩
    · obtain ⟨msecs', hmem, n, hn, heq⟩ := ih (by omega) h
      exact ⟨msecs', List.mem_cons_of_mem _ hmem, n, by omega, heq⟩

/-- Ids are different while their seconds do not decrease. By induction on the readings. -/
theorem nodup_getIds_of_tstamp {readings : List ℤ}
    (hcalls : gen.counter.toNat + readings.length < 2 ^ 64)
    (hclock : readings.Pairwise fun msecs msecs' => tstamp msecs ≤ tstamp msecs') :
    (gen.getIds readings).Nodup := by
  induction readings generalizing gen with
  | nil => exact List.nodup_nil
  | cons msecs readings ih =>
    rw [List.length_cons] at hcalls
    have hcounter : (gen.getId msecs).2.counter.toNat = gen.counter.toNat + 1 :=
      counter_getId (by omega) msecs
    obtain ⟨hfirst, hclock⟩ := List.pairwise_cons.mp hclock
    refine List.nodup_cons.mpr ⟨fun hmem => ?_, ih (by omega) hclock⟩
    -- a later id that reads the same would have the number of this call
    obtain ⟨msecs', hmem', n, hn, heq⟩ := exists_of_mem_getIds (by omega) hmem
    exact hn.ne (number_append_inj (hfirst msecs' hmem') hn.le heq).2

/-- **Generated ids are unique**: calls whose clock readings never decrease and stay below
`2 ^ 32` seconds return different ids, as long as the counter does not wrap. -/
theorem nodup_getIds (gen : QDocIdGen) (readings : List ℤ)
    (hcalls : gen.counter.toNat + readings.length < 2 ^ 64)
    (hclock : readings.Pairwise (· ≤ ·))
    (hsecs : ∀ msecs ∈ readings, 0 ≤ msecs ∧ msecs.tdiv 1000 < 2 ^ 32) :
    (gen.getIds readings).Nodup :=
  nodup_getIds_of_tstamp hcalls (hclock.imp_of_mem fun hmem hmem' hle =>
    tstamp_le (hsecs _ hmem).1 hle (hsecs _ hmem').2)

/-- The digits of the clock and those of the counter grow in the same call. -/
theorem nodup_getIds_widening : (getIds ⟨14⟩ [15999, 16000]).Nodup :=
  nodup_getIds ⟨14⟩ [15999, 16000] (by decide) (by decide) (by decide)

end QDocIdGen

end Qdocdb
