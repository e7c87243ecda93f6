import Mathlib.Algebra.Group.Int.Defs
import Mathlib.Algebra.Group.Nat.Defs
import Mathlib.Algebra.GroupWithZero.Nat
import Mathlib.Data.List.Lex
import Mathlib.Order.Fin.Basic

/-!
# Bytes and strings

The two text types of the program. A `QByteArray` is a word of bytes, compared
bytewise; store keys and document ids are of this type. A `QString` is a word of
UTF-16 code units, compared by code unit. Ids cross from one to the other through
`toLatin1` when a document is written and through `toLocal8Bit` when a query names
an `_id`; the two agree where UTF-8 needs one byte for each code unit
(`toLocal8Bit_eq_toLatin1_iff`).
-/

namespace Qdocdb

/-- `unsigned char`; arithmetic wraps. -/
abbrev Byte : Type := Fin 256

/-- A byte array. -/
abbrev QByteArray : Type := List Byte

/-- A UTF-16 code unit. -/
abbrev QChar : Type := Fin 65536

/-- A string of UTF-16 code units. -/
abbrev QString : Type := List QChar

instance neZero_byte : NeZero 256 := ⟨by decide⟩
instance neZero_char : NeZero 65536 := ⟨by decide⟩
instance lawfulBEq_string : LawfulBEq QString := inferInstance

/-- A byte array literal (characters below U+0100). -/
def bytes (s : String) : QByteArray := s.toList.map fun c => Fin.ofNat 256 c.toNat

/-- A string literal (characters below U+10000). -/
def qs (s : String) : QString := s.toList.map fun c => Fin.ofNat 65536 c.toNat

/-! ## Encodings -/

/-- One code unit of `QString::toLatin1`: above U+00FF it becomes `?`. -/
def latin1Byte (c : QChar) : Byte := if c.val < 256 then Fin.ofNat 256 c.val else 63

/-- `QString::toLatin1`. -/
def toLatin1 (s : QString) : QByteArray := s.map latin1Byte

/-- `QString::fromLatin1`. -/
def fromLatin1 (b : QByteArray) : QString := b.map fun c => Fin.ofNat 65536 c.val

@[simp] theorem length_toLatin1 (s : QString) : (toLatin1 s).length = s.length := by
  rw [toLatin1, List.length_map]

@[simp] theorem toLatin1_fromLatin1 (b : QByteArray) : toLatin1 (fromLatin1 b) = b := by
  rw [toLatin1, fromLatin1, List.map_map]
  refine List.map_id'' (fun c => ?_) b
  have hc : (Fin.ofNat 65536 c.val).val = c.val := Nat.mod_eq_of_lt (by omega)
  rw [Function.comp_apply, latin1Byte, hc, if_pos c.isLt]
  exact Fin.ext (Nat.mod_eq_of_lt c.isLt)

/-- The UTF-8 bytes of a code point. -/
def utf8Bytes (n : ℕ) : QByteArray :=
  if n < 0x80 then [Fin.ofNat 256 n]
  else if n < 0x800 then [Fin.ofNat 256 (0xC0 + n / 64), Fin.ofNat 256 (0x80 + n % 64)]
  else if n < 0x10000 then
    [Fin.ofNat 256 (0xE0 + n / 4096), Fin.ofNat 256 (0x80 + n / 64 % 64),
      Fin.ofNat 256 (0x80 + n % 64)]
  else
    [Fin.ofNat 256 (0xF0 + n / 262144), Fin.ofNat 256 (0x80 + n / 4096 % 64),
      Fin.ofNat 256 (0x80 + n / 64 % 64), Fin.ofNat 256 (0x80 + n % 64)]

/-- `QChar::isHighSurrogate`. -/
def isHighSurrogate (c : QChar) : Bool := decide (0xD800 ≤ c.val ∧ c.val < 0xDC00)

/-- `QChar::isLowSurrogate`. -/
def isLowSurrogate (c : QChar) : Bool := decide (0xDC00 ≤ c.val ∧ c.val < 0xE000)

/-- A code unit that is not part of a surrogate pair; a lone surrogate becomes `?`. -/
def utf8Unit (c : QChar) : QByteArray :=
  if isHighSurrogate c || isLowSurrogate c then [63] else utf8Bytes c.val

/-- `QString::toUtf8`. -/
def toUtf8 : QString → QByteArray
  | [] => []
  | [c] => utf8Unit c
  | c :: d :: rest =>
    if isHighSurrogate c && isLowSurrogate d then
      utf8Bytes (0x10000 + (c.val - 0xD800) * 1024 + (d.val - 0xDC00)) ++ toUtf8 rest
    else utf8Unit c ++ toUtf8 (d :: rest)

/-- An ASCII character is encoded on its own. -/
theorem toUtf8_cons_of_ascii {c : QChar} (hc : c.val < 0x80) (rest : QString) :
    toUtf8 (c :: rest) = Fin.ofNat 256 c.val :: toUtf8 rest := by
  have hhigh : isHighSurrogate c = false := by
    rw [isHighSurrogate, decide_eq_false_iff_not]
    omega
  have hlow : isLowSurrogate c = false := by
    rw [isLowSurrogate, decide_eq_false_iff_not]
    omega
  have hunit : utf8Unit c = [Fin.ofNat 256 c.val] := by
    rw [utf8Unit, hhigh, hlow, Bool.or_false, if_neg Bool.false_ne_true, utf8Bytes, if_pos hc]
  cases rest with
  | nil => rw [toUtf8, toUtf8, hunit]
  | cons d rest =>
    rw [toUtf8, hhigh, Bool.false_and, if_neg Bool.false_ne_true, hunit, List.singleton_append]

/-- `QString::toLocal8Bit`, under a UTF-8 locale. -/
def toLocal8Bit (s : QString) : QByteArray := toUtf8 s

/-- What is in front of an ASCII character is encoded on its own. -/
theorem toUtf8_append_of_ascii {c : QChar} (hc : c.val < 0x80) (s rest : QString) :
    toUtf8 (s ++ c :: rest) = toUtf8 s ++ toUtf8 (c :: rest) := by
  have hlow : isLowSurrogate c = false := by
    rw [isLowSurrogate, decide_eq_false_iff_not]
    omega
  induction s using toUtf8.induct with
  | case1 => rfl
  | case2 d =>
    rw [List.singleton_append, toUtf8.eq_3, hlow, Bool.and_false, if_neg Bool.false_ne_true,
      toUtf8.eq_2]
  | case3 d e s hpair ih =>
    rw [List.cons_append, List.cons_append, toUtf8, if_pos hpair, ih, toUtf8, if_pos hpair,
      List.append_assoc]
  | case4 d e s hpair ih =>
    rw [List.cons_append, List.cons_append, toUtf8, if_neg hpair, ← List.cons_append, ih, toUtf8,
      if_neg hpair, List.append_assoc]

/-- Only ASCII characters are encoded with bytes below 128, each as itself. -/
theorem val_of_mem_utf8Bytes {n : ℕ} (hn : n < 0x110000) {b : Byte} (h : b ∈ utf8Bytes n)
    (hb : b.val < 0x80) : b.val = n := by
  rw [utf8Bytes] at h
  split at h
  · rename_i hn
    rw [List.mem_singleton.mp h]
    exact Nat.mod_eq_of_lt (by omega)
  · -- all bytes of a longer encoding have the highest bit
    exfalso
    split at h
    · rename_i hn
      simp only [List.mem_cons, List.not_mem_nil, or_false] at h
      rcases h with rfl | rfl <;> simp only [Fin.ofNat] at hb <;> omega
    · split at h
      · simp only [List.mem_cons, List.not_mem_nil, or_false] at h
        rcases h with rfl | rfl | rfl <;> simp only [Fin.ofNat] at hb <;> omega
      · simp only [List.mem_cons, List.not_mem_nil, or_false] at h
        rcases h with rfl | rfl | rfl | rfl <;> simp only [Fin.ofNat] at hb <;> omega

/-- A byte below 128 encodes the character with its number, or is the `?` of a lone
surrogate. -/
theorem mem_of_mem_toUtf8 {s : QString} {b : Byte} (h : b ∈ toUtf8 s) (hb : b.val < 0x80)
    (hne : b ≠ 63) : ∃ c ∈ s, c.val = b.val := by
  have hunit : ∀ {c : QChar}, b ∈ utf8Unit c → c.val = b.val := by
    intro c h
    rw [utf8Unit] at h
    split at h
    · exact absurd (List.mem_singleton.mp h) hne
    · exact (val_of_mem_utf8Bytes (by omega) h hb).symm
  induction s using toUtf8.induct with
  | case1 => cases h
  | case2 c => exact ⟨c, List.mem_cons_self, hunit h⟩
  | case3 c d s hpair ih =>
    rw [toUtf8, if_pos hpair, List.mem_append] at h
    rcases h with h | h
    · -- a pair is encoded with high bytes only
      rw [Bool.and_eq_true, isHighSurrogate, isLowSurrogate, decide_eq_true_eq,
        decide_eq_true_eq] at hpair
      have hval := val_of_mem_utf8Bytes (by omega) h hb
      omega
    · obtain ⟨e, he, hval⟩ := ih h
      exact ⟨e, List.mem_cons_of_mem _ (List.mem_cons_of_mem _ he), hval⟩
  | case4 c d s hpair ih =>
    rw [toUtf8, if_neg hpair, List.mem_append] at h
    rcases h with h | h
    · exact ⟨c, List.mem_cons_self, hunit h⟩
    · obtain ⟨e, he, hval⟩ := ih h
      exact ⟨e, List.mem_cons_of_mem _ he, hval⟩

/-! ## Where the encodings agree -/

/-- A code unit that UTF-8 encodes in one byte when it stands alone. -/
def isOneByte (c : QChar) : Bool := decide (c.val < 0x80) || isHighSurrogate c || isLowSurrogate c

/-- A string of ASCII characters and surrogates, no two of which are a pair. -/
def isOneByteString : QString → Bool
  | [] => true
  | [c] => isOneByte c
  | c :: d :: rest =>
    !(isHighSurrogate c && isLowSurrogate d) && isOneByte c && isOneByteString (d :: rest)

theorem utf8Unit_of_isOneByte {c : QChar} (h : isOneByte c = true) :
    utf8Unit c = [latin1Byte c] := by
  rw [utf8Unit]
  by_cases hsurrogate : (isHighSurrogate c || isLowSurrogate c) = true
  · rw [if_pos hsurrogate]
    have hbig : ¬ c.val < 256 := by
      rw [Bool.or_eq_true, isHighSurrogate, isLowSurrogate, decide_eq_true_eq,
        decide_eq_true_eq] at hsurrogate
      omega
    rw [latin1Byte, if_neg hbig]
  · have hc : c.val < 0x80 := by
      rw [isOneByte, Bool.or_assoc, Bool.or_eq_true] at h
      exact of_decide_eq_true (h.resolve_right hsurrogate)
    rw [if_neg hsurrogate, utf8Bytes, if_pos hc, latin1Byte, if_pos (by omega)]

theorem two_le_length_utf8Unit {c : QChar} (h : isOneByte c = false) :
    2 ≤ (utf8Unit c).length := by
  rw [isOneByte, Bool.or_assoc, Bool.or_eq_false_iff, decide_eq_false_iff_not] at h
  obtain ⟨hc, hsurrogate⟩ := h
  rw [utf8Unit, hsurrogate, if_neg Bool.false_ne_true, utf8Bytes, if_neg hc]
  split
  · exact le_rfl
  · split <;> simp

/-- UTF-8 needs a byte for each code unit at least, and more if a character is not encoded in
one byte. -/
theorem length_toUtf8 (s : QString) :
    s.length ≤ (toUtf8 s).length ∧
      (isOneByteString s = false → s.length < (toUtf8 s).length) := by
  have hunit : ∀ c, 1 ≤ (utf8Unit c).length ∧ (isOneByte c = false → 2 ≤ (utf8Unit c).length) := by
    intro c
    refine ⟨?_, two_le_length_utf8Unit⟩
    cases hc : isOneByte c with
    | true => rw [utf8Unit_of_isOneByte hc, List.length_singleton]
    | false => exact le_of_lt (two_le_length_utf8Unit hc)
  induction s using toUtf8.induct with
  | case1 => simp [toUtf8, isOneByteString]
  | case2 c => exact hunit c
  | case3 c d rest hpair ih =>
    -- a pair takes four bytes
    have hbytes : (utf8Bytes (0x10000 + (c.val - 0xD800) * 1024 + (d.val - 0xDC00))).length = 4 := by
      rw [utf8Bytes, if_neg (by omega), if_neg (by omega), if_neg (by omega)]
      rfl
    rw [toUtf8, if_pos hpair, List.length_append, hbytes, List.length_cons, List.length_cons]
    omega
  | case4 c d rest hpair ih =>
    obtain ⟨hlen, hone⟩ := hunit c
    rw [toUtf8, if_neg hpair, List.length_append, List.length_cons, isOneByteString]
    refine ⟨by omega, fun h => ?_⟩
    rw [eq_false_of_ne_true hpair, Bool.not_false, Bool.true_and, Bool.and_eq_false_iff] at h
    rcases h with hc | hrest
    · have := hone hc
      omega
    · have := ih.2 hrest
      omega

/-- **Encodings** agree on the strings that UTF-8 encodes in one byte for each code unit. -/
theorem toLocal8Bit_eq_toLatin1_iff {s : QString} :
    toLocal8Bit s = toLatin1 s ↔ isOneByteString s = true := by
  constructor
  · intro h
    by_contra hs
    have hlt := (length_toUtf8 s).2 (eq_false_of_ne_true hs)
    rw [show toUtf8 s = toLatin1 s from h, length_toLatin1] at hlt
    exact lt_irrefl _ hlt
  · intro h
    rw [toLocal8Bit]
    induction s using toUtf8.induct with
    | case1 => rfl
    | case2 c => exact utf8Unit_of_isOneByte h
    | case3 c d rest hpair ih => simp [isOneByteString, hpair] at h
    | case4 c d rest hpair ih =>
      rw [isOneByteString, Bool.and_eq_true, Bool.and_eq_true] at h
      rw [toUtf8, if_neg hpair, utf8Unit_of_isOneByte h.1.2, ih h.2]
      rfl

end Qdocdb
