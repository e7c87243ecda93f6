import Qdocdb.Json
import Qdocdb.Lib.Codec
import Qdocdb.Lib.SortedMap

/-!
# Variants and their stream

A link object is a `QVariantMap`, and `QDataStream` writes it: a count, and for each field its key
and its value, a value as its type, a flag and its content. Maps are written from their last
field to their first one, and the reader inserts one field after the other. Whatever was written
is read back (`readMap_writeMap`), as long as its length is an `unsigned int`.

A null string is taken for an empty one.
-/

namespace Qdocdb

/-- `QVariant`, of the kinds that link objects hold. -/
inductive QVariant where
  | invalid
  | null
  | bool (b : Bool)
  | int (n : ℤ)
  | double (d : Double)
  | map (m : List (QString × QVariant))
  | list (l : List QVariant)
  | string (s : QString)
  | stringList (l : List QString)
  | byteArray (b : QByteArray)
  deriving Inhabited

/-- `QVariantMap` -/
abbrev QVariantMap : Type := SortedMap QString QVariant

/-- A variant that a program can hold: its numbers are of type `int`, and its maps are maps. -/
inductive QVariant.Valid : QVariant → Prop
  | invalid : Valid .invalid
  | null : Valid .null
  | bool (b : Bool) : Valid (.bool b)
  | int {n : ℤ} (h : -2 ^ 31 ≤ n ∧ n < 2 ^ 31) : Valid (.int n)
  | double (d : Double) : Valid (.double d)
  | map {m : QVariantMap} (h : ∀ f ∈ m.entries, Valid f.2) : Valid (.map m.entries)
  | list {l : List QVariant} (h : ∀ v ∈ l, Valid v) : Valid (.list l)
  | string (s : QString) : Valid (.string s)
  | stringList (l : List QString) : Valid (.stringList l)
  | byteArray (b : QByteArray) : Valid (.byteArray b)

/-! ## Writing -/

/-- `QDataStream << quint32` -/
def writeCount (n : ℕ) : QByteArray := bigEndian 256 4 n

/-- `QDataStream << QString` -/
def writeString (s : QString) : QByteArray :=
  writeCount (2 * s.length) ++ s.flatMap fun c => bigEndian 256 2 c.val

/-- The type of a variant and its flag. -/
def writeHead (typeId : ℕ) (isNull : Byte) : QByteArray := writeCount typeId ++ [isNull]

mutual

/-- `QDataStream << QVariant` -/
def QVariant.write : QVariant → QByteArray
  | invalid => writeHead 0 1
  | bool b => writeHead 1 0 ++ [if b then 1 else 0]
  | int n => writeHead 2 0 ++ writeCount (n % 2 ^ 32).toNat
  | double d => writeHead 6 0 ++ bigEndian 256 8 d.bits.toNat
  | map m => writeHead 8 0 ++ (writeCount m.length ++ writeFields m)
  | list l => writeHead 9 0 ++ (writeCount l.length ++ writeElements l)
  | string s => writeHead 10 0 ++ writeString s
  | stringList l => writeHead 11 0 ++ (writeCount l.length ++ l.flatMap writeString)
  | byteArray b => writeHead 12 0 ++ (writeCount b.length ++ b)
  | null => writeHead 51 0

/-- The elements of a list. -/
def QVariant.writeElements : List QVariant → QByteArray
  | [] => []
  | v :: l => v.write ++ writeElements l

/-- The fields of a map, from the last one to the first one. -/
def QVariant.writeFields : List (QString × QVariant) → QByteArray
  | [] => []
  | (key, v) :: m => writeFields m ++ (writeString key ++ v.write)

end

/-- `QDataStream << QVariantMap` -/
def writeMap (m : QVariantMap) : QByteArray :=
  writeCount m.entries.length ++ QVariant.writeFields m.entries

/-! ## Reading -/

/-- `QDataStream >> quint32` -/
def readCount : Decoder Byte ℕ := Decoder.number 256 4 0

/-- `QDataStream >> QString`; a null string is read as an empty one. -/
def readString : Decoder Byte QString := do
  let n ← readCount
  if n = 0xFFFFFFFF then pure []
  else (Fin.ofNat 65536 <$> Decoder.number 256 2 0 : Decoder Byte QChar).many (n / 2)

/-- A field of a map. -/
def readField (read : Decoder Byte QVariant) : Decoder Byte (QString × QVariant) := do
  let key ← readString
  let v ← read
  pure (key, v)

/-- `QDataStream >> QVariantMap`, with the reader of its values. -/
def readFields (read : Decoder Byte QVariant) : Decoder Byte QVariantMap := do
  let n ← readCount
  let fields ← (readField read).many n
  pure (fields.foldl (fun m f => m.insert f.1 f.2) .empty)

/-- The content of a variant behind its type. -/
def readContent (read : Decoder Byte QVariant) : ℕ → Decoder Byte QVariant
  | 0 => pure .invalid
  | 1 => (fun b : Byte => .bool (decide (b ≠ 0))) <$> Decoder.next
  | 2 => (fun n : ℕ => .int (if n < 2 ^ 31 then n else n - 2 ^ 32)) <$> readCount
  | 6 => (fun n : ℕ => .double ⟨BitVec.ofNat 64 n⟩) <$> Decoder.number 256 8 0
  | 8 => (fun m => .map m.entries) <$> readFields read
  | 9 => do
    let n ← readCount
    .list <$> read.many n
  | 10 => .string <$> readString
  | 11 => do
    let n ← readCount
    .stringList <$> readString.many n
  | 12 => do
    let n ← readCount
    .byteArray <$> Decoder.next.many n
  | 51 => pure .null
  | _ => failure

/-- `QDataStream >> QVariant`; variants are nested less deep than the fuel. -/
def readVariant : ℕ → Decoder Byte QVariant
  | 0 => failure
  | fuel + 1 => do
    let typeId ← readCount
    let _ ← Decoder.next
    readContent (readVariant fuel) typeId

/-- A map from its bytes; it is empty when they cannot be read. -/
def readMap (data : QByteArray) : QVariantMap :=
  match (readFields (readVariant data.length)).run data with
  | some (m, _) => m
  | none => .empty

/-! ## Reading back -/

theorem writeElements_eq (l : List QVariant) :
    QVariant.writeElements l = l.flatMap QVariant.write := by
  induction l with
  | nil => rfl
  | cons v l ih => rw [QVariant.writeElements, ih, List.flatMap_cons]

theorem writeFields_eq (m : List (QString × QVariant)) : QVariant.writeFields m =
    m.reverse.flatMap fun f => writeString f.1 ++ f.2.write := by
  induction m with
  | nil => rfl
  | cons f m ih =>
    rw [QVariant.writeFields, ih, List.reverse_cons, List.flatMap_append, List.flatMap_singleton]

theorem decodes_count {n : ℕ} (h : n < 2 ^ 32) : Decodes readCount (writeCount n) n :=
  Decodes.number h

theorem decodes_string {s : QString} (h : (writeString s).length < 2 ^ 32) :
    Decodes readString (writeString s) s := by
  have hunit : ∀ c ∈ s, Decodes (Fin.ofNat 65536 <$> Decoder.number 256 2 0 : Decoder Byte QChar)
      (bigEndian 256 2 c.val) c := by
    intro c _
    have hc := (Decodes.number (b := 256) (k := 2) c.isLt).map (Fin.ofNat 65536)
    rwa [Fin.ofNat_val_eq_self] at hc
  have hlength : (s.flatMap fun c => bigEndian 256 2 c.val).length = 2 * s.length := by
    simp [List.length_flatMap, Nat.mul_comm]
  rw [writeString, List.length_append, hlength] at h
  have hcount : (writeCount (2 * s.length)).length = 4 := length_bigEndian 4 _
  refine (decodes_count (by omega)).bind ?_
  rw [if_neg (by omega), Nat.mul_div_cancel_left _ (by omega)]
  exact Decodes.many hunit

/-- A map is read back with a reader that reads its values back. -/
theorem decodes_fields {read : Decoder Byte QVariant} {m : QVariantMap}
    (hlength : (writeMap m).length < 2 ^ 32)
    (h : ∀ f ∈ m.entries, f.2.write.length ≤ (QVariant.writeFields m.entries).length →
      Decodes read f.2.write f.2) :
    Decodes (readFields read) (writeMap m) m := by
  rw [writeMap, List.length_append, writeFields_eq] at hlength
  have hfields : ∀ f ∈ m.entries.reverse,
      Decodes (readField read) (writeString f.1 ++ f.2.write) f := by
    intro f hf
    have hle := length_le_length_flatMap_of_mem
      (w := fun f : QString × QVariant => writeString f.1 ++ f.2.write) hf
    rw [List.length_append] at hle
    have hvalue : Decodes (do let v ← read; pure (f.1, v)) (f.2.write ++ []) f :=
      (h f (List.mem_reverse.mp hf) (by rw [writeFields_eq]; omega)).bind (.pure f)
    rw [List.append_nil] at hvalue
    exact (decodes_string (by omega)).bind hvalue
  have hcount : m.entries.reverse.length ≤ _ := length_le_length_flatMap
    (w := fun f : QString × QVariant => writeString f.1 ++ f.2.write) fun f _ => by
      simp [writeString, writeCount, bigEndian]
  rw [List.length_reverse] at hcount
  rw [writeMap, writeFields_eq]
  refine (decodes_count (by omega)).bind ?_
  have hmany := Decodes.many hfields
  rw [List.length_reverse] at hmany
  rw [← List.append_nil (m.entries.reverse.flatMap _)]
  refine hmany.bind ?_
  rw [SortedMap.foldl_insert_reverse]
  exact .pure m

/-- A variant is read back when its content is. -/
theorem decodes_content {fuel typeId : ℕ} {isNull : Byte} {content : QByteArray} {v : QVariant}
    (htype : typeId < 2 ^ 32) (h : Decodes (readContent (readVariant fuel) typeId) content v) :
    Decodes (readVariant (fuel + 1)) (writeHead typeId isNull ++ content) v := by
  rw [writeHead, List.append_assoc]
  exact (decodes_count htype).bind ((Decodes.next isNull).bind h)

@[simp] theorem length_writeHead (typeId : ℕ) (isNull : Byte) :
    (writeHead typeId isNull).length = 5 := by
  rw [writeHead, List.length_append, writeCount, length_bigEndian]
  rfl

@[simp] theorem length_writeCount (n : ℕ) : (writeCount n).length = 4 := length_bigEndian 4 n

theorem write_ne_nil (v : QVariant) : v.write ≠ [] := by
  cases v <;> simp [QVariant.write, writeHead, writeCount, bigEndian]

/-- **Variants are read back**, by induction on the fuel: the elements of a list and the fields
of a map are shorter than their head and they together. -/
theorem decodes_variant {fuel : ℕ} {v : QVariant} (hv : v.Valid) (hfuel : v.write.length ≤ fuel)
    (hlength : v.write.length < 2 ^ 32) : Decodes (readVariant fuel) v.write v := by
  induction fuel generalizing v with
  | zero => exact absurd (List.length_eq_zero_iff.mp (Nat.le_zero.mp hfuel)) (write_ne_nil v)
  | succ fuel ih =>
    cases hv with
    | invalid => exact decodes_content (by decide) (.pure _)
    | null => exact decodes_content (by decide) (.pure _)
    | bool b =>
      have hb := (Decodes.next (if b then 1 else 0 : Byte)).map
        fun b : Byte => QVariant.bool (decide (b ≠ 0))
      refine decodes_content (by decide) ?_
      cases b <;> exact hb
    | @int n h =>
      refine decodes_content (by decide) ?_
      have hn := (decodes_count (n := (n % 2 ^ 32).toNat) (by omega)).map
        fun n : ℕ => QVariant.int (if n < 2 ^ 31 then n else n - 2 ^ 32)
      have hvalue : (if (n % 2 ^ 32).toNat < 2 ^ 31 then (((n % 2 ^ 32).toNat : ℕ) : ℤ)
          else (n % 2 ^ 32).toNat - 2 ^ 32) = n := by
        split <;> omega
      rwa [hvalue] at hn
    | double d =>
      refine decodes_content (by decide) ?_
      have hd := (Decodes.number (b := 256) (k := 8) d.bits.isLt).map
        fun n : ℕ => QVariant.double ⟨BitVec.ofNat 64 n⟩
      rwa [BitVec.ofNat_toNat, BitVec.setWidth_eq] at hd
    | @map m h =>
      rw [QVariant.write, List.length_append, length_writeHead] at hfuel hlength
      refine decodes_content (by decide) (.map _ (decodes_fields ?_ fun f hf hle => ?_))
      · rw [writeMap]
        omega
      · rw [List.length_append] at hfuel hlength
        exact ih (h f hf) (by omega) (by omega)
    | @list l h =>
      rw [QVariant.write, List.length_append, length_writeHead, List.length_append,
        length_writeCount, writeElements_eq] at hfuel hlength
      have hcount : l.length ≤ _ := length_le_length_flatMap (w := QVariant.write)
        fun v _ => write_ne_nil v
      refine decodes_content (by decide) ((decodes_count (by omega)).bind ?_)
      rw [writeElements_eq]
      refine (Decodes.many fun v hv => ?_).map _
      have hle := length_le_length_flatMap_of_mem (w := QVariant.write) hv
      exact ih (h v hv) (by omega) (by omega)
    | string s =>
      rw [QVariant.write, List.length_append, length_writeHead] at hlength
      exact decodes_content (by decide) ((decodes_string (by omega)).map _)
    | stringList l =>
      rw [QVariant.write, List.length_append, length_writeHead, List.length_append,
        length_writeCount] at hlength
      have hcount : l.length ≤ _ := length_le_length_flatMap (w := writeString) fun s _ => by
        simp [writeString, writeCount, bigEndian]
      refine decodes_content (by decide) ((decodes_count (by omega)).bind ?_)
      refine (Decodes.many fun s hs => decodes_string ?_).map _
      have hle := length_le_length_flatMap_of_mem (w := writeString) hs
      omega
    | byteArray b =>
      rw [QVariant.write, List.length_append, length_writeHead, List.length_append,
        length_writeCount] at hlength
      refine decodes_content (by decide) ((decodes_count (by omega)).bind ?_)
      have hmany : Decodes (Decoder.next.many b.length) (b.flatMap fun x => [x]) b :=
        Decodes.many fun x _ => .next x
      rw [List.flatMap_singleton'] at hmany
      exact hmany.map _

/-- **Maps are read back.** -/
theorem readMap_writeMap {m : QVariantMap} (hvalid : ∀ f ∈ m.entries, f.2.Valid)
    (hlength : (writeMap m).length < 2 ^ 32) : readMap (writeMap m) = m := by
  have hread : Decodes (readFields (readVariant (writeMap m).length)) (writeMap m) m := by
    refine decodes_fields hlength fun f hf hle => ?_
    rw [writeMap, List.length_append] at hlength ⊢
    exact decodes_variant (hvalid f hf) (by omega) (by omega)
  have hrun := hread []
  rw [List.append_nil] at hrun
  rw [readMap, hrun]

end Qdocdb
