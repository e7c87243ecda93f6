import Qdocdb.DataStream

/-!
# Serialized values

`QDocSerialize` writes every stored value behind two tag bytes. The model keeps
two views of it:

* `marshal`, the bytes themselves, because the marshalled value of a field is
  part of the key of an index entry;
* `Blob`, the value under a key as the tagged thing it encodes.

What Qt's own streams and binary JSON do with the bytes behind the tags is a
parameter (`QtFormat`); `Lawful` says that they read back what they wrote, and
`unmarshal_toBytes` and its companions say that reading a `Blob` is reading its
bytes.
-/

namespace Qdocdb

/-- The encodings Qt supplies: binary JSON documents and `QDataStream`. -/
structure QtFormat where
  /-- `QJsonDocument::toBinaryData` of an array or object -/
  toBinaryData : QJsonValue → QByteArray
  /-- `QJsonDocument::fromBinaryData` -/
  fromBinaryData : QByteArray → QJsonValue
  /-- `QString::fromUtf8` -/
  fromUtf8 : QByteArray → QString
  /-- `QDataStream << QHash<QString, QString>` -/
  writeHash : List (QString × QString) → QByteArray
  /-- `QDataStream >> QHash<QString, QString>` -/
  readHash : QByteArray → List (QString × QString)
  /-- `QDataStream << QList<QByteArray>` -/
  writeByteArrays : List QByteArray → QByteArray
  /-- `QDataStream >> QList<QByteArray>` -/
  readByteArrays : QByteArray → List QByteArray
  /-- `QDataStream << QList<QString>` -/
  writeStrings : List QString → QByteArray
  /-- `QDataStream >> QList<QString>` -/
  readStrings : QByteArray → List QString

/-- Qt reads back what it wrote. -/
structure QtFormat.Lawful (Q : QtFormat) : Prop where
  object : ∀ o, Q.fromBinaryData (Q.toBinaryData (.object o)) = .object o
  hash : ∀ h, Q.readHash (Q.writeHash h) = h
  byteArrays : ∀ l, Q.readByteArrays (Q.writeByteArrays l) = l
  strings : ∀ l, Q.readStrings (Q.writeStrings l) = l

/-! ## The tags -/

/-- First byte: `typeValue`. -/
abbrev typeValue : Byte := 0
/-- First byte: `typeJsonDocument`. -/
abbrev typeJsonDocument : Byte := 1
/-- First byte: `typeIndexes`. -/
abbrev typeIndexes : Byte := 2
/-- First byte: `typeIndexValue`. -/
abbrev typeIndexValue : Byte := 3
/-- First byte: `typeSnapshotsValue`. -/
abbrev typeSnapshotsValue : Byte := 4

/-- Second byte: `typeUndefined`. -/
abbrev typeUndefined : Byte := 0
/-- Second byte: `typeNull`. -/
abbrev typeNull : Byte := 1
/-- Second byte: `typeBool`. -/
abbrev typeBool : Byte := 2
/-- Second byte: `typeDouble`. -/
abbrev typeDouble : Byte := 3
/-- Second byte: `typeString`. -/
abbrev typeString : Byte := 4
/-- Second byte: `typeArray`. -/
abbrev typeArray : Byte := 5
/-- Second byte: `typeObject`. -/
abbrev typeObject : Byte := 6

/-- `QDataStream << double`: eight bytes, the most significant first. -/
def doubleBytes (d : Double) : QByteArray :=
  [56, 48, 40, 32, 24, 16, 8, 0].map fun s => Fin.ofNat 256 (d.bits.toNat / 2 ^ s)

/-- The double read back from eight bytes. -/
def doubleOfBytes (b : QByteArray) : Double :=
  ⟨BitVec.ofNat 64 ((b.take 8).foldl (fun n c => 256 * n + c.val) 0)⟩

/-- `QDocSerialize::marshal`. The branch for numbers compares the second byte with
`typeDouble` where it should assign it, so a number keeps the tag `typeUndefined`. -/
def marshal (toBinaryData : QJsonValue → QByteArray) (value : QJsonValue) : QByteArray :=
  match value with
  | .array _ => [typeJsonDocument, typeArray] ++ toBinaryData value
  | .object _ => [typeJsonDocument, typeObject] ++ toBinaryData value
  | .bool b => [typeValue, typeBool] ++ [if b then 1 else 0]
  | .double d => [typeValue, typeUndefined] ++ doubleBytes d
  | .string s => [typeValue, typeString] ++ toUtf8 s
  | .null => [typeValue, typeNull]
  | .undefined => [typeValue, typeUndefined]

/-- `QDocSerialize::unmarshal`. -/
def unmarshal (Q : QtFormat) : QByteArray → QJsonValue
  | b0 :: b1 :: data =>
    if b0 = typeJsonDocument then
      if b1 = typeArray then .array (Q.fromBinaryData data).toArray
      else if b1 = typeObject then .object (Q.fromBinaryData data).toObject
      else .null
    else if b1 = typeUndefined then .undefined
    else if b1 = typeNull then .null
    else if b1 = typeBool then .bool (decide (data.headD 0 ≠ 0))
    else if b1 = typeDouble then .double (doubleOfBytes data)
    else if b1 = typeString then .string (Q.fromUtf8 data)
    else .null
  | _ => .null

/-- The readers of the other three forms: the payload behind a matching first byte,
the empty collection otherwise. -/
def unmarshalTagged {β : Type} (tag : Byte) (read : QByteArray → List β) : QByteArray → List β
  | b0 :: _ :: data => if b0 = tag then read data else []
  | _ => []

/-- `QDocSerialize::unmarshalIndexes`. -/
def unmarshalIndexes (Q : QtFormat) : QByteArray → List (QString × QString) :=
  unmarshalTagged typeIndexes Q.readHash

/-- `QDocSerialize::unmarshalIndexValue`. -/
def unmarshalIndexValue (Q : QtFormat) : QByteArray → List QByteArray :=
  unmarshalTagged typeIndexValue Q.readByteArrays

/-- `QDocSerialize::unmarshalSnapshotsValue`. -/
def unmarshalSnapshotsValue (Q : QtFormat) : QByteArray → List QString :=
  unmarshalTagged typeSnapshotsValue Q.readStrings

/-! ## Stored values -/

/-- What the program stores under a key. -/
inductive Blob where
  /-- the empty byte array, under a start key -/
  | empty
  /-- `marshal` of a document -/
  | document (o : QJsonObject)
  /-- `marshal` of the undefined value, left by a removal -/
  | tombstone
  /-- `marshalIndexes`: `[fieldName] = indexName` -/
  | indexes (h : List (QString × QString))
  /-- `marshalIndexValue`: links to document versions -/
  | indexValue (l : List QByteArray)
  /-- `marshalSnapshotsValue`: the snapshot names -/
  | snapshots (l : List QString)
  deriving DecidableEq

namespace Blob

/-- The bytes of a stored value. -/
def toBytes (Q : QtFormat) : Blob → QByteArray
  | empty => []
  | document o => Qdocdb.marshal Q.toBinaryData (.object o)
  | tombstone => Qdocdb.marshal Q.toBinaryData .undefined
  | indexes h => [typeIndexes, 0] ++ Q.writeHash h
  | indexValue l => [typeIndexValue, 0] ++ Q.writeByteArrays l
  | snapshots l => [typeSnapshotsValue, 0] ++ Q.writeStrings l

/-- `QByteArray::isEmpty`. -/
def isEmpty : Blob → Bool
  | empty => true
  | _ => false

/-- `QDocSerialize::unmarshal` on a stored value. The second tag byte of the
collections is the one of the undefined value. -/
def unmarshal : Blob → QJsonValue
  | empty => .null
  | document o => .object o
  | _ => .undefined

/-- `QDocSerialize::unmarshalIndexes` on a stored value. -/
def unmarshalIndexes : Blob → List (QString × QString)
  | indexes h => h
  | _ => []

/-- `QDocSerialize::unmarshalIndexValue` on a stored value. -/
def unmarshalIndexValue : Blob → List QByteArray
  | indexValue l => l
  | _ => []

/-- `QDocSerialize::unmarshalSnapshotsValue` on a stored value. -/
def unmarshalSnapshotsValue : Blob → List QString
  | snapshots l => l
  | _ => []

theorem isEmpty_toBytes (Q : QtFormat) (b : Blob) : b.isEmpty = (b.toBytes Q).isEmpty := by
  cases b <;> rfl

variable {Q : QtFormat}

/-- Reading a stored value is reading its bytes. -/
theorem unmarshal_toBytes (hQ : Q.Lawful) (b : Blob) :
    b.unmarshal = Qdocdb.unmarshal Q (b.toBytes Q) := by
  cases b with
  | document o =>
    have htag : typeObject ≠ typeArray := by decide
    simp [unmarshal, toBytes, Qdocdb.marshal, Qdocdb.unmarshal, hQ.object, QJsonValue.toObject, htag]
  | _ => rfl

theorem unmarshalIndexes_toBytes (hQ : Q.Lawful) (b : Blob) :
    b.unmarshalIndexes = Qdocdb.unmarshalIndexes Q (b.toBytes Q) := by
  cases b with
  | indexes h => exact (hQ.hash h).symm
  | _ => rfl

theorem unmarshalIndexValue_toBytes (hQ : Q.Lawful) (b : Blob) :
    b.unmarshalIndexValue = Qdocdb.unmarshalIndexValue Q (b.toBytes Q) := by
  cases b with
  | indexValue l => exact (hQ.byteArrays l).symm
  | _ => rfl

theorem unmarshalSnapshotsValue_toBytes (hQ : Q.Lawful) (b : Blob) :
    b.unmarshalSnapshotsValue = Qdocdb.unmarshalSnapshotsValue Q (b.toBytes Q) := by
  cases b with
  | snapshots l => exact (hQ.strings l).symm
  | _ => rfl

end Blob

/-! ## Round trips -/

/-- Qt reads back what it writes for this value: a binary JSON document, or a string as UTF-8. -/
structure QtFormat.ReadsBack (Q : QtFormat) (v : QJsonValue) : Prop where
  document : v.isArray = true ∨ v.isObject = true → Q.fromBinaryData (Q.toBinaryData v) = v
  string : ∀ s, v = .string s → Q.fromUtf8 (toUtf8 s) = s

/-- **A value is read back** exactly when it is no number: the tag of a number is that of the
undefined value. -/
theorem unmarshal_marshal_iff {Q : QtFormat} {v : QJsonValue} (h : Q.ReadsBack v) :
    unmarshal Q (marshal Q.toBinaryData v) = v ↔ v.isDouble = false := by
  cases v with
  | undefined | null => exact iff_of_true rfl rfl
  | bool b => cases b <;> exact iff_of_true rfl rfl
  | double d => exact iff_of_false (fun heq => nomatch heq) (fun heq => nomatch heq)
  | string s =>
    have hrun : unmarshal Q (marshal Q.toBinaryData (.string s)) =
        .string (Q.fromUtf8 (toUtf8 s)) := rfl
    rw [hrun, h.string s rfl]
    exact iff_of_true rfl rfl
  | array l =>
    have hrun : unmarshal Q (marshal Q.toBinaryData (.array l)) =
        .array (Q.fromBinaryData (Q.toBinaryData (.array l))).toArray := rfl
    rw [hrun, h.document (.inl rfl)]
    exact iff_of_true rfl rfl
  | object o =>
    have hrun : unmarshal Q (marshal Q.toBinaryData (.object o)) =
        .object (Q.fromBinaryData (Q.toBinaryData (.object o))).toObject := rfl
    rw [hrun, h.document (.inr rfl)]
    exact iff_of_true rfl rfl

/-! ## Qt's encodings -/

/-- A number in `n` bytes, the lowest first. -/
def littleEndian (n k : ℕ) : QByteArray := (bigEndian 256 n k).reverse

/-- A `Latin1String`: its length and its characters, up to a multiple of four bytes. -/
def latin1String (s : QString) : QByteArray :=
  let text := littleEndian 2 s.length ++ s.map fun c => Fin.ofNat 256 c.val
  text ++ List.replicate ((4 - text.length % 4) % 4) 0

/-- The entry of a member that starts at `offset`: its type and its value or the place of it, its
key, and a value that has a place of its own. The key and the texts are Latin-1, and what is
neither a text nor a boolean is null. -/
def entryBytes (offset : ℕ) (f : QString × QJsonValue) : QByteArray :=
  let key := latin1String f.1
  match f.2 with
  | .bool b => littleEndian 4 (1 + 16 + 32 * b.toNat) ++ key
  | .string s =>
    littleEndian 4 (3 + 8 + 16 + 32 * (offset + 4 + key.length)) ++ key ++ latin1String s
  | _ => littleEndian 4 16 ++ key

/-- The entries of the members from `offset` on, and the places where they start. -/
def entriesBytes : ℕ → QJsonObject → QByteArray × QByteArray
  | _, [] => ([], [])
  | offset, f :: o =>
    let rest := entriesBytes (offset + (entryBytes offset f).length) o
    (entryBytes offset f ++ rest.1, littleEndian 4 offset ++ rest.2)

/-- `QJsonDocument::toBinaryData` of an object whose members are texts, booleans and nulls. -/
def flatBinaryData (v : QJsonValue) : QByteArray :=
  let entries := entriesBytes 12 v.toObject
  [0x71, 0x62, 0x6A, 0x73] ++ littleEndian 4 1 ++
    littleEndian 4 (12 + entries.1.length + entries.2.length) ++
    littleEndian 4 (2 * v.toObject.length + 1) ++ littleEndian 4 (12 + entries.1.length) ++
    entries.1 ++ entries.2

/-- `{"a":true}` in binary. -/
example : flatBinaryData (.object [(qs "a", .bool true)]) =
    [0x71, 0x62, 0x6A, 0x73, 1, 0, 0, 0, 24, 0, 0, 0, 3, 0, 0, 0, 20, 0, 0, 0,
      0x31, 0, 0, 0, 1, 0, 0x61, 0, 12, 0, 0, 0] := by
  decide

/-- The number of `n` bytes at `offset`. -/
def numberAt (n : ℕ) (data : QByteArray) (offset : ℕ) : ℕ :=
  ((data.drop offset).take n).foldr (fun c k => c.val + 256 * k) 0

/-- The `Latin1String` at `offset`. -/
def latin1At (data : QByteArray) (offset : ℕ) : QString :=
  fromLatin1 ((data.drop (offset + 2)).take (numberAt 2 data offset))

/-- The member whose entry starts at `offset`. -/
def memberAt (root : QByteArray) (offset : ℕ) : QString × QJsonValue :=
  let header := numberAt 4 root offset
  (latin1At root (offset + 4),
    if header % 8 = 1 then .bool (decide (header / 32 ≠ 0))
    else if header % 8 = 3 then .string (latin1At root (header / 32))
    else .null)

/-- `QJsonDocument::fromBinaryData` of such an object. -/
def ofFlatBinaryData (data : QByteArray) : QJsonValue :=
  let root := data.drop 8
  .object ((List.range (numberAt 4 root 4 / 2)).map fun i =>
    memberAt root (numberAt 4 root (numberAt 4 root 8 + 4 * i)))

/-- The code units of a code point. -/
def utf16Units (n : ℕ) : QString :=
  if n < 0x10000 then [Fin.ofNat 65536 n]
  else [Fin.ofNat 65536 (0xD800 + (n - 0x10000) / 1024),
    Fin.ofNat 65536 (0xDC00 + (n - 0x10000) % 1024)]

/-- `QString::fromUtf8` of well-formed text, with `more` bytes missing to the code point whose
bits so far are `n`. -/
def fromUtf8From (more n : ℕ) : QByteArray → QString
  | [] => []
  | c :: rest =>
    if c.val < 0x80 then Fin.ofNat 65536 c.val :: fromUtf8From 0 0 rest
    else if 0xF0 ≤ c.val then fromUtf8From 3 (c.val - 0xF0) rest
    else if 0xE0 ≤ c.val then fromUtf8From 2 (c.val - 0xE0) rest
    else if 0xC0 ≤ c.val then fromUtf8From 1 (c.val - 0xC0) rest
    else if more = 1 then utf16Units (64 * n + (c.val - 0x80)) ++ fromUtf8From 0 0 rest
    else fromUtf8From (more - 1) (64 * n + (c.val - 0x80)) rest

/-- What a decoder finds in the bytes, and nothing when it finds none. -/
def readAll {α : Type} (d : Decoder Byte (List α)) (data : QByteArray) : List α :=
  ((d.run data).map Prod.fst).getD []

/-- `QDataStream >> QByteArray` -/
def readByteArray : Decoder Byte QByteArray := do
  let n ← readCount
  Decoder.next.many n

/-- The encodings of Qt 5, with binary documents for objects without nesting and numbers. -/
def flatFormat : QtFormat where
  toBinaryData := flatBinaryData
  fromBinaryData := ofFlatBinaryData
  fromUtf8 := fromUtf8From 0 0
  writeHash := fun h => writeCount h.length ++ h.flatMap fun f => writeString f.1 ++ writeString f.2
  readHash := readAll do
    let n ← readCount
    let field : Decoder Byte (QString × QString) := do
      let key ← readString
      let value ← readString
      pure (key, value)
    field.many n
  writeByteArrays := fun l => writeCount l.length ++ l.flatMap fun b => writeCount b.length ++ b
  readByteArrays := readAll do
    let n ← readCount
    readByteArray.many n
  writeStrings := fun l => writeCount l.length ++ l.flatMap writeString
  readStrings := readAll do
    let n ← readCount
    readString.many n

/-- `{"done":true,"name":"José","next":null}` -/
def jose : QJsonValue :=
  .object [(qs "done", .bool true), (qs "name", .string (qs "José")), (qs "next", .null)]

/-- A document and a text are read back. -/
theorem unmarshal_marshal_iff_jose :
    unmarshal flatFormat (marshal flatFormat.toBinaryData jose) = jose ∧
      unmarshal flatFormat (marshal flatFormat.toBinaryData (.string (qs "José €"))) =
        .string (qs "José €") := by
  have hdocument : flatFormat.ReadsBack jose :=
    ⟨fun _ => by decide +kernel, fun s hs => by cases hs⟩
  have htext : flatFormat.ReadsBack (.string (qs "José €")) := by
    constructor
    · rintro (hv | hv) <;> cases hv
    · intro s hs
      obtain rfl := QJsonValue.string.inj hs
      decide +kernel
  exact ⟨(unmarshal_marshal_iff hdocument).mpr rfl, (unmarshal_marshal_iff htext).mpr rfl⟩

/-- Zero is read back as the undefined value. -/
theorem not_unmarshal_marshal :
    ¬ ∀ (Q : QtFormat) (v : QJsonValue), Q.ReadsBack v →
      unmarshal Q (marshal Q.toBinaryData v) = v := by
  intro h
  have hreads : flatFormat.ReadsBack (.double ⟨0#64⟩) := by
    constructor
    · rintro (hv | hv) <;> cases hv
    · intro s hs
      cases hs
  have hzero := h flatFormat _ hreads
  cases hzero

end Qdocdb
