import Mathlib.Tactic.Common
import Qdocdb.DataStream

/-!
# Messages on a link

`QDocdbLinkBase` sends a map as its length and its bytes, and collects what arrives until
a length and as many bytes are there. Bytes arrive in pieces of any size, so the receiver
may stop in the middle of a length or of a body and goes on with the next piece
(`receiving_readyReadLoop`); in the end it has received what was sent (`received_of_sent`).
-/

namespace Qdocdb

/-- `QDataStream` on maps: it reads back what it wrote, and writes the number of entries
in front of them. -/
structure MapStream (M : Type) where
  /-- `mapDataStream << fMap` -/
  encode : M → QByteArray
  /-- `ds >> fMap` -/
  decode : QByteArray → M
  /-- `fMap.empty()` -/
  isEmpty : M → Bool
  decode_encode : ∀ m, decode (encode m) = m
  encode_ne_nil : ∀ m, encode m ≠ []

/-! ## Numbers on the wire -/

/-- `QDataStream << int`, the least significant byte first. -/
def writeInt (n : ℤ) : QByteArray :=
  [0, 8, 16, 24].map fun shift => Fin.ofNat 256 ((n % 2 ^ 32).toNat / 2 ^ shift)

/-- `QDataStream >> int`, of four bytes with the least significant one first. -/
def readInt (data : QByteArray) : ℤ :=
  let n : ℤ := data.foldr (fun b n => b.val + 256 * n) 0
  if n < 2 ^ 31 then n else n - 2 ^ 32

@[simp] theorem length_writeInt (n : ℤ) : (writeInt n).length = 4 := rfl

/-- A number that is an `int` is read back. -/
theorem readInt_writeInt {n : ℕ} (h : n < 2 ^ 31) : readInt (writeInt n) = n := by
  have hmod : ((n : ℤ) % 2 ^ 32).toNat = n := by omega
  simp only [readInt, writeInt, hmod, List.map_cons, List.map_nil, List.foldr_cons,
    List.foldr_nil, Fin.ofNat_eq_cast, Fin.val_natCast]
  split <;> omega

/-! ## Sending and receiving -/

section Link

variable {M : Type} (S : MapStream M)

/-- `QDocdbLinkObject::marshal` -/
def MapStream.marshal (m : M) : QByteArray :=
  writeInt (S.encode m).length ++ S.encode m

/-- What `send` writes to the socket for one message after the other. -/
def MapStream.sent (messages : List M) : QByteArray := messages.flatMap S.marshal

/-- The receiving end of `QDocdbLinkBase`. -/
structure LinkReader (M : Type) where
  /-- the bytes of `socket` that were not read yet -/
  socket : QByteArray
  rxData : QByteArray
  rxDataLength : ℤ
  /-- the `receive` signals emitted so far -/
  received : List M

namespace LinkReader

/-- A new link. -/
def new : LinkReader M := ⟨[], [], 0, []⟩

/-- `rxData = socket->read(4)`, and the length in it. -/
def readLength (link : LinkReader M) : LinkReader M :=
  { link with
    socket := link.socket.drop 4
    rxData := link.socket.take 4
    rxDataLength := readInt (link.socket.take 4) }

/-- `rxData.append(socket->read(maxLength))`; a negative `maxLength` reads nothing. -/
def readBody (link : LinkReader M) : LinkReader M :=
  let maxLength := (link.rxDataLength - link.rxData.length + 4).toNat
  { link with
    socket := link.socket.drop maxLength
    rxData := link.rxData ++ link.socket.take maxLength }

/-- The message is complete: it is emitted unless it is empty. -/
def emitMessage (link : LinkReader M) : LinkReader M :=
  let m := S.decode (link.rxData.drop 4)
  { link with
    rxData := []
    rxDataLength := 0
    received := if S.isEmpty m then link.received else link.received ++ [m] }

/-- The loop of `readyRead`; nothing when it does not end. -/
def readyReadLoop : ℕ → LinkReader M → Option (LinkReader M)
  | 0, _ => none
  | fuel + 1, link =>
    if link.socket = [] then some link
    else if link.rxDataLength = 0 ∧ link.socket.length < 4 then some link
    else
      let link := if link.rxDataLength = 0 then link.readLength else link
      if link.rxDataLength = 0 then some link
      else
        let link := link.readBody
        readyReadLoop fuel
          (if link.rxDataLength = link.rxData.length - 4 then link.emitMessage S else link)

/-- `readyRead`. A round that goes on has read a byte, so there are no more rounds than
bytes, except for a length that is negative. -/
def readyRead (link : LinkReader M) : Option (LinkReader M) :=
  readyReadLoop S (link.socket.length + 1) link

/-- `readyRead` after each piece that arrives. -/
def readChunks : List QByteArray → LinkReader M → Option (LinkReader M)
  | [], link => some link
  | chunk :: chunks, link =>
    (readyRead S { link with socket := link.socket ++ chunk }).bind (readChunks chunks)

end LinkReader

/-! ## What has arrived and what is to come -/

/-- A message that a receiver can tell: it is not empty, and its length is an `int`
together with the four bytes in front. -/
def Sendable (m : M) : Prop := S.isEmpty m = false ∧ (S.encode m).length + 4 < 2 ^ 31

/-- Where a receiver stands that still waits for the messages `todo`, when the bytes
`future` did not arrive yet: between two messages, or behind the length of the next one. -/
inductive Receiving (todo : List M) (future : QByteArray) (link : LinkReader M) : Prop
  | between (hlength : link.rxDataLength = 0) (hdata : link.rxData = [])
    (hbytes : link.socket ++ future = S.sent todo)
  | inBody {m : M} {rest : List M} (htodo : todo = m :: rest)
    (hlength : link.rxDataLength = (S.encode m).length) (hfour : 4 ≤ link.rxData.length)
    (hless : link.rxData.length < (S.marshal m).length)
    (hbytes : link.rxData ++ link.socket ++ future = S.sent todo)

variable {S} {todo : List M} {future : QByteArray} {link : LinkReader M}

theorem MapStream.length_marshal (m : M) : (S.marshal m).length = (S.encode m).length + 4 := by
  simp [MapStream.marshal, Nat.add_comm]

theorem MapStream.sent_cons (m : M) (rest : List M) :
    S.sent (m :: rest) = S.marshal m ++ S.sent rest := by
  simp [MapStream.sent]

/-- More bytes arrive. -/
theorem Receiving.arrive {chunk : QByteArray} (h : Receiving S todo (chunk ++ future) link) :
    Receiving S todo future { link with socket := link.socket ++ chunk } := by
  cases h with
  | between hlength hdata hbytes => exact .between hlength hdata (by simpa using hbytes)
  | inBody htodo hlength hfour hless hbytes =>
    exact .inBody htodo hlength hfour hless (by simpa using hbytes)

namespace LinkReader

/-- Reading the length of the next message. -/
theorem receiving_readLength (htodo : ∀ m ∈ todo, Sendable S m)
    (hbytes : link.socket ++ future = S.sent todo) (hfour : 4 ≤ link.socket.length) :
    link.readLength.rxDataLength ≠ 0 ∧ Receiving S todo future link.readLength := by
  cases todo with
  | nil =>
    -- nothing was sent any more
    have hnil : link.socket = [] := (List.append_eq_nil_iff.mp hbytes).1
    simp [hnil] at hfour
  | cons m rest =>
    obtain ⟨-, hsize⟩ := htodo m List.mem_cons_self
    have htake : link.socket.take 4 = writeInt (S.encode m).length := by
      have h := congrArg (List.take 4) hbytes
      rw [List.take_append_of_le_length hfour, MapStream.sent_cons, MapStream.marshal,
        List.append_assoc, List.take_left' (length_writeInt _)] at h
      exact h
    have hread : link.readLength.rxDataLength = (S.encode m).length := by
      rw [readLength, htake, readInt_writeInt (by omega)]
    have hpos : 0 < (S.encode m).length := List.length_pos_of_ne_nil (S.encode_ne_nil m)
    refine ⟨by omega, .inBody rfl hread ?_ ?_ ?_⟩
    · simp [readLength, hfour]
    · rw [MapStream.length_marshal, readLength, List.length_take]
      omega
    · simpa [readLength] using hbytes

/-- Reading on in a body: it is not complete yet, or it is exactly there. -/
theorem receiving_readBody {m : M} {rest : List M} (hm : Sendable S m)
    (hlength : link.rxDataLength = (S.encode m).length) (hfour : 4 ≤ link.rxData.length)
    (hless : link.rxData.length < (S.marshal m).length)
    (hbytes : link.rxData ++ link.socket ++ future = S.sent (m :: rest)) :
    (link.readBody.rxDataLength ≠ link.readBody.rxData.length - 4 ∧ link.readBody.socket = [] ∧
        Receiving S (m :: rest) future link.readBody) ∨
      link.readBody.rxDataLength = link.readBody.rxData.length - 4 ∧
        (link.readBody.emitMessage S).received = link.received ++ [m] ∧
        (link.readBody.emitMessage S).socket.length < link.socket.length ∧
        Receiving S rest future (link.readBody.emitMessage S) := by
  have hmarshal : (S.marshal m).length = (S.encode m).length + 4 := MapStream.length_marshal m
  -- as many bytes are asked for as the message lacks
  have hmax : (link.rxDataLength - link.rxData.length + 4).toNat =
      (S.marshal m).length - link.rxData.length := by omega
  rw [MapStream.sent_cons] at hbytes
  by_cases hall : (S.marshal m).length - link.rxData.length ≤ link.socket.length
  · right
    have hdata : link.readBody.rxData = S.marshal m := by
      have h := congrArg (List.take (S.marshal m).length) hbytes
      rw [List.take_left' rfl, List.append_assoc, List.take_append,
        List.take_of_length_le hless.le, List.take_append_of_le_length hall] at h
      rw [readBody]
      simpa only [hmax] using h
    have hemit : S.decode (link.readBody.rxData.drop 4) = m := by
      rw [hdata, MapStream.marshal, List.drop_left' (length_writeInt _), S.decode_encode]
    refine ⟨?_, ?_, ?_, .between rfl rfl ?_⟩
    · rw [hdata, MapStream.length_marshal]
      simp [readBody, hlength]
    · simp only [emitMessage, hemit, hm.1, Bool.false_eq_true, if_false]
      rfl
    · simp only [emitMessage, readBody, hmax, List.length_drop]
      omega
    · have hsocket : (link.readBody.emitMessage S).socket =
          link.socket.drop ((S.marshal m).length - link.rxData.length) := by
        simp only [emitMessage, readBody, hmax]
      rw [hsocket]
      have h := congrArg (List.drop (S.marshal m).length) hbytes
      rw [List.drop_left' rfl, List.append_assoc, List.drop_append,
        List.drop_of_length_le hless.le, List.nil_append, List.drop_append_of_le_length hall] at h
      exact h
  · left
    have hdata : link.readBody.rxData = link.rxData ++ link.socket := by
      simp only [readBody, hmax]
      rw [List.take_of_length_le (by omega)]
    have hsocket : link.readBody.socket = [] := by
      simp only [readBody, hmax]
      exact List.drop_of_length_le (by omega)
    have hlen : link.readBody.rxData.length = link.rxData.length + link.socket.length := by
      rw [hdata, List.length_append]
    have hsame : link.readBody.rxDataLength = (S.encode m).length := hlength
    refine ⟨by omega, hsocket, .inBody rfl hsame (by omega) (by omega) ?_⟩
    rw [hdata, hsocket, List.append_nil, MapStream.sent_cons]
    exact hbytes

/-- **The loop of `readyRead`** emits the next messages, as far as they have arrived, and
stops between two messages with less than a length, or in a body with nothing. By induction
on the fuel: a round that goes on has read a byte. -/
theorem receiving_readyReadLoop {fuel : ℕ} (hfuel : link.socket.length < fuel)
    (hsendable : ∀ m ∈ todo, Sendable S m) (h : Receiving S todo future link) :
    ∃ link' done todo', readyReadLoop S fuel link = some link' ∧ todo = done ++ todo' ∧
      link'.received = link.received ++ done ∧ Receiving S todo' future link' ∧
      (link'.socket = [] ∨ link'.rxDataLength = 0 ∧ link'.socket.length < 4) := by
  induction fuel generalizing link todo with
  | zero => omega
  | succ fuel ih =>
    rw [readyReadLoop]
    by_cases hempty : link.socket = []
    · rw [if_pos hempty]
      exact ⟨link, [], todo, rfl, rfl, by simp, h, .inl hempty⟩
    rw [if_neg hempty]
    by_cases hshort : link.rxDataLength = 0 ∧ link.socket.length < 4
    · rw [if_pos hshort]
      exact ⟨link, [], todo, rfl, rfl, by simp, h, .inr hshort⟩
    rw [if_neg hshort]
    -- behind the length, the receiver is in the body of the next message
    have hbody : ∃ start : LinkReader M,
        (if link.rxDataLength = 0 then link.readLength else link) = start ∧
        start.rxDataLength ≠ 0 ∧ start.socket.length ≤ link.socket.length ∧
        start.received = link.received ∧ Receiving S todo future start := by
      by_cases hzero : link.rxDataLength = 0
      · rw [if_pos hzero]
        have hfour : 4 ≤ link.socket.length := by
          by_contra hlt
          exact hshort ⟨hzero, by omega⟩
        cases h with
        | between _ _ hbytes =>
          obtain ⟨hne, hrec⟩ := receiving_readLength hsendable hbytes hfour
          exact ⟨_, rfl, hne, by simp [readLength], rfl, hrec⟩
        | inBody _ hlength =>
          have hne := S.encode_ne_nil
          rw [hlength] at hzero
          exact absurd (List.length_eq_zero_iff.mp (Int.natCast_eq_zero.mp hzero)) (hne _)
      · rw [if_neg hzero]
        exact ⟨_, rfl, hzero, le_rfl, rfl, h⟩
    obtain ⟨start, hstart, hne, hle, hreceived, hrec⟩ := hbody
    simp only [hstart, if_neg hne]
    cases hrec with
    | between hlength => exact absurd hlength hne
    | @inBody m rest htodo hlength hfour hless hbytes =>
      subst htodo
      have hm := hsendable m List.mem_cons_self
      rcases receiving_readBody hm hlength hfour hless hbytes with
        ⟨hpart, hsocket, hrec'⟩ | ⟨hwhole, hemit, hlt, hrec'⟩
      · rw [if_neg hpart]
        have hlen : link.socket.length ≠ 0 := fun h0 => hempty (List.length_eq_zero_iff.mp h0)
        obtain ⟨link', done, todo', hloop, hdone, hreceived', hrest⟩ :=
          @ih _ start.readBody (by rw [hsocket, List.length_nil]; omega) hsendable hrec'
        exact ⟨link', done, todo', hloop, hdone, by rw [hreceived', ← hreceived]; rfl, hrest⟩
      · rw [if_pos hwhole]
        obtain ⟨link', done, todo', hloop, rfl, hreceived', hrest⟩ :=
          @ih _ (start.readBody.emitMessage S) (by omega)
            (fun m' hm' => hsendable m' (List.mem_cons_of_mem m hm')) hrec'
        refine ⟨link', m :: done, todo', hloop, rfl, ?_, hrest⟩
        rw [hreceived', hemit, hreceived, List.append_assoc, List.singleton_append]

/-- **readyRead**, after each of several pieces. -/
theorem receiving_readChunks {chunks : List QByteArray} (hsendable : ∀ m ∈ todo, Sendable S m)
    (h : Receiving S todo (chunks.flatten ++ future) link)
    (hstopped : link.socket = [] ∨ link.rxDataLength = 0 ∧ link.socket.length < 4) :
    ∃ link' done todo', readChunks S chunks link = some link' ∧ todo = done ++ todo' ∧
      link'.received = link.received ++ done ∧ Receiving S todo' future link' ∧
      (link'.socket = [] ∨ link'.rxDataLength = 0 ∧ link'.socket.length < 4) := by
  induction chunks generalizing link todo with
  | nil => exact ⟨link, [], todo, rfl, rfl, by simp, by simpa using h, hstopped⟩
  | cons chunk chunks ih =>
    rw [List.flatten_cons, List.append_assoc] at h
    obtain ⟨link₁, done₁, todo₁, hread, rfl, hreceived₁, hrec₁, hstopped₁⟩ :=
      receiving_readyReadLoop (Nat.lt_succ_self _) hsendable h.arrive
    obtain ⟨link₂, done₂, todo₂, hreads, rfl, hreceived₂, hrec₂, hstopped₂⟩ :=
      ih (fun m hm => hsendable m (List.mem_append_right _ hm)) hrec₁ hstopped₁
    refine ⟨link₂, done₁ ++ done₂, todo₂, ?_, by simp, ?_, hrec₂, hstopped₂⟩
    · rw [readChunks, readyRead, hread]
      exact hreads
    · rw [hreceived₂, hreceived₁, List.append_assoc]

/-- When all bytes have arrived and the receiver has stopped, no message is left. -/
theorem eq_nil_of_receiving (h : Receiving S todo [] link)
    (hstopped : link.socket = [] ∨ link.rxDataLength = 0 ∧ link.socket.length < 4) :
    todo = [] ∧ link.socket = [] ∧ link.rxData = [] ∧ link.rxDataLength = 0 := by
  cases h with
  | between hlength hdata hbytes =>
    have hlt : link.socket.length < 4 := by
      rcases hstopped with hs | hs
      · simp [hs]
      · exact hs.2
    cases todo with
    | nil => exact ⟨rfl, by simpa [MapStream.sent] using hbytes, hdata, hlength⟩
    | cons m rest =>
      have hlen := congrArg List.length hbytes
      rw [MapStream.sent_cons, List.append_nil, List.length_append, MapStream.length_marshal] at hlen
      omega
  | @inBody m rest htodo hlength hfour hless hbytes =>
    have hsocket : link.socket = [] := by
      rcases hstopped with hs | hs
      · exact hs
      · rw [hlength] at hs
        exact absurd (List.length_eq_zero_iff.mp (Int.natCast_eq_zero.mp hs.1)) (S.encode_ne_nil m)
    have hlen := congrArg List.length hbytes
    rw [htodo, MapStream.sent_cons, hsocket] at hlen
    simp only [List.append_nil, List.length_append] at hlen
    omega

end LinkReader

/-- **Framing**: however the bytes of the sent messages are cut into pieces, a new link
receives exactly these messages, in order, and is left with no bytes and no length. -/
theorem received_of_sent {messages : List M} (hsendable : ∀ m ∈ messages, Sendable S m)
    {chunks : List QByteArray} (hchunks : chunks.flatten = S.sent messages) :
    ∃ link, LinkReader.readChunks S chunks .new = some link ∧ link.received = messages ∧
      link.socket = [] ∧ link.rxData = [] ∧ link.rxDataLength = 0 := by
  have hstart : Receiving S messages (chunks.flatten ++ []) LinkReader.new :=
    .between rfl rfl (by simpa [LinkReader.new] using hchunks)
  obtain ⟨link, done, todo, hread, hdone, hreceived, hrec, hstopped⟩ :=
    LinkReader.receiving_readChunks hsendable hstart (.inl rfl)
  obtain ⟨rfl, hsocket, hdata, hlength⟩ := LinkReader.eq_nil_of_receiving hrec hstopped
  refine ⟨link, hread, ?_, hsocket, hdata, hlength⟩
  rw [hreceived, hdone, List.append_nil]
  rfl

end Link

/-! ## Maps as messages -/

/-- What stands behind the length of a message. -/
def Body : Type := {data : QByteArray // data ≠ []}

/-- `marshal` and `unmarshal`, up to the map in the body. A length of zero is not taken for a
message. -/
def bodies : MapStream Body where
  encode body := body.val
  decode data := if h : data = [] then ⟨[0], List.cons_ne_nil 0 []⟩ else ⟨data, h⟩
  isEmpty body := (readMap body.val).entries.isEmpty
  decode_encode body := dif_neg body.property
  encode_ne_nil body := body.property

/-- The map of a message as its body. -/
def body (m : QVariantMap) : Body :=
  ⟨writeMap m, by simp [writeMap, writeCount, bigEndian]⟩

/-- `{"func":"count","id":7}` -/
def countMap : QVariantMap :=
  .insert (.insert .empty (qs "func") (.string (qs "count"))) (qs "id") (.int 7)

/-- `{"docs":[true,"x"]}` -/
def docsMap : QVariantMap :=
  .insert .empty (qs "docs") (.list [.bool true, .string (qs "x")])

/-- The bytes of both, cut in the middle of a length and of a body, with nothing in between. -/
def twoChunks : List QByteArray :=
  let sent := bodies.sent [body countMap, body docsMap]
  [sent.take 2, (sent.drop 2).take 30, [], sent.drop 32]

theorem received_twoMessages :
    ∃ link, LinkReader.readChunks bodies twoChunks .new = some link ∧
      link.received = [body countMap, body docsMap] ∧ link.socket = [] ∧ link.rxData = [] ∧
      link.rxDataLength = 0 := by
  refine received_of_sent (fun m hm => ?_) (by decide +kernel)
  rcases List.mem_cons.mp hm with rfl | hm
  · exact ⟨by decide +kernel, by decide +kernel⟩
  · obtain rfl := List.mem_singleton.mp hm
    exact ⟨by decide +kernel, by decide +kernel⟩

end Qdocdb
