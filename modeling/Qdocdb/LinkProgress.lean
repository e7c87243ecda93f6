import Qdocdb.Link

/-!
# When the receiver returns

`readyRead` believes the length it reads. A length that is negative asks the socket for a
negative number of bytes, which are none, and no data ever completes the message, so as long
as a byte is left the loop of `readyRead` goes round. That is the only way: each other round
takes a byte at least (`round_cases`), and so `readyRead` returns exactly when the bytes do
not lead to such a length (`readyRead_returns_iff`).
-/

namespace Qdocdb

/-- The bytes, cut into messages as the lengths in them say, lead to a length that is negative
and has a byte behind it. -/
inductive ReachesNegative : QByteArray → Prop
  | here {length rest : QByteArray} (hfour : length.length = 4) (hneg : readInt length < 0)
      (hrest : rest ≠ []) : ReachesNegative (length ++ rest)
  | next {length body rest : QByteArray} (hfour : length.length = 4) (hbody : body ≠ [])
      (hlength : readInt length = body.length) (hrest : ReachesNegative rest) :
      ReachesNegative (length ++ (body ++ rest))

namespace ReachesNegative

variable {length rest data : QByteArray}

/-- A length and a byte at least are there. -/
theorem lt_length (h : ReachesNegative data) : 4 < data.length := by
  cases h with
  | here hfour _ hrest =>
    have := List.length_pos_of_ne_nil hrest
    rw [List.length_append]
    omega
  | next hfour hbody _ _ =>
    have := List.length_pos_of_ne_nil hbody
    rw [List.length_append, List.length_append]
    omega

/-- Behind a length there is another one after as many bytes, unless it is negative. -/
theorem of_append (hfour : length.length = 4) (h : ReachesNegative (length ++ rest)) :
    (readInt length < 0 ∧ rest ≠ []) ∨
      ∃ body rest', rest = body ++ rest' ∧ body ≠ [] ∧ readInt length = body.length ∧
        ReachesNegative rest' := by
  obtain ⟨data, hdata⟩ : ∃ data, data = length ++ rest := ⟨_, rfl⟩
  rw [← hdata] at h
  cases h with
  | @here length' rest' hfour' hneg hrest =>
    obtain ⟨rfl, rfl⟩ := List.append_inj hdata (hfour'.trans hfour.symm)
    exact .inl ⟨hneg, hrest⟩
  | @next length' body rest' hfour' hbody hlength hrest =>
    obtain ⟨rfl, rfl⟩ := List.append_inj hdata (hfour'.trans hfour.symm)
    exact .inr ⟨body, rest', rfl, hbody, hlength, hrest⟩

/-- The messages in front of it are skipped. -/
theorem append_iff {body : QByteArray} (hfour : length.length = 4) (hbody : body ≠ [])
    (hlength : readInt length = body.length) :
    ReachesNegative (length ++ (body ++ rest)) ↔ ReachesNegative rest := by
  constructor
  · intro h
    rcases h.of_append hfour with ⟨hneg, -⟩ | ⟨body', rest', hdata, -, hlength', hrest⟩
    · omega
    · obtain ⟨-, rfl⟩ := List.append_inj hdata (by omega)
      exact hrest
  · exact .next hfour hbody hlength

/-- A length of which the bytes are missing leads nowhere. -/
theorem not_of_lt (hfour : length.length = 4) (hnonneg : 0 ≤ readInt length)
    (hlt : readInt length = 0 ∨ (rest.length : ℤ) < readInt length) :
    ¬ ReachesNegative (length ++ rest) := by
  intro h
  rcases h.of_append hfour with ⟨hneg, -⟩ | ⟨body, rest', rfl, hbody, hlength, -⟩
  · omega
  · have := List.length_pos_of_ne_nil hbody
    rw [List.length_append] at hlt
    omega

end ReachesNegative

namespace LinkReader

variable {M : Type} (S : MapStream M) {link link' : LinkReader M}

/-- The bytes of the message that the receiver is in. -/
def pending (link : LinkReader M) : QByteArray := if link.rxDataLength = 0 then [] else link.rxData

/-- In a message, the receiver holds its length and not yet all of its bytes, and nothing
else when the length is negative. -/
structure Framed (link : LinkReader M) : Prop where
  four : link.rxDataLength ≠ 0 → 4 ≤ link.rxData.length
  length : link.rxDataLength ≠ 0 → readInt (link.rxData.take 4) = link.rxDataLength
  less : 0 < link.rxDataLength → (link.rxData.length : ℤ) < link.rxDataLength + 4
  negative : link.rxDataLength < 0 → link.rxData.length = 4

theorem framed_of_eq_zero (h : link.rxDataLength = 0) : link.Framed :=
  ⟨fun hne => absurd h hne, fun hne => absurd h hne, fun hpos => by omega, fun hneg => by omega⟩

/-- More bytes arrive. -/
theorem Framed.arrive (h : link.Framed) (chunk : QByteArray) :
    Framed { link with socket := link.socket ++ chunk } :=
  ⟨h.four, h.length, h.less, h.negative⟩

/-- Behind the length, the receiver is in a message, or the length is 0. -/
theorem framed_readLength (hfour : 4 ≤ link.socket.length) : link.readLength.Framed := by
  have hlen : link.readLength.rxData.length = 4 := by
    rw [readLength, List.length_take]
    omega
  refine ⟨fun _ => hlen.ge, fun _ => ?_, fun hpos => ?_, fun _ => hlen⟩
  · rw [readLength, List.take_take, Nat.min_self]
  · omega

/-- The bytes that the receiver has, from the length of its message on. -/
def bytesLeft (link : LinkReader M) : QByteArray := link.pending ++ link.socket

theorem bytesLeft_of_eq_zero (h : link.rxDataLength = 0) : link.bytesLeft = link.socket := by
  rw [bytesLeft, pending, if_pos h, List.nil_append]

theorem bytesLeft_of_ne_zero (h : link.rxDataLength ≠ 0) :
    link.bytesLeft = link.rxData.take 4 ++ (link.rxData.drop 4 ++ link.socket) := by
  rw [bytesLeft, pending, if_neg h, ← List.append_assoc, List.take_append_drop]

/-- A body that is not complete yet takes all bytes. -/
theorem readBody_of_lt (h : link.Framed) (hpos : 0 < link.rxDataLength)
    (hlt : (link.rxData.length + link.socket.length : ℤ) < link.rxDataLength + 4) :
    link.readBody.socket = [] ∧ link.readBody.Framed ∧
      link.readBody.rxDataLength ≠ link.readBody.rxData.length - 4 ∧
      ¬ ReachesNegative link.bytesLeft := by
  have hfour := h.four hpos.ne'
  have hless := h.less hpos
  have hdata : link.readBody.rxData = link.rxData ++ link.socket := by
    rw [readBody, List.take_of_length_le (by omega)]
  have hsame : link.readBody.rxDataLength = link.rxDataLength := rfl
  have hlen : link.readBody.rxData.length = link.rxData.length + link.socket.length := by
    rw [hdata, List.length_append]
  refine ⟨?_, ⟨fun _ => by omega, fun _ => ?_, fun _ => by omega, fun hneg => by omega⟩, by omega, ?_⟩
  · rw [readBody]
    exact List.drop_of_length_le (by omega)
  · rw [hdata, List.take_append_of_le_length hfour]
    exact h.length hpos.ne'
  · rw [bytesLeft_of_ne_zero hpos.ne']
    refine ReachesNegative.not_of_lt (List.length_take_of_le hfour) ?_ (.inr ?_)
    · rw [h.length hpos.ne']
      exact hpos.le
    · rw [h.length hpos.ne', List.length_append, List.length_drop]
      omega

/-- A body that is all there is taken off the bytes. -/
theorem readBody_of_le (h : link.Framed) (hpos : 0 < link.rxDataLength)
    (hle : link.rxDataLength + 4 ≤ (link.rxData.length + link.socket.length : ℤ)) :
    link.readBody.rxDataLength = link.readBody.rxData.length - 4 ∧
      link.readBody.socket.length < link.socket.length ∧
      (ReachesNegative link.bytesLeft ↔ ReachesNegative link.readBody.socket) := by
  have hfour := h.four hpos.ne'
  have hless := h.less hpos
  obtain ⟨n, hn⟩ : ∃ n : ℕ, link.rxDataLength - link.rxData.length + 4 = n :=
    Int.eq_ofNat_of_zero_le (by omega)
  have hbody : link.readBody = { link with
      socket := link.socket.drop n, rxData := link.rxData ++ link.socket.take n } := by
    rw [readBody, hn, Int.toNat_natCast]
  have htake : (link.socket.take n).length = n := List.length_take_of_le (by omega)
  rw [hbody]
  refine ⟨?_, ?_, ?_⟩
  · change link.rxDataLength = ((link.rxData ++ link.socket.take n).length : ℤ) - 4
    rw [List.length_append, htake]
    omega
  · rw [List.length_drop]
    omega
  · have hsplit : link.rxData.drop 4 ++ link.socket =
        (link.rxData.drop 4 ++ link.socket.take n) ++ link.socket.drop n := by
      rw [List.append_assoc, List.take_append_drop]
    have hlen : (link.rxData.drop 4 ++ link.socket.take n).length = link.rxDataLength := by
      rw [List.length_append, htake, List.length_drop]
      omega
    rw [bytesLeft_of_ne_zero hpos.ne', hsplit]
    refine ReachesNegative.append_iff (List.length_take_of_le hfour) ?_ ?_
    · intro hnil
      rw [hnil, List.length_nil] at hlen
      omega
    · rw [hlen]
      exact h.length hpos.ne'

/-- A negative length reads nothing. -/
theorem readBody_of_neg (h : link.Framed) (hneg : link.rxDataLength < 0) :
    link.readBody = link ∧ link.rxDataLength ≠ link.rxData.length - 4 ∧
      (ReachesNegative link.bytesLeft ↔ link.socket ≠ []) := by
  have hlen := h.negative hneg
  have hmax : (link.rxDataLength - link.rxData.length + 4).toNat = 0 := by omega
  refine ⟨?_, by omega, ?_⟩
  · rw [readBody, hmax, List.drop_zero, List.take_zero, List.append_nil]
  · have hdata : link.rxData.take 4 = link.rxData := List.take_of_length_le hlen.le
    have hread := h.length hneg.ne
    rw [hdata] at hread
    have hbytes : link.bytesLeft = link.rxData ++ link.socket := by
      rw [bytesLeft, pending, if_neg hneg.ne]
    rw [hbytes]
    constructor
    · intro hreach hnil
      have := hreach.lt_length
      rw [hnil, List.append_nil, hlen] at this
      exact lt_irrefl _ this
    · exact .here hlen (by omega)

/-- A round of the loop: it returns, or it goes on with fewer bytes, or with bytes that lead
to a negative length. -/
inductive Round (link : LinkReader M) : Prop
  | stops {link' : LinkReader M} (hrun : ∀ fuel, readyReadLoop S (fuel + 1) link = some link')
      (hframed : link'.Framed) (hnot : ¬ ReachesNegative link.bytesLeft)
  | goesOn {link' : LinkReader M}
      (hrun : ∀ fuel, readyReadLoop S (fuel + 1) link = readyReadLoop S fuel link')
      (hframed : link'.Framed)
      (hiff : ReachesNegative link.bytesLeft ↔ ReachesNegative link'.bytesLeft)
      (hless : link'.socket.length < link.socket.length ∨ ReachesNegative link'.bytesLeft)

/-- Without bytes nothing is reached. -/
theorem not_reachesNegative_of_eq_nil (h : link.Framed) (hempty : link.socket = []) :
    ¬ ReachesNegative link.bytesLeft := by
  rcases lt_trichotomy link.rxDataLength 0 with hneg | hzero | hpos
  · rw [(readBody_of_neg h hneg).2.2]
    exact not_not_intro hempty
  · rw [bytesLeft_of_eq_zero hzero, hempty]
    intro hreach
    exact absurd hreach.lt_length (by simp)
  · have hless := h.less hpos
    exact (readBody_of_lt h hpos (by rw [hempty, List.length_nil]; omega)).2.2.2

/-- The length of the next message is read, and the bytes are the same ones. -/
theorem bytesLeft_readLength (hzero : link.rxDataLength = 0)
    (hne : link.readLength.rxDataLength ≠ 0) : link.readLength.bytesLeft = link.bytesLeft := by
  rw [bytesLeft_of_eq_zero hzero, bytesLeft, pending, if_neg hne]
  exact List.take_append_drop 4 link.socket

/-- Behind the first test of the loop. -/
theorem round_of_ne_zero {start : LinkReader M} (h : start.Framed) (hne : start.rxDataLength ≠ 0)
    (hbytes : start.bytesLeft = link.bytesLeft)
    (hle : start.socket.length ≤ link.socket.length)
    (hless : start.rxDataLength < 0 → start.socket.length < link.socket.length ∨ start.socket ≠ [])
    (hempty : link.socket ≠ [])
    (hrun : ∀ fuel, readyReadLoop S (fuel + 1) link = readyReadLoop S fuel
      (if start.readBody.rxDataLength = start.readBody.rxData.length - 4
        then start.readBody.emitMessage S else start.readBody)) : Round S link := by
  rcases lt_or_gt_of_ne hne with hneg | hpos
  · obtain ⟨hsame, hpart, hreach⟩ := readBody_of_neg h hneg
    rw [hsame, if_neg hpart] at hrun
    refine .goesOn hrun h (by rw [hbytes]) ?_
    rw [hreach]
    exact hless hneg
  · rcases lt_or_ge (start.rxData.length + start.socket.length : ℤ) (start.rxDataLength + 4)
      with hlt | hall
    · obtain ⟨hsocket, hframed, hpart, hnot⟩ := readBody_of_lt h hpos hlt
      rw [if_neg hpart] at hrun
      refine .goesOn hrun hframed ?_ (.inl ?_)
      · rw [hbytes] at hnot
        exact iff_of_false hnot (not_reachesNegative_of_eq_nil hframed hsocket)
      · rw [hsocket]
        exact List.length_pos_of_ne_nil hempty
    · obtain ⟨hwhole, hfewer, hiff⟩ := readBody_of_le h hpos hall
      rw [if_pos hwhole] at hrun
      refine .goesOn hrun (framed_of_eq_zero rfl) ?_ (.inl (hfewer.trans_le hle))
      rw [← hbytes, hiff, bytesLeft_of_eq_zero rfl]
      rfl

/-- **A round** of `readyRead`. By the length that the receiver has behind its first test. -/
theorem round_cases (h : link.Framed) : Round S link := by
  by_cases hempty : link.socket = []
  · refine .stops (fun fuel => ?_) h (not_reachesNegative_of_eq_nil h hempty)
    rw [readyReadLoop, if_pos hempty]
  by_cases hshort : link.rxDataLength = 0 ∧ link.socket.length < 4
  · refine .stops (fun fuel => ?_) h fun hreach => ?_
    · rw [readyReadLoop, if_neg hempty, if_pos hshort]
    · rw [bytesLeft_of_eq_zero hshort.1] at hreach
      have := hreach.lt_length
      omega
  by_cases hzero : link.rxDataLength = 0
  · have hfour : 4 ≤ link.socket.length := by
      by_contra hlt
      exact hshort ⟨hzero, by omega⟩
    have hfewer : link.readLength.socket.length < link.socket.length := by
      rw [readLength, List.length_drop]
      omega
    have hframed := framed_readLength hfour
    by_cases hread : link.readLength.rxDataLength = 0
    · refine .stops (fun fuel => ?_) hframed ?_
      · rw [readyReadLoop, if_neg hempty, if_neg hshort]
        simp only [if_pos hzero, if_pos hread]
      · rw [bytesLeft_of_eq_zero hzero, ← List.take_append_drop 4 link.socket]
        have hvalue : readInt (link.socket.take 4) = 0 := hread
        exact ReachesNegative.not_of_lt (List.length_take_of_le hfour) hvalue.ge (.inl hvalue)
    · refine round_of_ne_zero S hframed hread (bytesLeft_readLength hzero hread) hfewer.le
        (fun _ => .inl hfewer) hempty fun fuel => ?_
      rw [readyReadLoop, if_neg hempty, if_neg hshort]
      simp only [if_pos hzero, if_neg hread]
  · refine round_of_ne_zero S h hzero rfl le_rfl (fun _ => .inr hempty) hempty fun fuel => ?_
    rw [readyReadLoop, if_neg hempty, if_neg hshort]
    simp only [if_neg hzero]

/-! ## The loop -/

/-- A loop that returns leaves the receiver between two messages or in one. -/
theorem framed_readyReadLoop {fuel : ℕ} (h : link.Framed)
    (hrun : readyReadLoop S fuel link = some link') : link'.Framed := by
  induction fuel generalizing link with
  | zero => cases hrun
  | succ fuel ih =>
    cases round_cases S h with
    | stops hstop hframed _ =>
      rw [hstop] at hrun
      rwa [← Option.some.inj hrun]
    | goesOn hgo hframed _ _ =>
      rw [hgo] at hrun
      exact ih hframed hrun

/-- **No return**: with a negative length ahead, every round goes on. By induction on the fuel. -/
theorem readyReadLoop_eq_none (h : link.Framed) (hreach : ReachesNegative link.bytesLeft)
    (fuel : ℕ) : readyReadLoop S fuel link = none := by
  induction fuel generalizing link with
  | zero => rfl
  | succ fuel ih =>
    cases round_cases S h with
    | stops _ _ hnot => exact absurd hreach hnot
    | goesOn hgo hframed hiff _ =>
      rw [hgo]
      exact ih hframed (hiff.mp hreach)

/-- **Return**: otherwise every round takes a byte. By induction on the number of bytes. -/
theorem exists_readyReadLoop (h : link.Framed) (hnot : ¬ ReachesNegative link.bytesLeft) :
    ∃ fuel link', readyReadLoop S fuel link = some link' := by
  induction hn : link.socket.length using Nat.strong_induction_on generalizing link with
  | _ n ih =>
    cases round_cases S h with
    | stops hstop _ _ => exact ⟨1, _, hstop 0⟩
    | goesOn hgo hframed hiff hless =>
      rw [hiff] at hnot
      obtain ⟨fuel, link', hrun⟩ :=
        ih _ (hn ▸ hless.resolve_right hnot) hframed hnot rfl
      exact ⟨fuel + 1, link', (hgo fuel).trans hrun⟩

/-- The states of a receiver: a new one, and what a call of `readyRead` that returns leaves
after more bytes have arrived. -/
inductive Reached : LinkReader M → Prop
  | new : Reached .new
  | readyRead {link link' : LinkReader M} (h : Reached link) (chunk : QByteArray) (fuel : ℕ)
      (hrun : readyReadLoop S fuel { link with socket := link.socket ++ chunk } = some link') :
      Reached link'

theorem Reached.framed (h : Reached S link) : link.Framed := by
  induction h with
  | new => exact framed_of_eq_zero rfl
  | readyRead _ chunk fuel hrun ih => exact framed_readyReadLoop S (ih.arrive chunk) hrun

/-- **readyRead** returns exactly when the bytes do not lead to a negative length that has a
byte behind it: those of the message that the receiver is in, those not read yet, and those
that have arrived. -/
theorem readyRead_returns_iff (h : Reached S link) (chunk : QByteArray) :
    (∃ fuel link', readyReadLoop S fuel { link with socket := link.socket ++ chunk } = some link') ↔
      ¬ ReachesNegative (link.bytesLeft ++ chunk) := by
  have hframed := h.framed.arrive chunk
  have hbytes : bytesLeft { link with socket := link.socket ++ chunk } = link.bytesLeft ++ chunk :=
    (List.append_assoc _ _ _).symm
  rw [← hbytes]
  constructor
  · rintro ⟨fuel, link', hrun⟩ hreach
    rw [readyReadLoop_eq_none S hframed hreach] at hrun
    cases hrun
  · exact exists_readyReadLoop S hframed

/-- A receiver that has the length of a message and a part of its body returns from the rest. -/
theorem readyRead_returns_docsMap :
    ∃ link, Reached bodies link ∧ link.rxDataLength = (writeMap docsMap).length ∧
      ((∃ fuel link', readyReadLoop bodies fuel
          { link with socket := link.socket ++ (bodies.sent [body docsMap]).drop 9 } = some link') ↔
        ¬ ReachesNegative (link.bytesLeft ++ (bodies.sent [body docsMap]).drop 9)) := by
  have hreached : Reached bodies
      ⟨[], (bodies.sent [body docsMap]).take 9, (writeMap docsMap).length, []⟩ :=
    .readyRead .new ((bodies.sent [body docsMap]).take 9) 2 rfl
  exact ⟨_, hreached, rfl, readyRead_returns_iff bodies hreached _⟩

/-- It does not return from the length -1 and a byte. -/
theorem not_readyRead_returns :
    ¬ ∀ (M : Type) (S : MapStream M) (link : LinkReader M) (chunk : QByteArray),
      Reached S link → ∃ fuel link',
        readyReadLoop S fuel { link with socket := link.socket ++ chunk } = some link' := by
  intro h
  obtain ⟨fuel, link', hrun⟩ := h Body bodies .new [255, 255, 255, 255, 0] .new
  have hreach : ReachesNegative
      (bytesLeft { (.new : LinkReader Body) with socket := [] ++ [255, 255, 255, 255, 0] }) :=
    show ReachesNegative ([255, 255, 255, 255] ++ [0]) from .here rfl (by decide) (by decide)
  cases hrun.symm.trans (readyReadLoop_eq_none bodies (framed_of_eq_zero rfl) hreach fuel)

end LinkReader

end Qdocdb
