import Aevox.Http.Request
import Aevox.Library.BigEndian

/-!
# WebSocket frames

The frame parser and the two emitters of `websocket_frame.cpp`. A frame is a first byte with the FIN
bit and the opcode, a length in one of three encodings, from a client a mask key, and the payload.

The parser looks at a buffer that may hold less than a frame or more. Its verdict depends only on
the bytes it has read to reach it, so it never changes when more bytes arrive
(`parseFrameDetailed_append`); the one verdict that can change is the request for more. What
`emitFrame` writes, and what a client writes that masks the same frame, is read back in full
(`parse_emitFrame`).
-/

namespace Aevox

/-! ## The data model -/

/-- `Opcode` -/
inductive Opcode where
  | continuation
  | text
  | binary
  | close
  | ping
  | pong
  deriving DecidableEq, Repr

/-- The underlying value of an opcode. -/
def Opcode.toByte : Opcode → UInt8
  | continuation => 0x0
  | text => 0x1
  | binary => 0x2
  | close => 0x8
  | ping => 0x9
  | pong => 0xA

/-- `is_known_opcode`, with the opcode it knows. -/
def Opcode.ofByte (raw : UInt8) : Option Opcode :=
  [continuation, text, binary, close, ping, pong].find? fun opcode ↦ opcode.toByte = raw

/-- `ParsedFrame` -/
structure ParsedFrame where
  opcode : Opcode
  fin : Bool
  payload : Bytes
  deriving DecidableEq

/-- `ParseResult` -/
structure ParseResult where
  frame : ParsedFrame
  bytesConsumed : ℕ
  deriving DecidableEq

/-- `ParseFrameErrorKind` -/
inductive ParseFrameErrorKind where
  | incomplete
  | protocol
  deriving DecidableEq, Repr

/-- `ParseFrameError` -/
structure ParseFrameError where
  kind : ParseFrameErrorKind
  error : WebSocketError
  deriving DecidableEq

/-! ## Constants -/

abbrev kBaseHeaderBytes : ℕ := 2
abbrev kExtended16Bytes : ℕ := 2
abbrev kExtended64Bytes : ℕ := 8
abbrev kMaskKeyBytes : ℕ := 4
abbrev kFinBit : UInt8 := 0x80
abbrev kMaskBit : UInt8 := 0x80
abbrev kOpcodeMask : UInt8 := 0x0F
abbrev kRsvMask : UInt8 := 0x70
abbrev kPayloadLengthMask : UInt8 := 0x7F
abbrev kPayload16Marker : UInt8 := 126
abbrev kPayload64Marker : UInt8 := 127
abbrev kServerMaskBit : UInt8 := 0x00
abbrev kPayload64MsbMask : ℕ := 0x8000000000000000
abbrev kCloseCodeBytes : ℕ := 2
abbrev kMaxControlPayloadBytes : ℕ := 125
abbrev kMaxCloseReasonBytes : ℕ := kMaxControlPayloadBytes - kCloseCodeBytes

/-! ## parse_frame -/

/-- More bytes are needed. -/
def incomplete (message : Bytes) : ParseFrameError := ⟨.incomplete, .protocolError, message⟩

/-- The peer has violated the protocol. -/
def protocolViolation (message : Bytes) : ParseFrameError := ⟨.protocol, .protocolError, message⟩

/-- A section of RFC 6455, as the messages cite it. -/
def sectionOf (message section' : String) : Bytes :=
  ascii message ++ ascii " (RFC 6455 " ++ [0xC2, 0xA7] ++ ascii section' ++ ascii ")"

/-- What the first byte must satisfy: no reserved bits, a known opcode, no fragments. -/
def checkOpcode (byte0 : UInt8) : Except ParseFrameError Opcode :=
  if byte0 &&& kRsvMask ≠ 0 then
    .error (protocolViolation (ascii "Non-zero RSV bits without extension negotiation"))
  else
    match Opcode.ofByte (byte0 &&& kOpcodeMask) with
    | none => .error (protocolViolation (ascii "Reserved or unknown opcode"))
    | some opcode =>
      if opcode = .continuation then
        .error (protocolViolation (ascii
          "Fragmented messages (FIN=0, continuation frames) not supported in v0.2"))
      else if byte0 &&& kFinBit = 0 ∧ (opcode = .close ∨ opcode = .ping ∨ opcode = .pong) then
        .error (protocolViolation (ascii "Control frame must not be fragmented (FIN must be 1)"))
      else if byte0 &&& kFinBit = 0 ∧ (opcode = .text ∨ opcode = .binary) then
        .error (protocolViolation (ascii "Fragmented messages (FIN=0) not supported in v0.2"))
      else .ok opcode

/-- Clients must mask, servers must not. -/
def checkMask (byte1 : UInt8) (expectMasked : Bool) : Except ParseFrameError Bool :=
  if expectMasked ∧ byte1 &&& kMaskBit = 0 then
    .error (protocolViolation (sectionOf "Client frame must have MASK bit set" "5.3"))
  else if ¬expectMasked ∧ byte1 &&& kMaskBit ≠ 0 then
    .error (protocolViolation (sectionOf "Server frame must not have MASK bit set" "5.3"))
  else .ok (byte1 &&& kMaskBit ≠ 0)

/-- `payload_len64`, from seven bits or from two or eight bytes behind the first two. -/
def payloadLength (input : Bytes) (len7 : UInt8) : Except ParseFrameError ℕ :=
  if len7 < kPayload16Marker then .ok len7.toNat
  else if len7 = kPayload16Marker then
    if input.length < kBaseHeaderBytes + kExtended16Bytes then
      .error (incomplete (ascii "Frame too short for 16-bit extended payload length"))
    else .ok (BigEndian.decode ((input.drop kBaseHeaderBytes).take kExtended16Bytes))
  else if input.length < kBaseHeaderBytes + kExtended64Bytes then
    .error (incomplete (ascii "Frame too short for 64-bit extended payload length"))
  else if BigEndian.decode ((input.drop kBaseHeaderBytes).take kExtended64Bytes) &&&
      kPayload64MsbMask ≠ 0 then
    .error (protocolViolation (sectionOf "64-bit payload length MSB must be 0" "5.2"))
  else .ok (BigEndian.decode ((input.drop kBaseHeaderBytes).take kExtended64Bytes))

/-- `ext_len_bytes` -/
def extLenBytes (len7 : UInt8) : ℕ :=
  if len7 = kPayload16Marker then kExtended16Bytes
  else if len7 = kPayload64Marker then kExtended64Bytes
  else 0

/-- Masks a payload, or unmasks it. -/
def applyMask (maskKey payload : Bytes) : Bytes :=
  payload.mapIdx fun i byte ↦ byte ^^^ maskKey.getD (i % kMaskKeyBytes) 0

/-- What follows once the payload's length is known: the limit, the rest of the frame, the mask. -/
def parsePayload (input : Bytes) (maxPayloadBytes : ℕ) (opcode : Opcode) (fin masked : Bool)
    (maskOffset payloadLen : ℕ) : Except ParseFrameError ParseResult :=
  let actualHeader := maskOffset + if masked then kMaskKeyBytes else 0
  if payloadLen > maxPayloadBytes then
    .error ⟨.protocol, .frameTooLarge, ascii "Payload length exceeds max_body_size limit"⟩
  else if input.length < actualHeader + payloadLen then
    .error (incomplete (ascii "Input buffer does not contain a complete frame"))
  else
    let maskKey := (input.drop maskOffset).take kMaskKeyBytes
    let payload := (input.drop actualHeader).take payloadLen
    .ok ⟨⟨opcode, fin, if masked then applyMask maskKey payload else payload⟩,
      actualHeader + payloadLen⟩

/-- `parse_frame_detailed` -/
def parseFrameDetailed (input : Bytes) (maxPayloadBytes : ℕ) (expectMasked : Bool) :
    Except ParseFrameError ParseResult :=
  match input with
  | byte0 :: byte1 :: _ => do
    let opcode ← checkOpcode byte0
    let masked ← checkMask byte1 expectMasked
    let len7 := byte1 &&& kPayloadLengthMask
    let payloadLen ← payloadLength input len7
    parsePayload input maxPayloadBytes opcode (byte0 &&& kFinBit ≠ 0) masked
      (kBaseHeaderBytes + extLenBytes len7) payloadLen
  | _ => .error (incomplete (ascii "Frame too short: need at least 2 header bytes"))

/-! ## emit_frame -/

/-- `emit_frame`: the length in the shortest encoding, and no mask. -/
def emitFrame (opcode : Opcode) (fin : Bool) (payload : Bytes) : Bytes :=
  ((if fin then kFinBit else kServerMaskBit) ||| opcode.toByte) ::
    (if payload.length < kPayload16Marker.toNat then [payload.length.toUInt8]
      else if payload.length ≤ 65535 then
        kPayload16Marker :: BigEndian.encode kExtended16Bytes payload.length
      else kPayload64Marker :: BigEndian.encode kExtended64Bytes payload.length) ++ payload

/-- `emit_close_frame` -/
def emitCloseFrame (code : UInt16) (reason : Bytes) : Bytes :=
  emitFrame .close true
    ((code >>> 8).toUInt8 :: code.toUInt8 :: reason.take kMaxCloseReasonBytes)

/-- The frame has this opcode. -/
def carries (opcode : Opcode) (frame : Bytes) : Bool :=
  frame.headD 0 &&& kOpcodeMask = opcode.toByte

theorem carries_emitFrame (opcode opcode' : Opcode) (fin : Bool) (payload : Bytes) :
    carries opcode (emitFrame opcode' fin payload) = decide (opcode' = opcode) := by
  rw [carries, emitFrame, List.cons_append, List.headD_cons]
  cases fin <;> cases opcode <;> cases opcode' <;> rfl

/-! ## Verdicts are final -/

/-- The verdict is that more bytes are needed. -/
def Awaits {α : Type} (r : Except ParseFrameError α) : Prop :=
  ∃ e, r = .error e ∧ e.kind = .incomplete

theorem not_awaits_ok {α : Type} (a : α) : ¬Awaits (.ok a : Except ParseFrameError α) := by
  rintro ⟨e, h, -⟩
  exact nomatch h

/-- A window of what has arrived does not move when more arrives. -/
theorem take_drop_append_left {l : Bytes} {i n : ℕ} (h : i + n ≤ l.length) (m : Bytes) :
    ((l ++ m).drop i).take n = (l.drop i).take n := by
  rw [List.drop_append_of_le_length (by omega), List.take_append_of_le_length]
  rw [List.length_drop]
  omega

theorem awaits_incomplete {α : Type} (message : Bytes) :
    Awaits (.error (incomplete message) : Except ParseFrameError α) := ⟨_, rfl, rfl⟩

theorem payloadLength_append {input : Bytes} {len7 : UInt8}
    (h : ¬Awaits (payloadLength input len7)) (more : Bytes) :
    payloadLength (input ++ more) len7 = payloadLength input len7 := by
  have hlen : (input ++ more).length = input.length + more.length := List.length_append
  unfold payloadLength at h ⊢
  by_cases h7 : len7 < kPayload16Marker
  · rw [if_pos h7, if_pos h7]
  by_cases h16 : len7 = kPayload16Marker
  · rw [if_neg h7, if_pos h16] at h ⊢
    have henough : ¬input.length < kBaseHeaderBytes + kExtended16Bytes := fun hshort ↦
      h (if_pos hshort ▸ awaits_incomplete _)
    rw [if_neg h7, if_pos h16, if_neg henough, if_neg (by omega),
      take_drop_append_left (by omega)]
  · rw [if_neg h7, if_neg h16] at h ⊢
    have henough : ¬input.length < kBaseHeaderBytes + kExtended64Bytes := fun hshort ↦
      h (if_pos hshort ▸ awaits_incomplete _)
    rw [if_neg h7, if_neg h16, if_neg henough, if_neg (by omega),
      take_drop_append_left (by omega)]

theorem parsePayload_append {input : Bytes} {max : ℕ} {opcode : Opcode} {fin masked : Bool}
    {maskOffset payloadLen : ℕ}
    (h : ¬Awaits (parsePayload input max opcode fin masked maskOffset payloadLen)) (more : Bytes) :
    parsePayload (input ++ more) max opcode fin masked maskOffset payloadLen
      = parsePayload input max opcode fin masked maskOffset payloadLen := by
  have hlen : (input ++ more).length = input.length + more.length := List.length_append
  unfold parsePayload at h ⊢
  dsimp only at h ⊢
  by_cases hmax : payloadLen > max
  · rw [if_pos hmax, if_pos hmax]
  · rw [if_neg hmax] at h ⊢
    have henough :
        ¬input.length < maskOffset + (if masked then kMaskKeyBytes else 0) + payloadLen :=
      fun hshort ↦ h (if_pos hshort ▸ awaits_incomplete _)
    cases masked with
    | false =>
      have hshort : ¬input.length < maskOffset + payloadLen := henough
      rw [if_neg hmax, if_neg henough, if_neg (by rw [hlen]; omega)]
      simp only [Bool.false_eq_true, if_false, Nat.add_zero]
      rw [take_drop_append_left (by omega)]
    | true =>
      have hshort : ¬input.length < maskOffset + kMaskKeyBytes + payloadLen := henough
      rw [if_neg hmax, if_neg henough, if_neg (by rw [hlen]; omega)]
      simp only [if_true]
      rw [take_drop_append_left (i := maskOffset) (by omega),
        take_drop_append_left (i := maskOffset + kMaskKeyBytes) (by omega)]

theorem parseFrameDetailed_of_ok {byte0 byte1 : UInt8} {rest : Bytes} {max : ℕ}
    {expectMasked masked : Bool} {opcode : Opcode} (hop : checkOpcode byte0 = .ok opcode)
    (hmask : checkMask byte1 expectMasked = .ok masked) :
    parseFrameDetailed (byte0 :: byte1 :: rest) max expectMasked
      = (payloadLength (byte0 :: byte1 :: rest) (byte1 &&& kPayloadLengthMask)).bind
          fun payloadLen ↦ parsePayload (byte0 :: byte1 :: rest) max opcode (byte0 &&& kFinBit ≠ 0)
            masked (kBaseHeaderBytes + extLenBytes (byte1 &&& kPayloadLengthMask)) payloadLen := by
  rw [parseFrameDetailed, hop, hmask]
  rfl

/-- **A verdict is final.** Once the parser does not ask for more, more bytes change nothing. -/
theorem parseFrameDetailed_append {input : Bytes} {max : ℕ} {expectMasked : Bool}
    (h : ¬Awaits (parseFrameDetailed input max expectMasked)) (more : Bytes) :
    parseFrameDetailed (input ++ more) max expectMasked
      = parseFrameDetailed input max expectMasked := by
  rcases input with _ | ⟨byte0, _ | ⟨byte1, rest⟩⟩
  · exact absurd (awaits_incomplete _) h
  · exact absurd (awaits_incomplete _) h
  cases hop : checkOpcode byte0 with
  | error e =>
    rw [List.cons_append, List.cons_append, parseFrameDetailed, parseFrameDetailed, hop]
    rfl
  | ok opcode =>
    cases hmask : checkMask byte1 expectMasked with
    | error e =>
      rw [List.cons_append, List.cons_append, parseFrameDetailed, parseFrameDetailed, hop, hmask]
      rfl
    | ok masked =>
      rw [parseFrameDetailed_of_ok hop hmask] at h
      have hlength : ¬Awaits (payloadLength (byte0 :: byte1 :: rest)
          (byte1 &&& kPayloadLengthMask)) := by
        rintro ⟨e, he, hkind⟩
        rw [he] at h
        exact h ⟨e, rfl, hkind⟩
      have hsame := payloadLength_append hlength more
      rw [List.cons_append, List.cons_append] at hsame ⊢
      rw [parseFrameDetailed_of_ok hop hmask, parseFrameDetailed_of_ok hop hmask, hsame]
      cases hp : payloadLength (byte0 :: byte1 :: rest) (byte1 &&& kPayloadLengthMask) with
      | error e => rfl
      | ok payloadLen =>
        rw [hp] at h
        exact parsePayload_append h more

/-! ## Frames -/

theorem ne_continuation_of_checkOpcode {byte0 : UInt8} {opcode : Opcode}
    (h : checkOpcode byte0 = .ok opcode) : opcode ≠ .continuation := by
  rintro rfl
  unfold checkOpcode at h
  split_ifs at h
  cases hof : Opcode.ofByte (byte0 &&& kOpcodeMask) with
  | none => simp [hof] at h
  | some opcode =>
    simp only [hof] at h
    split_ifs at h with hcont
    exact hcont (Except.ok.inj h)

theorem of_parsePayload {input : Bytes} {max : ℕ} {opcode : Opcode} {fin masked : Bool}
    {maskOffset payloadLen : ℕ} {result : ParseResult}
    (h : parsePayload input max opcode fin masked maskOffset payloadLen = .ok result) :
    result.frame.opcode = opcode ∧ maskOffset ≤ result.bytesConsumed ∧
      result.bytesConsumed ≤ input.length := by
  unfold parsePayload at h
  dsimp only at h
  by_cases hmax : payloadLen > max
  · rw [if_pos hmax] at h
    exact nomatch h
  by_cases hlen : input.length < maskOffset + (if masked then kMaskKeyBytes else 0) + payloadLen
  · rw [if_neg hmax, if_pos hlen] at h
    exact nomatch h
  rw [if_neg hmax, if_neg hlen] at h
  rw [← Except.ok.inj h]
  refine ⟨rfl, ?_, Nat.not_lt.mp hlen⟩
  exact (Nat.le_add_right _ _).trans (Nat.le_add_right _ _)

theorem of_parseFrameDetailed {input : Bytes} {max : ℕ} {expectMasked : Bool} {result : ParseResult}
    (h : parseFrameDetailed input max expectMasked = .ok result) :
    result.frame.opcode ≠ .continuation ∧ 0 < result.bytesConsumed ∧
      result.bytesConsumed ≤ input.length := by
  rcases input with _ | ⟨byte0, _ | ⟨byte1, rest⟩⟩
  · exact nomatch h
  · exact nomatch h
  cases hop : checkOpcode byte0 with
  | error e =>
    rw [parseFrameDetailed, hop] at h
    exact nomatch h
  | ok opcode =>
    cases hmask : checkMask byte1 expectMasked with
    | error e =>
      rw [parseFrameDetailed, hop, hmask] at h
      exact nomatch h
    | ok masked =>
      rw [parseFrameDetailed_of_ok hop hmask] at h
      cases hp : payloadLength (byte0 :: byte1 :: rest) (byte1 &&& kPayloadLengthMask) with
      | error e =>
        rw [hp] at h
        exact nomatch h
      | ok payloadLen =>
        rw [hp] at h
        obtain ⟨hopcode, hoffset, hlen⟩ := of_parsePayload h
        refine ⟨hopcode ▸ ne_continuation_of_checkOpcode hop, Nat.lt_of_lt_of_le ?_ hoffset, hlen⟩
        exact Nat.lt_of_lt_of_le Nat.two_pos (Nat.le_add_right _ _)

/-! ## Round trips -/

/-- The seven bits that announce a payload of length `n`. -/
def lengthByte (n : ℕ) : UInt8 :=
  if n < kPayload16Marker.toNat then n.toUInt8
  else if n ≤ 65535 then kPayload16Marker else kPayload64Marker

/-- The length field behind them. -/
def lengthBytes (n : ℕ) : Bytes :=
  if n < kPayload16Marker.toNat then []
  else if n ≤ 65535 then BigEndian.encode kExtended16Bytes n
  else BigEndian.encode kExtended64Bytes n

theorem emitFrame_eq (opcode : Opcode) (fin : Bool) (payload : Bytes) :
    emitFrame opcode fin payload
      = ((if fin then kFinBit else kServerMaskBit) ||| opcode.toByte) ::
          lengthByte payload.length :: (lengthBytes payload.length ++ payload) := by
  unfold emitFrame lengthByte lengthBytes
  split_ifs <;> rfl

example : emitFrame .text true (ascii "hello") = 0x81 :: 0x05 :: ascii "hello" := by decide

/-- The encoding RFC 6455 asks of a client: the same frame, with the mask bit, the key and the
masked payload. -/
def clientFrame (opcode : Opcode) (fin : Bool) (maskKey payload : Bytes) : Bytes :=
  ((if fin then kFinBit else kServerMaskBit) ||| opcode.toByte) ::
    (kMaskBit ||| lengthByte payload.length) ::
      (lengthBytes payload.length ++ (maskKey ++ applyMask maskKey payload))

/-- The mask bit and the seven bits of the length do not get in each other's way. -/
theorem lengthByte_bits (n : ℕ) :
    lengthByte n &&& kMaskBit = 0 ∧ lengthByte n &&& kPayloadLengthMask = lengthByte n ∧
      (kMaskBit ||| lengthByte n) &&& kMaskBit ≠ 0 ∧
      (kMaskBit ||| lengthByte n) &&& kPayloadLengthMask = lengthByte n := by
  have hsmall : ∀ m : Fin 128,
      (m : ℕ).toUInt8 &&& kMaskBit = 0 ∧ (m : ℕ).toUInt8 &&& kPayloadLengthMask = (m : ℕ).toUInt8 ∧
        (kMaskBit ||| (m : ℕ).toUInt8) &&& kMaskBit ≠ 0 ∧
        (kMaskBit ||| (m : ℕ).toUInt8) &&& kPayloadLengthMask = (m : ℕ).toUInt8 := by decide
  have hbyte : ∃ m : Fin 128, lengthByte n = (m : ℕ).toUInt8 := by
    unfold lengthByte
    split_ifs with h
    · exact ⟨⟨n, Nat.lt_trans h (by decide)⟩, rfl⟩
    · exact ⟨126, rfl⟩
    · exact ⟨127, rfl⟩
  obtain ⟨m, hm⟩ := hbyte
  rw [hm]
  exact hsmall m

theorem extLenBytes_lengthByte (n : ℕ) : extLenBytes (lengthByte n) = (lengthBytes n).length := by
  unfold lengthByte lengthBytes
  split_ifs with h h'
  · have hn : ∀ m : Fin 126, extLenBytes (m : ℕ).toUInt8 = 0 := by decide
    exact hn ⟨n, h⟩
  · rfl
  · rfl

/-- **The length is read back**, from the shortest of the three encodings. -/
theorem payloadLength_lengthBytes {n : ℕ} (hn : n < 2 ^ 63) (byte0 byte1 : UInt8) (rest : Bytes) :
    payloadLength (byte0 :: byte1 :: (lengthBytes n ++ rest)) (lengthByte n) = .ok n := by
  unfold lengthByte lengthBytes payloadLength
  by_cases h7 : n < kPayload16Marker.toNat
  · have hval : n.toUInt8.toNat = n := by
      rw [Nat.toUInt8_eq, UInt8.toNat_ofNat', Nat.mod_eq_of_lt (Nat.lt_trans h7 (by decide))]
    rw [if_pos h7, if_pos (by rw [UInt8.lt_iff_toNat_lt, hval]; exact h7), hval]
  by_cases h16 : n ≤ 65535
  · rw [if_neg h7, if_neg h7, if_pos h16, if_pos h16, if_neg (by decide), if_pos rfl]
    have hfield : (((byte0 :: byte1 :: (BigEndian.encode kExtended16Bytes n ++ rest)).drop
        kBaseHeaderBytes).take kExtended16Bytes) = BigEndian.encode kExtended16Bytes n :=
      List.take_left' (BigEndian.length_encode _ _)
    have hlen : ¬(byte0 :: byte1 :: (BigEndian.encode kExtended16Bytes n ++ rest)).length
        < kBaseHeaderBytes + kExtended16Bytes := by
      simp only [List.length_cons, List.length_append, BigEndian.length_encode, kBaseHeaderBytes]
      omega
    rw [if_neg hlen, hfield, BigEndian.decode_encode (Nat.lt_of_le_of_lt h16 (by decide))]
  · rw [if_neg h7, if_neg h7, if_neg h16, if_neg h16, if_neg (by decide), if_neg (by decide)]
    have hfield : (((byte0 :: byte1 :: (BigEndian.encode kExtended64Bytes n ++ rest)).drop
        kBaseHeaderBytes).take kExtended64Bytes) = BigEndian.encode kExtended64Bytes n :=
      List.take_left' (BigEndian.length_encode _ _)
    have hmsb : n &&& kPayload64MsbMask = 0 := by
      have hmask : kPayload64MsbMask = 2 ^ 63 := rfl
      rw [hmask, Nat.and_two_pow, Nat.testBit_lt_two_pow hn]
      rfl
    have hlen : ¬(byte0 :: byte1 :: (BigEndian.encode kExtended64Bytes n ++ rest)).length
        < kBaseHeaderBytes + kExtended64Bytes := by
      simp only [List.length_cons, List.length_append, BigEndian.length_encode, kBaseHeaderBytes]
      omega
    rw [if_neg hlen, hfield, BigEndian.decode_encode (Nat.lt_trans hn (by decide)),
      if_neg (not_not_intro hmsb)]

theorem applyMask_applyMask (maskKey payload : Bytes) :
    applyMask maskKey (applyMask maskKey payload) = payload := by
  apply List.ext_getElem
  · simp [applyMask]
  · intro i _ _
    have hcancel (a b : UInt8) : a ^^^ b ^^^ b = a := by
      rw [UInt8.xor_assoc, UInt8.xor_self, UInt8.xor_zero]
    simp only [applyMask, List.getElem_mapIdx, hcancel]

@[simp] theorem length_applyMask (maskKey payload : Bytes) :
    (applyMask maskKey payload).length = payload.length := List.length_mapIdx

theorem checkOpcode_fin {opcode : Opcode} (h : opcode ≠ .continuation) :
    checkOpcode (kFinBit ||| opcode.toByte) = .ok opcode ∧
      decide ((kFinBit ||| opcode.toByte) &&& kFinBit ≠ 0) = true := by
  cases opcode with
  | continuation => exact absurd rfl h
  | text => decide
  | binary => decide
  | close => decide
  | ping => decide
  | pong => decide

theorem parsePayload_unmasked (head : Bytes) {payload : Bytes} {max : ℕ}
    (hmax : payload.length ≤ max) (opcode : Opcode) (fin : Bool) (rest : Bytes) :
    parsePayload (head ++ (payload ++ rest)) max opcode fin false head.length payload.length
      = .ok ⟨⟨opcode, fin, payload⟩, head.length + payload.length⟩ := by
  have hlen : ¬(head ++ (payload ++ rest)).length < head.length + payload.length := by
    simp only [List.length_append]
    omega
  rw [parsePayload]
  simp only [Bool.false_eq_true, if_false, Nat.add_zero, List.drop_left', List.take_left']
  rw [if_neg (Nat.not_lt.mpr hmax), if_neg hlen]

theorem parsePayload_masked (head : Bytes) {maskKey payload : Bytes} {max : ℕ}
    (hmax : payload.length ≤ max) (hkey : maskKey.length = kMaskKeyBytes) (opcode : Opcode)
    (fin : Bool) (rest : Bytes) :
    parsePayload (head ++ (maskKey ++ (applyMask maskKey payload ++ rest))) max opcode fin true
        head.length payload.length
      = .ok ⟨⟨opcode, fin, payload⟩, head.length + kMaskKeyBytes + payload.length⟩ := by
  have hlen : ¬(head ++ (maskKey ++ (applyMask maskKey payload ++ rest))).length
      < head.length + kMaskKeyBytes + payload.length := by
    simp only [List.length_append, length_applyMask]
    omega
  have hbody : ((head ++ (maskKey ++ (applyMask maskKey payload ++ rest))).drop
      (head.length + kMaskKeyBytes)).take payload.length = applyMask maskKey payload := by
    rw [← List.drop_drop, List.drop_left' rfl, List.drop_left' hkey,
      List.take_left' (length_applyMask _ _)]
  rw [parsePayload]
  simp only [if_true, List.drop_left', List.take_left' hkey]
  rw [if_neg (Nat.not_lt.mpr hmax), if_neg hlen, hbody, applyMask_applyMask]

theorem length_header (byte0 byte1 : UInt8) (n : ℕ) :
    kBaseHeaderBytes + extLenBytes (lengthByte n) = (byte0 :: byte1 :: lengthBytes n).length := by
  rw [extLenBytes_lengthByte, List.length_cons, List.length_cons]
  exact Nat.add_comm _ _

/-- The server's encoding is read back. -/
theorem parseFrameDetailed_emitFrame {opcode : Opcode} (hop : opcode ≠ .continuation)
    {payload : Bytes} {max : ℕ} (hmax : payload.length ≤ max) (hlen : payload.length < 2 ^ 63)
    (rest : Bytes) :
    parseFrameDetailed (emitFrame opcode true payload ++ rest) max false
      = .ok ⟨⟨opcode, true, payload⟩, (emitFrame opcode true payload).length⟩ := by
  obtain ⟨hcheck, hfin⟩ := checkOpcode_fin hop
  obtain ⟨hunmasked, hlen7, -, -⟩ := lengthByte_bits payload.length
  have hmask : checkMask (lengthByte payload.length) false = .ok false := by
    simp [checkMask, hunmasked]
  rw [emitFrame_eq, if_pos rfl, List.cons_append, List.cons_append, List.append_assoc,
    parseFrameDetailed_of_ok hcheck hmask, hlen7, payloadLength_lengthBytes hlen, hfin,
    length_header (kFinBit ||| opcode.toByte) (lengthByte payload.length)]
  refine (parsePayload_unmasked (_ :: _ :: lengthBytes payload.length) hmax opcode true
    rest).trans ?_
  simp only [List.length_cons, List.length_append]
  congr 2
  omega

theorem parseFrameDetailed_clientFrame {opcode : Opcode} (hop : opcode ≠ .continuation)
    {payload : Bytes} {max : ℕ} (hmax : payload.length ≤ max) (hlen : payload.length < 2 ^ 63)
    (rest : Bytes) {maskKey : Bytes} (hkey : maskKey.length = kMaskKeyBytes) :
    parseFrameDetailed (clientFrame opcode true maskKey payload ++ rest) max true
      = .ok ⟨⟨opcode, true, payload⟩, (clientFrame opcode true maskKey payload).length⟩ := by
  obtain ⟨hcheck, hfin⟩ := checkOpcode_fin hop
  obtain ⟨-, -, hmasked, hlen7⟩ := lengthByte_bits payload.length
  have hmask : checkMask (kMaskBit ||| lengthByte payload.length) true = .ok true := by
    simp [checkMask, hmasked]
  rw [clientFrame, if_pos rfl, List.cons_append, List.cons_append, List.append_assoc,
    List.append_assoc, parseFrameDetailed_of_ok hcheck hmask, hlen7,
    payloadLength_lengthBytes hlen, hfin,
    length_header (kFinBit ||| opcode.toByte) (kMaskBit ||| lengthByte payload.length)]
  refine (parsePayload_masked (_ :: _ :: lengthBytes payload.length) hmax hkey opcode true
    rest).trans ?_
  simp only [List.length_cons, List.length_append, length_applyMask, hkey]
  congr 2
  omega

/-- **Frames are read back.** What `emit_frame` writes for an unfragmented frame, and what a client
writes that masks it, is parsed to the frame whatever follows, and nothing but it is consumed. -/
theorem parse_emitFrame {opcode : Opcode} (hop : opcode ≠ .continuation) {payload : Bytes}
    {max : ℕ} (hmax : payload.length ≤ max) (hlen : payload.length < 2 ^ 63) (rest : Bytes) :
    parseFrameDetailed (emitFrame opcode true payload ++ rest) max false
        = .ok ⟨⟨opcode, true, payload⟩, (emitFrame opcode true payload).length⟩ ∧
      ∀ maskKey : Bytes, maskKey.length = kMaskKeyBytes →
        parseFrameDetailed (clientFrame opcode true maskKey payload ++ rest) max true
          = .ok ⟨⟨opcode, true, payload⟩, (clientFrame opcode true maskKey payload).length⟩ :=
  ⟨parseFrameDetailed_emitFrame hop hmax hlen rest,
    fun _ hkey ↦ parseFrameDetailed_clientFrame hop hmax hlen rest hkey⟩

/-- A `Ping` of seven bytes, in both encodings. -/
theorem parse_emitFrame_ping :
    parseFrameDetailed (emitFrame .ping true (ascii "goodbye") ++ [0x81]) 7 false
        = .ok ⟨⟨.ping, true, ascii "goodbye"⟩, (emitFrame .ping true (ascii "goodbye")).length⟩ ∧
      parseFrameDetailed (clientFrame .ping true [1, 2, 3, 4] (ascii "goodbye") ++ [0x81]) 7 true
        = .ok ⟨⟨.ping, true, ascii "goodbye"⟩,
            (clientFrame .ping true [1, 2, 3, 4] (ascii "goodbye")).length⟩ := by
  obtain ⟨hplain, hclient⟩ :=
    @parse_emitFrame .ping (by decide) (ascii "goodbye") 7 (by decide) (by decide) [0x81]
  exact ⟨hplain, hclient [1, 2, 3, 4] rfl⟩

end Aevox
