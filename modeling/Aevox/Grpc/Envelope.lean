import Aevox.Bytes
import Aevox.Library.BigEndian
import Mathlib.Data.UInt
import Mathlib.Tactic.SplitIfs

/-!
# gRPC messages

A unary message travels in an envelope: a flag that says whether it is compressed, its length as a
big-endian number of four bytes, and the message. Compression is not supported. A limit holds for
the length of the message; the configuration may set it to any number but zero.

What is decoded is encoded to the same envelope. What is encoded is decoded again if its length fits
the four bytes, which nothing checks when the limit does not (`envelope_roundTrip_iff`).
-/

namespace Aevox

namespace Grpc

/-- The status of an answer. -/
inductive StatusCode where
  | ok
  | cancelled
  | unknown
  | invalidArgument
  | deadlineExceeded
  | notFound
  | alreadyExists
  | permissionDenied
  | resourceExhausted
  | failedPrecondition
  | aborted
  | outOfRange
  | unimplemented
  | internal
  | unavailable
  | dataLoss
  | unauthenticated
  deriving DecidableEq

/-- `static_cast<int>(code)` -/
def StatusCode.toNat : StatusCode → ℕ
  | ok => 0
  | cancelled => 1
  | unknown => 2
  | invalidArgument => 3
  | deadlineExceeded => 4
  | notFound => 5
  | alreadyExists => 6
  | permissionDenied => 7
  | resourceExhausted => 8
  | failedPrecondition => 9
  | aborted => 10
  | outOfRange => 11
  | unimplemented => 12
  | internal => 13
  | unavailable => 14
  | dataLoss => 15
  | unauthenticated => 16

structure GrpcStatus where
  code : StatusCode
  message : Bytes
  deriving DecidableEq

/-- `GrpcStatus::ok` -/
def GrpcStatus.ok : GrpcStatus := ⟨.ok, []⟩

/-- `GrpcStatus::error`, with a message that is a text constant. -/
def GrpcStatus.error (code : StatusCode) (message : String) : GrpcStatus := ⟨code, ascii message⟩

/-- The errors of the configuration and of the envelope. -/
inductive GrpcError where
  | invalidConfig
  | protocolError
  | messageTooLarge
  | compressionUnsupported
  deriving DecidableEq

structure PluginConfig where
  port : UInt16 := 50051
  maxConcurrentStreams : UInt16 := 128
  maxMessageSize : UInt64 := 4 * 1024 * 1024

/-- `validate_config` -/
def validateConfig (config : PluginConfig) : Except GrpcError Unit :=
  if config.port = 0 ∨ config.maxConcurrentStreams = 0 ∨ config.maxMessageSize = 0 then
    .error .invalidConfig
  else .ok ()

/-- `kEnvelopeSize` -/
def envelopeSize : ℕ := 5

/-- `kUncompressedFlag` -/
def uncompressedFlag : UInt8 := 0

/-- `decode_unary_message` -/
def decodeUnaryMessage (bytes : Bytes) (maxMessageSize : UInt64) : Except GrpcError Bytes :=
  if bytes.length < envelopeSize then .error .protocolError
  else if bytes.head? ≠ some uncompressedFlag then .error .compressionUnsupported
  else
    let length := BigEndian.decode ((bytes.drop 1).take 4)
    if maxMessageSize.toNat < length then .error .messageTooLarge
    else if bytes.length < envelopeSize + length then .error .protocolError
    else if bytes.length ≠ envelopeSize + length then .error .protocolError
    else .ok (bytes.drop envelopeSize)

/-- `encode_unary_message` -/
def encodeUnaryMessage (payload : Bytes) (maxMessageSize : UInt64) : Except GrpcError Bytes :=
  if maxMessageSize.toNat < payload.length then .error .messageTooLarge
  else .ok (uncompressedFlag :: (BigEndian.encode 4 payload.length ++ payload))

/-- A limit that no field of four bytes can exceed does not refuse a message as too large. -/
theorem decode_ne_messageTooLarge {maxMessageSize : UInt64} (hmax : 2 ^ 32 ≤ maxMessageSize.toNat)
    (bytes : Bytes) : decodeUnaryMessage bytes maxMessageSize ≠ .error .messageTooLarge := by
  have hlength : BigEndian.decode ((bytes.drop 1).take 4) < 2 ^ 32 :=
    (BigEndian.decode_lt _).trans_le
      (Nat.pow_le_pow_right (by decide) (List.length_take_le 4 (bytes.drop 1)))
  unfold decodeUnaryMessage
  dsimp only
  rw [if_neg (Nat.not_lt.mpr (hlength.le.trans hmax))]
  split_ifs <;> simp

/-! ## Round trips -/

theorem decodeUnaryMessage_envelope {payload : Bytes} {maxMessageSize : UInt64}
    (hmax : payload.length ≤ maxMessageSize.toNat) :
    decodeUnaryMessage (uncompressedFlag :: (BigEndian.encode 4 payload.length ++ payload))
        maxMessageSize =
      if payload.length < 2 ^ 32 then .ok payload else .error .protocolError := by
  have hlen : (uncompressedFlag :: (BigEndian.encode 4 payload.length ++ payload)).length =
      5 + payload.length := by
    rw [List.length_cons, List.length_append, BigEndian.length_encode]
    omega
  have hfield : ((uncompressedFlag :: (BigEndian.encode 4 payload.length ++ payload)).drop 1).take
      4 = BigEndian.encode 4 payload.length := List.take_left' (BigEndian.length_encode 4 _)
  have hpayload : (uncompressedFlag :: (BigEndian.encode 4 payload.length ++ payload)).drop
      envelopeSize = payload := List.drop_left' (BigEndian.length_encode 4 _)
  have hle : payload.length % 2 ^ 32 ≤ payload.length := Nat.mod_le _ _
  unfold decodeUnaryMessage
  dsimp only
  rw [hlen, hfield, hpayload, BigEndian.decode_encode_mod,
    show 256 ^ 4 = 2 ^ 32 from rfl, envelopeSize, if_neg (by omega),
    if_neg (by simp), if_neg (Nat.not_lt.mpr (hle.trans hmax)),
    if_neg (Nat.not_lt.mpr (Nat.add_le_add_left hle 5))]
  by_cases hsmall : payload.length < 2 ^ 32
  · rw [if_pos hsmall, if_neg (by rw [Nat.mod_eq_of_lt hsmall]; exact not_not_intro rfl)]
  · have hmod : payload.length % 2 ^ 32 < 2 ^ 32 := Nat.mod_lt _ (by decide)
    rw [if_neg hsmall, if_pos (by omega)]

theorem encodeUnaryMessage_eq_ok_iff {payload e : Bytes} {maxMessageSize : UInt64} :
    encodeUnaryMessage payload maxMessageSize = .ok e ↔ payload.length ≤ maxMessageSize.toNat ∧
      e = uncompressedFlag :: (BigEndian.encode 4 payload.length ++ payload) := by
  rw [encodeUnaryMessage]
  split_ifs with hmax
  · exact iff_of_false (by simp) fun h ↦ absurd hmax (Nat.not_lt.mpr h.1)
  · rw [Except.ok.injEq, eq_comm, and_iff_right (Nat.not_lt.mp hmax)]

/-- **What is decoded is encoded to the same envelope.** -/
theorem encodeUnaryMessage_of_decode {bytes payload : Bytes} {maxMessageSize : UInt64}
    (h : decodeUnaryMessage bytes maxMessageSize = .ok payload) :
    encodeUnaryMessage payload maxMessageSize = .ok bytes := by
  unfold decodeUnaryMessage at h
  dsimp only at h
  split_ifs at h with hshort hflag hmax hless hlen
  have hflag : bytes.head? = some uncompressedFlag := not_not.mp hflag
  obtain ⟨rest, rfl⟩ : ∃ rest, bytes = uncompressedFlag :: rest := by
    cases bytes with
    | nil => cases hflag
    | cons b rest => exact ⟨rest, by rw [Option.some.inj hflag]⟩
  have hlen := not_not.mp hlen
  have hmax := Nat.not_lt.mp hmax
  obtain rfl : rest.drop 4 = payload := Except.ok.inj h
  change rest.length + 1 = 5 + BigEndian.decode (rest.take 4) at hlen
  change BigEndian.decode (rest.take 4) ≤ _ at hmax
  have hpayload : (rest.drop 4).length = BigEndian.decode (rest.take 4) := by
    rw [List.length_drop]
    omega
  have hfield : BigEndian.encode 4 (rest.drop 4).length = rest.take 4 := by
    have hback := BigEndian.encode_decode (rest.take 4)
    rwa [List.length_take_of_le (by omega), ← hpayload] at hback
  rw [encodeUnaryMessage_eq_ok_iff, hfield, List.take_append_drop]
  exact ⟨hpayload ▸ hmax, rfl⟩

/-- **Envelopes are opened to what was put into them** exactly if its length fits the field, and
what is taken out of one is put into the same. -/
theorem envelope_roundTrip_iff (maxMessageSize : UInt64) :
    (∀ payload, (∀ e, encodeUnaryMessage payload maxMessageSize = .ok e →
        decodeUnaryMessage e maxMessageSize = .ok payload) ↔
      payload.length < 2 ^ 32 ∨ maxMessageSize.toNat < payload.length) ∧
    ∀ bytes payload, decodeUnaryMessage bytes maxMessageSize = .ok payload →
      encodeUnaryMessage payload maxMessageSize = .ok bytes := by
  refine ⟨fun payload ↦ ?_, fun bytes payload ↦ encodeUnaryMessage_of_decode⟩
  constructor
  · intro h
    by_contra hcond
    obtain ⟨hlarge, hmax⟩ := not_or.mp hcond
    have hmax := Nat.not_lt.mp hmax
    have hback := h _ (encodeUnaryMessage_eq_ok_iff.mpr ⟨hmax, rfl⟩)
    rw [decodeUnaryMessage_envelope hmax, if_neg hlarge] at hback
    cases hback
  · rintro hcond e he
    obtain ⟨hmax, rfl⟩ := encodeUnaryMessage_eq_ok_iff.mp he
    rw [decodeUnaryMessage_envelope hmax,
      if_pos (hcond.resolve_right (Nat.not_lt.mpr hmax))]

/-- A message of 4 GiB is put into an envelope that cannot be opened. -/
theorem not_envelope_roundTrip : ¬∀ (payload e : Bytes) (maxMessageSize : UInt64),
    encodeUnaryMessage payload maxMessageSize = .ok e →
    decodeUnaryMessage e maxMessageSize = .ok payload := by
  intro h
  have hlen : (List.replicate (2 ^ 32) (0 : UInt8)).length = 2 ^ 32 := List.length_replicate
  have hmax : (List.replicate (2 ^ 32) (0 : UInt8)).length ≤ (4294967296 : UInt64).toNat := by
    rw [hlen]
    decide
  have hback := h _ _ 4294967296 (encodeUnaryMessage_eq_ok_iff.mpr ⟨hmax, rfl⟩)
  rw [decodeUnaryMessage_envelope hmax, if_neg (by rw [hlen]; exact lt_irrefl _)] at hback
  cases hback

end Grpc

end Aevox
