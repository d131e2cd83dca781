import Aevox.Grpc.Session
import Aevox.Library.Hex

/-!
# The message of a status

The message of a status travels in the trailer `grpc-message`, whose value a client decodes: `%` and
two hexadecimal digits stand for a byte, and an incomplete escape stands for itself. The session
writes a message as it is, except that it replaces line breaks by spaces. So a message comes through
exactly if nothing in it needed to be encoded (`grpcMessage_carried_iff`).
-/

namespace Aevox

namespace Grpc

/-- `%` -/
abbrev percent : UInt8 := 37

/-- What a field value may contain: a tab, and everything that is not a control character. -/
def IsFieldByte (b : UInt8) : Prop := b = 9 ∨ 32 ≤ b ∧ b ≠ 127

instance (b : UInt8) : Decidable (IsFieldByte b) := inferInstanceAs (Decidable (_ ∨ _))

/-- The value of the trailer `grpc-message`; without one the message is empty. -/
def grpcMessageOf (trailers : List Metadata) : Bytes :=
  match trailers.find? fun md ↦ md.name = ascii "grpc-message" with
  | some md => md.value
  | none => []

/-- The trailers carry the message: they can be sent, and the client decodes it. -/
def Carries (trailers : List Metadata) (message : Bytes) : Prop :=
  (∀ b ∈ grpcMessageOf trailers, IsFieldByte b) ∧
    Hex.unescape percent (grpcMessageOf trailers) = message

/-- Nothing in the message has to be encoded. -/
def Unencoded (message : Bytes) : Prop :=
  (∀ b ∈ message, IsFieldByte b) ∧ ¬Hex.HasEscape percent message

theorem grpcMessageOf_trailersOf (status : GrpcStatus) :
    grpcMessageOf (trailersOf status []) = sanitizeGrpcMessage status.message := by
  rw [trailersOf, List.map_nil, List.nil_append]
  split_ifs with hempty
  · rw [hempty]
    rfl
  · rfl

/-- Line breaks are no field bytes, so a message without any other bytes is left alone. -/
theorem sanitizeGrpcMessage_of_fieldBytes {message : Bytes} (h : ∀ b ∈ message, IsFieldByte b) :
    sanitizeGrpcMessage message = message := by
  refine (List.map_congr_left fun b hb ↦ ?_).trans message.map_id
  apply if_neg
  rintro (rfl | rfl)
  · exact absurd (h cr hb) (by decide)
  · exact absurd (h lf hb) (by decide)

/-- **A message comes through** exactly if nothing in it has to be encoded. -/
theorem carries_iff (status : GrpcStatus) :
    Carries (trailersOf status []) status.message ↔ Unencoded status.message := by
  rw [Carries, Unencoded, grpcMessageOf_trailersOf]
  constructor
  · rintro ⟨hbytes, hdecoded⟩
    -- the client gets as many bytes as were sent, so it has found no escape
    have hlen : (sanitizeGrpcMessage status.message).length = status.message.length :=
      List.length_map _
    have hnone : ¬Hex.HasEscape percent (sanitizeGrpcMessage status.message) := by
      apply Hex.not_hasEscape_of_length
      rw [hdecoded, hlen]
    have hsame : sanitizeGrpcMessage status.message = status.message :=
      (Hex.unescape_of_not_hasEscape hnone).symm.trans hdecoded
    rw [hsame] at hbytes hnone
    exact ⟨hbytes, hnone⟩
  · rintro ⟨hbytes, hnone⟩
    rw [sanitizeGrpcMessage_of_fieldBytes hbytes]
    exact ⟨hbytes, Hex.unescape_of_not_hasEscape hnone⟩

/-- What the library is given when it reads the answer of a handler that has failed. -/
theorem trailers_of_fails {state : StreamState} {config : PluginConfig} {methods : List Bytes}
    {request : UnaryRequest} (hadmitted : state.admission config methods = .ok request)
    (status : GrpcStatus) (length : ℕ) :
    ((state.process config methods (.fails status)).1.onDataRead length).trailers =
      some (trailersOf status []) := by
  have hprocess : state.process config methods (.fails status) =
      (StreamState.submitStatus { state with submitted := true } status, status) := by
    rw [StreamState.process, hadmitted]
    rfl
  rw [hprocess]
  rfl

/-- **Status messages are carried** exactly if nothing in them has to be encoded. A request has got
to a handler, which has returned a status, and the library reads the answer. -/
theorem grpcMessage_carried_iff {state : StreamState} {config : PluginConfig} {methods : List Bytes}
    {request : UnaryRequest} (hadmitted : state.admission config methods = .ok request)
    (status : GrpcStatus) (length : ℕ) : ∃ trailers,
      ((state.process config methods (.fails status)).1.onDataRead length).trailers =
        some trailers ∧
      (Carries trailers status.message ↔ Unencoded status.message) :=
  ⟨_, trailers_of_fails hadmitted status length, carries_iff status⟩

/-- A request without a payload. -/
def emptyRequest : StreamState where
  httpMethod := ascii "POST"
  method := ascii "/s/m"
  contentType := ascii "application/grpc"
  payload := [0, 0, 0, 0, 0]

theorem admission_emptyRequest : emptyRequest.admission {} [ascii "/s/m"] =
    .ok ⟨ascii "/s/m", [], []⟩ := by
  rfl

/-- A plain message. -/
theorem grpcMessage_carried_plain : ∃ trailers,
    ((emptyRequest.process {} [ascii "/s/m"]
        (.fails ⟨.notFound, ascii "no such user"⟩)).1.onDataRead 16384).trailers =
      some trailers ∧
    (Carries trailers (ascii "no such user") ↔ Unencoded (ascii "no such user")) :=
  grpcMessage_carried_iff admission_emptyRequest ⟨.notFound, ascii "no such user"⟩ 16384

/-- A message with two lines comes through as one. -/
theorem not_grpcMessage_carried : ¬∀ (state : StreamState) (config : PluginConfig)
    (methods : List Bytes) (request : UnaryRequest) (status : GrpcStatus) (length : ℕ)
    (trailers : List Metadata), state.admission config methods = .ok request →
    ((state.process config methods (.fails status)).1.onDataRead length).trailers =
      some trailers → Carries trailers status.message := by
  intro h
  have hcarried := h _ _ _ _ ⟨.notFound, [97, lf, 98]⟩ 16384 _ admission_emptyRequest
    (trailers_of_fails admission_emptyRequest _ _)
  have hsame : [(97 : UInt8), 32, 98] = [97, lf, 98] := hcarried.2
  exact absurd hsame (by decide)

end Grpc

end Aevox
