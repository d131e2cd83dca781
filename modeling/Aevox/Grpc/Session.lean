import Aevox.Grpc.Envelope
import Aevox.Library.Machine
import Mathlib.Logic.Function.Basic

/-!
# A gRPC session

The HTTP/2 library parses what the peer sends and reports it by callbacks: a request begins, it has
a header field, a chunk of its body has come, a frame is complete. The session collects the requests
by their stream. A stream whose peer has finished is put on a list, and the streams on it are
answered one after another, by a handler or by a status that says why there is none. The library
reads the body of an answer piece by piece; with the last one it is given the trailers, which carry
the status.

The library does not report everything in every order: a stream begins once and not with the number
zero, fields and chunks belong to a stream whose peer has not finished, and the flag that ends a
stream is also that of an acknowledgement on stream zero.
-/

namespace Aevox

namespace Grpc

structure Metadata where
  name : Bytes
  value : Bytes
  deriving DecidableEq

structure UnaryRequest where
  method : Bytes
  payload : Bytes
  metadata : List Metadata
  deriving DecidableEq

structure UnaryResponse where
  payload : Bytes
  trailingMetadata : List Metadata

/-- How a handler ends. -/
inductive Answer where
  | returns (response : UnaryResponse)
  | fails (status : GrpcStatus)
  | throws

/-- `to_lower_ascii` -/
def toLowerAscii (text : Bytes) : Bytes := text.map toLower

/-- `starts_with_grpc_content_type` -/
def startsWithGrpcContentType (value : Bytes) : Bool := (ascii "application/grpc").isPrefixOf value

/-- `is_reserved_metadata` -/
def isReservedMetadata (name : Bytes) : Bool :=
  name = ascii "content-type" || name = ascii "te" || name = ascii "grpc-timeout" ||
    name = ascii "grpc-encoding" || name = ascii "grpc-accept-encoding"

/-- `is_reserved_trailer` -/
def isReservedTrailer (name : Bytes) : Bool :=
  name = ascii "grpc-status" || name = ascii "grpc-message"

/-- `status_code_text` -/
def statusCodeText (code : StatusCode) : Bytes := decimal code.toNat

/-- `sanitize_grpc_message` -/
def sanitizeGrpcMessage (message : Bytes) : Bytes :=
  message.map fun ch ↦ if ch = cr ∨ ch = lf then 32 else ch

/-- A request, and then its answer. -/
structure StreamState where
  httpMethod : Bytes := []
  method : Bytes := []
  contentType : Bytes := []
  payload : Bytes := []
  metadata : List Metadata := []
  earlyStatus : Option GrpcStatus := none
  responseBytes : Bytes := []
  responseOffset : ℕ := 0
  responseTrailers : List Metadata := []
  endStream : Bool := false
  submitted : Bool := false
  trailersSubmitted : Bool := false

/-- What the library is given when it reads the body. -/
structure DataRead where
  state : StreamState
  bytes : Bytes
  eof : Bool
  trailers : Option (List Metadata)

/-- A stream as the library sees it: whether it has begun and ended, the header fields and the bytes
of the body it has received, the status of each answer that has been submitted, and the body and the
trailers that have been sent. -/
structure Wire where
  opened : Bool := false
  ended : Bool := false
  fields : List Metadata := []
  received : Bytes := []
  submissions : List GrpcStatus := []
  sent : Bytes := []
  trailers : List (List Metadata) := []

/-- A session. The methods are those that have a handler. -/
structure Session where
  config : PluginConfig
  methods : List Bytes
  streams : ℕ → Option StreamState
  readyStreams : List ℕ
  wire : ℕ → Wire

/-- What can happen next. For a header block and a field of it, the flag says whether it is that of
a request. -/
inductive Event where
  | beginHeaders (streamId : ℕ) (request : Bool)
  | header (streamId : ℕ) (request : Bool) (name value : Bytes)
  | dataChunk (streamId : ℕ) (chunk : Bytes)
  | frameRecv (streamId : ℕ) (endStream : Bool)
  /-- The next stream on the list is processed; if it gets to a handler, this is its answer. -/
  | next (answer : Answer)
  | dataRead (streamId : ℕ) (length : ℕ)

/-- A new session. -/
def start (config : PluginConfig) (methods : List Bytes) : Session where
  config := config
  methods := methods
  streams _ := none
  readyStreams := []
  wire _ := {}

namespace StreamState

/-- `on_header`, for a field of a request. -/
def onHeader (state : StreamState) (name value : Bytes) : StreamState :=
  let headerName := toLowerAscii name
  if headerName = ascii ":method" then { state with httpMethod := value }
  else if headerName = ascii ":path" then { state with method := value }
  else if headerName = ascii "content-type" then { state with contentType := value }
  else if !(ascii ":").isPrefixOf headerName && !isReservedMetadata headerName then
    { state with metadata := state.metadata ++ [⟨headerName, value⟩] }
  else state

/-- The status of a message that is too large. -/
def messageTooLarge : GrpcStatus := .error .resourceExhausted "message too large"

/-- `on_data_chunk_recv`. The limit and the size are numbers of 64 bits. -/
def onDataChunkRecv (state : StreamState) (maxMessageSize : UInt64) (chunk : Bytes) : StreamState :=
  if maxMessageSize + UInt64.ofNat envelopeSize <
      UInt64.ofNat state.payload.length + UInt64.ofNat chunk.length then
    { state with earlyStatus := some messageTooLarge }
  else { state with payload := state.payload ++ chunk }

/-- `status_for_decode_error` -/
def statusForDecodeError : GrpcError → GrpcStatus
  | .messageTooLarge => messageTooLarge
  | .compressionUnsupported => .error .unimplemented "compression unsupported"
  | _ => .error .internal "protocol error"

/-- Whether a request gets to a handler, or which status it is answered with. -/
def admission (state : StreamState) (config : PluginConfig) (methods : List Bytes) :
    Except GrpcStatus UnaryRequest :=
  match state.earlyStatus with
  | some status => .error status
  | none =>
    if state.httpMethod ≠ ascii "POST" then .error (.error .internal "invalid method")
    else if !startsWithGrpcContentType state.contentType then
      .error (.error .internal "invalid content-type")
    else if state.method ∉ methods then .error (.error .unimplemented "method not found")
    else
      match decodeUnaryMessage state.payload config.maxMessageSize with
      | .error e => .error (statusForDecodeError e)
      | .ok payload => .ok ⟨state.method, payload, state.metadata⟩

end StreamState

/-- What becomes of the end of a handler: an encoded message and its trailing metadata, or a
status. -/
def Answer.respond (config : PluginConfig) : Answer → Except GrpcStatus (Bytes × List Metadata)
  | .throws => .error (.error .unknown "handler failed")
  | .fails status => .error status
  | .returns response =>
    if response.trailingMetadata.any fun md ↦ isReservedTrailer (toLowerAscii md.name) then
      .error (.error .internal "reserved trailer metadata")
    else
      match encodeUnaryMessage response.payload config.maxMessageSize with
      | .error e => .error (StreamState.statusForDecodeError e)
      | .ok encoded => .ok (encoded, response.trailingMetadata)

/-- The trailers of an answer. -/
def trailersOf (status : GrpcStatus) (trailingMetadata : List Metadata) : List Metadata :=
  let statusMsg := sanitizeGrpcMessage status.message
  trailingMetadata.map (fun metadata ↦ ⟨toLowerAscii metadata.name, metadata.value⟩) ++
    ⟨ascii "grpc-status", statusCodeText status.code⟩ ::
      if statusMsg = [] then [] else [⟨ascii "grpc-message", statusMsg⟩]

namespace StreamState

/-- `submit_response`, as far as the stream is concerned. -/
def submitResponse (state : StreamState) (status : GrpcStatus) (trailingMetadata : List Metadata) :
    StreamState :=
  { state with
    responseTrailers := trailersOf status trailingMetadata
    trailersSubmitted := false }

/-- `submit_status`, as far as the stream is concerned. -/
def submitStatus (state : StreamState) (status : GrpcStatus) : StreamState :=
  submitResponse { state with responseBytes := [], responseOffset := 0 } status []

/-- The stream when it has been processed, with the status of its answer. -/
def process (state : StreamState) (config : PluginConfig) (methods : List Bytes)
    (answer : Answer) : StreamState × GrpcStatus :=
  match (state.admission config methods).bind fun _ ↦ answer.respond config with
  | .error status => (submitStatus { state with submitted := true } status, status)
  | .ok (encoded, trailingMetadata) =>
    (submitResponse { state with submitted := true, responseBytes := encoded } .ok trailingMetadata,
      .ok)

/-- `on_data_read`: the bytes it copies, whether they are the last ones, and the trailers if it
submits them. -/
def onDataRead (state : StreamState) (length : ℕ) : DataRead :=
  let copied := (state.responseBytes.drop state.responseOffset).take length
  let state := { state with responseOffset := state.responseOffset + copied.length }
  if state.responseBytes.length ≤ state.responseOffset then
    if !state.trailersSubmitted then
      ⟨{ state with trailersSubmitted := true }, copied, true, some state.responseTrailers⟩
    else ⟨state, copied, true, none⟩
  else ⟨state, copied, false, none⟩

end StreamState

namespace Session

/-- One stream changes. -/
def setStream (s : Session) (streamId : ℕ) (state : StreamState) (wire : Wire) : Session :=
  { s with
    streams := Function.update s.streams streamId (some state)
    wire := Function.update s.wire streamId wire }

/-- The peer can still send on the stream. -/
def isOpen (s : Session) (streamId : ℕ) : Bool :=
  (s.wire streamId).opened && !(s.wire streamId).ended

/-- What happens, if it can. -/
def step (s : Session) : Event → Option Session
  | .beginHeaders streamId request =>
    if request then
      if streamId ≠ 0 ∧ (s.wire streamId).opened = false then
        some (s.setStream streamId {} { s.wire streamId with opened := true })
      else none
    else some s
  | .header streamId request name value =>
    if request then
      if s.isOpen streamId then
        match s.streams streamId with
        | none => some s
        | some state =>
          some (s.setStream streamId (state.onHeader name value)
            { s.wire streamId with fields := (s.wire streamId).fields ++ [⟨name, value⟩] })
      else none
    else some s
  | .dataChunk streamId chunk =>
    if s.isOpen streamId then
      match s.streams streamId with
      | none => some s
      | some state =>
        -- the buffer and the chunk are both in memory
        if state.payload.length + chunk.length < 2 ^ 64 then
          some (s.setStream streamId (state.onDataChunkRecv s.config.maxMessageSize chunk)
            { s.wire streamId with received := (s.wire streamId).received ++ chunk })
        else none
    else none
  | .frameRecv streamId endStream =>
    if endStream then
      if streamId = 0 ∨ s.isOpen streamId then
        match s.streams streamId with
        | none => some s
        | some state =>
          some { s.setStream streamId { state with endStream := true }
              { s.wire streamId with ended := true } with
            readyStreams := s.readyStreams ++ [streamId] }
      else none
    else some s
  | .next answer =>
    match s.readyStreams with
    | [] => none
    | streamId :: readyStreams =>
      match s.streams streamId with
      | none => some { s with readyStreams }
      | some state =>
        if state.submitted ∨ state.endStream = false then some { s with readyStreams }
        else
          let answered := state.process s.config s.methods answer
          some { s.setStream streamId answered.1 { s.wire streamId with
              submissions := (s.wire streamId).submissions ++ [answered.2] } with readyStreams }
  | .dataRead streamId length =>
    match s.streams streamId with
    | none => none
    | some state =>
      if state.submitted then
        let read := state.onDataRead length
        some (s.setStream streamId read.state { s.wire streamId with
          sent := (s.wire streamId).sent ++ read.bytes
          trailers := (s.wire streamId).trailers ++ read.trailers.toList })
      else none

/-- The state after a sequence of events. -/
def run (s : Session) (es : List Event) : Option Session := Machine.run step s es

/-! ## What a step does -/

variable {s s' : Session}

/-- When one stream changes, a rule that all streams keep to is only to be shown for this one. -/
theorem forall_setStream {P : StreamState → Wire → Prop} {streamId : ℕ} {state : StreamState}
    {w : Wire} {readyStreams : List ℕ}
    (hs : ∀ id state, s.streams id = some state → P state (s.wire id)) (h : P state w) :
    ∀ id state',
      ({ s.setStream streamId state w with readyStreams } : Session).streams id = some state' →
      P state' (({ s.setStream streamId state w with readyStreams } : Session).wire id) := by
  intro id state' hstate'
  dsimp only [setStream] at hstate' ⊢
  by_cases hid : id = streamId
  · rw [hid, Function.update_self] at hstate'
    rw [hid, Function.update_self, ← Option.some.inj hstate']
    exact h
  · rw [Function.update_of_ne hid] at hstate'
    rw [Function.update_of_ne hid]
    exact hs id state' hstate'

/-- **What a step does**, event by event. -/
inductive Moves (s : Session) : Event → Session → Prop
  | ignores {e} : Moves s e s
  | begins {streamId} (hid : streamId ≠ 0) (hopened : (s.wire streamId).opened = false) :
    Moves s (.beginHeaders streamId true)
      (s.setStream streamId {} { s.wire streamId with opened := true })
  | header {streamId name value state} (hstate : s.streams streamId = some state)
    (hopen : s.isOpen streamId = true) : Moves s (.header streamId true name value)
      (s.setStream streamId (state.onHeader name value)
        { s.wire streamId with fields := (s.wire streamId).fields ++ [⟨name, value⟩] })
  | dataChunk {streamId chunk state} (hstate : s.streams streamId = some state)
    (hopen : s.isOpen streamId = true)
    (hfits : state.payload.length + chunk.length < 2 ^ 64) : Moves s (.dataChunk streamId chunk)
      (s.setStream streamId (state.onDataChunkRecv s.config.maxMessageSize chunk)
        { s.wire streamId with received := (s.wire streamId).received ++ chunk })
  | ends {streamId state} (hstate : s.streams streamId = some state)
    (hopen : streamId = 0 ∨ s.isOpen streamId = true) : Moves s (.frameRecv streamId true)
      { s.setStream streamId { state with endStream := true }
          { s.wire streamId with ended := true } with
        readyStreams := s.readyStreams ++ [streamId] }
  | skips {answer streamId readyStreams} (hready : s.readyStreams = streamId :: readyStreams)
    (hskip : ∀ state, s.streams streamId = some state →
      state.submitted = true ∨ state.endStream = false) :
    Moves s (.next answer) { s with readyStreams }
  | answers {answer streamId readyStreams state}
    (hready : s.readyStreams = streamId :: readyStreams)
    (hstate : s.streams streamId = some state) (hsubmitted : state.submitted = false)
    (hend : state.endStream = true) : Moves s (.next answer)
      { s.setStream streamId (state.process s.config s.methods answer).1 { s.wire streamId with
          submissions := (s.wire streamId).submissions ++
            [(state.process s.config s.methods answer).2] } with readyStreams }
  | reads {streamId length state} (hstate : s.streams streamId = some state)
    (hsubmitted : state.submitted = true) : Moves s (.dataRead streamId length)
      (s.setStream streamId (state.onDataRead length).state { s.wire streamId with
        sent := (s.wire streamId).sent ++ (state.onDataRead length).bytes
        trailers := (s.wire streamId).trailers ++ (state.onDataRead length).trailers.toList })

theorem moves_of_step {e : Event} (h : s.step e = some s') : Moves s e s' := by
  cases e with
  | beginHeaders streamId request =>
    rw [step] at h
    split at h
    next hrequest =>
      subst hrequest
      split at h <;> cases h
      next hguard => exact .begins hguard.1 hguard.2
    · cases h
      exact .ignores
  | header streamId request name value =>
    rw [step] at h
    split at h
    next hrequest =>
      subst hrequest
      split at h
      next hopen =>
        split at h <;> cases h
        · exact .ignores
        · exact .header ‹_› hopen
      · cases h
    · cases h
      exact .ignores
  | dataChunk streamId chunk =>
    rw [step] at h
    split at h
    next hopen =>
      split at h
      · cases h
        exact .ignores
      · split at h <;> cases h
        exact .dataChunk ‹_› hopen ‹_›
    · cases h
  | frameRecv streamId endStream =>
    rw [step] at h
    split at h
    next hend =>
      subst hend
      split at h
      next hopen =>
        split at h <;> cases h
        · exact .ignores
        · exact .ends ‹_› hopen
      · cases h
    · cases h
      exact .ignores
  | next answer =>
    rw [step] at h
    split at h
    · cases h
    next hready =>
      split at h
      next hnone =>
        cases h
        exact .skips hready fun state hstate ↦ absurd (hnone.symm.trans hstate) (by simp)
      next hstate =>
        split at h <;> cases h
        next hskip =>
          refine .skips hready fun state' hstate' ↦ ?_
          rwa [← Option.some.inj (hstate.symm.trans hstate')]
        next hanswer =>
          obtain ⟨hsubmitted, hend⟩ := not_or.mp hanswer
          exact .answers hready hstate (Bool.eq_false_iff.mpr hsubmitted)
            (Bool.not_eq_false _ ▸ hend)
  | dataRead streamId length =>
    rw [step] at h
    split at h
    · cases h
    · split at h <;> cases h
      exact .reads ‹_› ‹_›

end Session

end Grpc

end Aevox
