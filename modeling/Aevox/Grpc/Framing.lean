import Aevox.Grpc.Replies

/-!
# Framing of gRPC requests

The body of a request comes in chunks. A chunk that would make the buffer larger than the largest
message with its envelope is left out and the request is refused; later chunks may still fit, but
they cannot undo this. So it should not matter how the body is cut: the request is refused if its
body is too large, and otherwise decoded as a whole (`wholeAdmission`).

The limit is computed with 64 bits. If the configuration sets a largest message of 2⁶⁴ - 5 bytes or
more, the sum starts again at zero, and everything beyond a few bytes is refused. For such a
configuration it matters, and for no other (`framing_iff`).
-/

namespace Aevox

namespace Grpc

/-- A request with these header fields, and no body yet. -/
def requestOf (fields : List Metadata) : StreamState :=
  fields.foldl (fun state field ↦ state.onHeader field.name field.value) {}

/-- What should become of a request with these header fields and this body. -/
def wholeAdmission (config : PluginConfig) (methods : List Bytes) (fields : List Metadata)
    (body : Bytes) : Except GrpcStatus UnaryRequest :=
  if config.maxMessageSize.toNat + envelopeSize < body.length then
    .error StreamState.messageTooLarge
  else StreamState.admission { requestOf fields with payload := body } config methods

/-- The status of an answer, from whether the request got to a handler and how that ended. -/
def resultOf (config : PluginConfig) (admitted : Except GrpcStatus UnaryRequest) (answer : Answer) :
    GrpcStatus :=
  match admitted.bind fun _ ↦ answer.respond config with
  | .error status => status
  | .ok _ => .ok

/-- The request gets to a handler, or is answered, by its header fields and its body as a whole, and
what is buffered is bounded. -/
structure Framed (config : PluginConfig) (methods : List Bytes) (state : StreamState) (w : Wire) :
    Prop where
  admitted : state.admission config methods = wholeAdmission config methods w.fields w.received
  answered : ∀ status ∈ w.submissions, ∃ answer,
    status = resultOf config (wholeAdmission config methods w.fields w.received) answer
  bounded : state.payload.length ≤ config.maxMessageSize.toNat + envelopeSize

/-- The largest buffer, computed as the code does it. -/
def bufferLimit (maxMessageSize : UInt64) : ℕ := (maxMessageSize + UInt64.ofNat envelopeSize).toNat

theorem bufferLimit_eq (maxMessageSize : UInt64) :
    bufferLimit maxMessageSize = (maxMessageSize.toNat + envelopeSize) % 2 ^ 64 := by
  rw [bufferLimit, UInt64.toNat_add]
  rfl

theorem bufferLimit_le (maxMessageSize : UInt64) :
    bufferLimit maxMessageSize ≤ maxMessageSize.toNat + envelopeSize := by
  rw [bufferLimit_eq]
  exact Nat.mod_le _ _

/-! ## What has been collected -/

/-- The parts of a request that come from its header fields: HTTP method, method, content type and
metadata. -/
def StreamState.headers (state : StreamState) : Bytes × Bytes × Bytes × List Metadata :=
  (state.httpMethod, state.method, state.contentType, state.metadata)

/-- What a stream has collected, by what it has received. -/
structure Collected (maxMessageSize : UInt64) (state : StreamState) (w : Wire) : Prop where
  headers : state.headers = (requestOf w.fields).headers
  earlyStatus : state.earlyStatus = if bufferLimit maxMessageSize < w.received.length then
    some StreamState.messageTooLarge else none
  payload : w.received.length ≤ bufferLimit maxMessageSize → state.payload = w.received
  bounded : state.payload.length ≤ bufferLimit maxMessageSize

variable {config : PluginConfig} {methods : List Bytes} {state state' : StreamState} {w : Wire}
  {maxMessageSize : UInt64}

theorem headers_onHeader (h : state.headers = state'.headers) (name value : Bytes) :
    (state.onHeader name value).headers = (state'.onHeader name value).headers := by
  simp only [StreamState.headers, Prod.mk.injEq] at h ⊢
  obtain ⟨h₁, h₂, h₃, h₄⟩ := h
  unfold StreamState.onHeader
  grind

theorem admission_congr (hheaders : state.headers = state'.headers)
    (hstatus : state.earlyStatus = state'.earlyStatus) (hpayload : state.payload = state'.payload) :
    state.admission config methods = state'.admission config methods := by
  simp only [StreamState.headers, Prod.mk.injEq] at hheaders
  obtain ⟨h₁, h₂, h₃, h₄⟩ := hheaders
  rw [StreamState.admission, StreamState.admission, hstatus, hpayload, h₁, h₂, h₃, h₄]

@[simp] theorem earlyStatus_onHeader (state : StreamState) (name value : Bytes) :
    (state.onHeader name value).earlyStatus = state.earlyStatus := by
  unfold StreamState.onHeader
  grind

@[simp] theorem payload_onHeader (state : StreamState) (name value : Bytes) :
    (state.onHeader name value).payload = state.payload := by
  unfold StreamState.onHeader
  grind

theorem earlyStatus_requestOf (fields : List Metadata) : (requestOf fields).earlyStatus = none := by
  induction fields using List.reverseRecOn with
  | nil => rfl
  | append_singleton fields field ih =>
    rw [requestOf, List.foldl_append]
    exact (earlyStatus_onHeader _ _ _).trans ih

theorem Collected.onHeader (h : Collected maxMessageSize state w) (name value : Bytes) :
    Collected maxMessageSize (state.onHeader name value)
      { w with fields := w.fields ++ [⟨name, value⟩] } := by
  have hheaders : (state.onHeader name value).headers =
      (requestOf (w.fields ++ [⟨name, value⟩])).headers := by
    rw [requestOf, List.foldl_append]
    exact headers_onHeader h.headers name value
  exact ⟨hheaders, (earlyStatus_onHeader _ _ _).trans h.earlyStatus,
    fun hle ↦ (payload_onHeader _ _ _).trans (h.payload hle),
    (payload_onHeader state name value).symm ▸ h.bounded⟩

theorem Collected.onDataChunkRecv (h : Collected maxMessageSize state w) {chunk : Bytes}
    (hfits : state.payload.length + chunk.length < 2 ^ 64) :
    Collected maxMessageSize (state.onDataChunkRecv maxMessageSize chunk)
      { w with received := w.received ++ chunk } := by
  have hcheck : maxMessageSize + UInt64.ofNat envelopeSize <
      UInt64.ofNat state.payload.length + UInt64.ofNat chunk.length ↔
        bufferLimit maxMessageSize < state.payload.length + chunk.length := by
    rw [← UInt64.ofNat_add, UInt64.lt_iff_toNat_lt, UInt64.toNat_ofNat_of_lt' hfits]
    rfl
  have hlength : (w.received ++ chunk).length = w.received.length + chunk.length :=
    List.length_append
  unfold StreamState.onDataChunkRecv
  by_cases hover : bufferLimit maxMessageSize < state.payload.length + chunk.length
  · -- the chunk is left out
    have hreceived : bufferLimit maxMessageSize < (w.received ++ chunk).length := by
      rw [hlength]
      by_cases hle : w.received.length ≤ bufferLimit maxMessageSize
      · rwa [← h.payload hle]
      · exact (Nat.not_le.mp hle).trans_le (Nat.le_add_right _ _)
    rw [if_pos (hcheck.mpr hover)]
    exact ⟨h.headers, (if_pos hreceived).symm, fun hle ↦ absurd hreceived (Nat.not_lt.mpr hle),
      h.bounded⟩
  · rw [if_neg (mt hcheck.mp hover)]
    have hbounded : (state.payload ++ chunk).length ≤ bufferLimit maxMessageSize := by
      rw [List.length_append]
      exact Nat.not_lt.mp hover
    by_cases hle : w.received.length ≤ bufferLimit maxMessageSize
    · have hpayload : state.payload ++ chunk = w.received ++ chunk := by rw [h.payload hle]
      refine ⟨h.headers, ?_, fun _ ↦ hpayload, hbounded⟩
      rw [h.earlyStatus, if_neg (Nat.not_lt.mpr hle), ← hpayload, if_neg (Nat.not_lt.mpr hbounded)]
    · -- a chunk has been left out before
      have hlt := Nat.not_le.mp hle
      have hreceived : bufferLimit maxMessageSize < (w.received ++ chunk).length := by
        rw [hlength]
        exact hlt.trans_le (Nat.le_add_right _ _)
      refine ⟨h.headers, ?_, fun hle' ↦ absurd hreceived (Nat.not_lt.mpr hle'), hbounded⟩
      rw [h.earlyStatus, if_pos hlt, if_pos hreceived]

/-! ## Every run -/

theorem Collected.congr {w' : Wire} (h : Collected maxMessageSize state w)
    (hheaders : state'.headers = state.headers) (hstatus : state'.earlyStatus = state.earlyStatus)
    (hpayload : state'.payload = state.payload) (hfields : w'.fields = w.fields)
    (hreceived : w'.received = w.received) : Collected maxMessageSize state' w' := by
  constructor
  · rw [hheaders, hfields]
    exact h.headers
  · rw [hstatus, hreceived]
    exact h.earlyStatus
  · rw [hpayload, hreceived]
    exact h.payload
  · rw [hpayload]
    exact h.bounded

namespace Session

variable {s s' : Session}

/-- What a stream has collected, and how it was answered. -/
structure Recorded (config : PluginConfig) (methods : List Bytes) (state : StreamState) (w : Wire) :
    Prop where
  collected : Collected config.maxMessageSize state w
  answered : ∀ status ∈ w.submissions, ∃ answer,
    status = resultOf config (state.admission config methods) answer

/-- Every stream has collected what it has received. -/
structure Collecting (config : PluginConfig) (methods : List Bytes) (s : Session) : Prop where
  inv : s.Inv
  sameConfig : s.config = config
  sameMethods : s.methods = methods
  recorded : ∀ streamId state, s.streams streamId = some state →
    Recorded config methods state (s.wire streamId)

theorem collecting_start (config : PluginConfig) (methods : List Bytes) :
    Collecting config methods (start config methods) :=
  ⟨inv_start config methods, rfl, rfl, fun _ _ h ↦ by cases h⟩

/-- As long as nothing is submitted. -/
theorem recorded_of_quiet (h : Collected config.maxMessageSize state w) (hquiet : w.Quiet) :
    Recorded config methods state w := by
  refine ⟨h, ?_⟩
  rw [hquiet.submissions]
  exact fun status hmem ↦ absurd hmem List.not_mem_nil

/-- Processing a stream answers it by what it has collected. -/
theorem process_eq (answer : Answer) : (state.process config methods answer).2 =
    resultOf config (state.admission config methods) answer := by
  unfold StreamState.process resultOf
  cases (state.admission config methods).bind fun _ ↦ answer.respond config with
  | error status => rfl
  | ok encoded => rfl

theorem collected_process (h : Collected maxMessageSize state w) (answer : Answer)
    {submissions : List GrpcStatus} :
    Collected maxMessageSize (state.process config methods answer).1 { w with submissions } := by
  unfold StreamState.process
  split <;> exact h.congr rfl rfl rfl rfl rfl

theorem admission_process (answer : Answer) :
    (state.process config methods answer).1.admission config methods =
      state.admission config methods := by
  apply admission_congr <;> unfold StreamState.process <;> split <;> rfl

theorem collecting_of_moves {e : Event} (hs : Collecting config methods s) (h : Moves s e s') :
    Collecting config methods s' := by
  have hinv : s'.Inv := inv_of_moves hs.inv h
  cases h with
  | ignores => exact hs
  | begins hid hopened =>
    refine ⟨hinv, hs.sameConfig, hs.sameMethods, forall_setStream hs.recorded ?_⟩
    rw [hs.inv.wire_eq hopened]
    refine recorded_of_quiet ⟨rfl, (if_neg (Nat.not_lt_zero _)).symm, fun _ ↦ rfl, Nat.zero_le _⟩ ?_
    exact ⟨rfl, rfl, rfl⟩
  | header hstate hopen =>
    refine ⟨hinv, hs.sameConfig, hs.sameMethods, forall_setStream hs.recorded ?_⟩
    obtain ⟨-, -, -, -, hquiet⟩ := hs.inv.receiving hstate hopen
    exact recorded_of_quiet ((hs.recorded _ _ hstate).collected.onHeader _ _)
      ⟨hquiet.submissions, hquiet.sent, hquiet.trailers⟩
  | dataChunk hstate hopen hfits =>
    refine ⟨hinv, hs.sameConfig, hs.sameMethods, forall_setStream hs.recorded ?_⟩
    obtain ⟨-, -, -, -, hquiet⟩ := hs.inv.receiving hstate hopen
    rw [hs.sameConfig]
    exact recorded_of_quiet ((hs.recorded _ _ hstate).collected.onDataChunkRecv hfits)
      ⟨hquiet.submissions, hquiet.sent, hquiet.trailers⟩
  | ends hstate =>
    have hrecorded := hs.recorded _ _ hstate
    exact ⟨hinv, hs.sameConfig, hs.sameMethods, forall_setStream hs.recorded
      ⟨hrecorded.collected.congr rfl rfl rfl rfl rfl, hrecorded.answered⟩⟩
  | skips => exact ⟨hinv, hs.sameConfig, hs.sameMethods, hs.recorded⟩
  | @answers answer streamId readyStreams state hready hstate =>
    have hrecorded := hs.recorded _ _ hstate
    refine ⟨hinv, hs.sameConfig, hs.sameMethods, forall_setStream hs.recorded
      ⟨collected_process hrecorded.collected answer, fun status hmem ↦ ?_⟩⟩
    rw [hs.sameConfig, hs.sameMethods] at hmem ⊢
    rw [admission_process]
    rcases List.mem_append.mp hmem with hmem | hmem
    · exact hrecorded.answered status hmem
    · exact ⟨answer, (List.mem_singleton.mp hmem).trans (process_eq answer)⟩
  | @reads streamId length state hstate =>
    have hrecorded := hs.recorded _ _ hstate
    refine ⟨hinv, hs.sameConfig, hs.sameMethods, forall_setStream hs.recorded ?_⟩
    obtain ⟨offset, submitted, hread⟩ := state_onDataRead state length
    rw [hread]
    exact ⟨hrecorded.collected.congr rfl rfl rfl rfl rfl, hrecorded.answered⟩

/-! ## The property -/

/-- With a limit beyond every length in an envelope, nothing that has been buffered is refused as
too large. -/
theorem admission_ne_messageTooLarge (hstatus : state.earlyStatus = none)
    (hmax : 2 ^ 32 ≤ config.maxMessageSize.toNat) :
    state.admission config methods ≠ .error StreamState.messageTooLarge := by
  have hcode {code : StatusCode} {message : String} (hne : code ≠ .resourceExhausted) :
      (.error (.error code message) : Except GrpcStatus UnaryRequest) ≠
        .error StreamState.messageTooLarge := fun h ↦
    hne (congrArg GrpcStatus.code (Except.error.inj h))
  rw [StreamState.admission, hstatus]
  dsimp only
  split
  · exact hcode (by decide)
  split
  · exact hcode (by decide)
  split
  · exact hcode (by decide)
  split
  next e he =>
    cases e with
    | messageTooLarge => exact absurd he (decode_ne_messageTooLarge hmax state.payload)
    | _ => exact hcode (by decide)
  · simp

theorem admission_of_collected (h : Collected config.maxMessageSize state w) :
    state.admission config methods =
      if bufferLimit config.maxMessageSize < w.received.length then
        .error StreamState.messageTooLarge
      else
        StreamState.admission { requestOf w.fields with payload := w.received } config methods := by
  split
  next hlt => rw [StreamState.admission, h.earlyStatus, if_pos hlt]
  next hle =>
    refine admission_congr h.headers ?_ (h.payload (Nat.not_lt.mp hle))
    rw [h.earlyStatus, if_neg hle]
    exact (earlyStatus_requestOf w.fields).symm

/-- **The limit as computed, and the limit.** A request is treated as a whole unless its body is
larger than the limit as computed, and not larger than the limit. -/
theorem framed_iff (hrecorded : Recorded config methods state w) : Framed config methods state w ↔
    (bufferLimit config.maxMessageSize < w.received.length →
      config.maxMessageSize.toNat + envelopeSize < w.received.length) := by
  have h := hrecorded.collected
  constructor
  · intro hframed hlt
    by_contra hle
    have hadmission := hframed.admitted
    rw [admission_of_collected h, wholeAdmission, if_pos hlt, if_neg hle] at hadmission
    -- the sum has overflowed, so that the largest message is larger than any length
    have hmax : 2 ^ 32 ≤ config.maxMessageSize.toNat := by
      by_contra hsmall
      have hsum : config.maxMessageSize.toNat + envelopeSize < 2 ^ 64 := by
        rw [envelopeSize]
        omega
      rw [bufferLimit_eq, Nat.mod_eq_of_lt hsum] at hlt
      exact hle hlt
    refine admission_ne_messageTooLarge ?_ hmax hadmission.symm
    exact earlyStatus_requestOf w.fields
  · intro himp
    have hadmission : state.admission config methods =
        wholeAdmission config methods w.fields w.received := by
      rw [admission_of_collected h, wholeAdmission]
      by_cases hlt : bufferLimit config.maxMessageSize < w.received.length
      · rw [if_pos hlt, if_pos (himp hlt)]
      · rw [if_neg hlt, if_neg fun hlarge ↦ hlt ((bufferLimit_le _).trans_lt hlarge)]
    refine ⟨hadmission, ?_, h.bounded.trans (bufferLimit_le config.maxMessageSize)⟩
    rw [← hadmission]
    exact hrecorded.answered

/-- **How the body is cut matters only where the limit overflows.** In every run, a request is
treated by its header fields and its whole body, and what is buffered is bounded, if and only if the
largest message and its envelope have a length below 2⁶⁴, or the body fits into what is left of
their sum, or it is too large for the sum itself. -/
theorem framing_iff {es : List Event} (hrun : (start config methods).run es = some s)
    {streamId : ℕ} (hstate : s.streams streamId = some state) :
    Framed config methods state (s.wire streamId) ↔
      config.maxMessageSize.toNat + envelopeSize < 2 ^ 64 ∨
        (s.wire streamId).received.length ≤
          (config.maxMessageSize.toNat + envelopeSize) % 2 ^ 64 ∨
        config.maxMessageSize.toNat + envelopeSize < (s.wire streamId).received.length := by
  have hs : Collecting config methods s := Machine.run_invariant
    (fun _ _ _ hs hstep ↦ collecting_of_moves hs (moves_of_step hstep))
    (collecting_start config methods) hrun
  rw [framed_iff (hs.recorded streamId state hstate), bufferLimit_eq]
  constructor
  · intro himp
    by_cases hle : (s.wire streamId).received.length ≤
        (config.maxMessageSize.toNat + envelopeSize) % 2 ^ 64
    · exact Or.inr (Or.inl hle)
    · exact Or.inr (Or.inr (himp (Nat.not_le.mp hle)))
  · rintro (hsum | hle | hlarge) hlt
    · rwa [Nat.mod_eq_of_lt hsum] at hlt
    · exact absurd hlt (Nat.not_lt.mpr hle)
    · exact hlarge

/-- A message cut within its envelope. -/
theorem framing_iff_cut : ∃ s state, (start {} [ascii "/a/b"]).run
      [.beginHeaders 1 true, .header 1 true (ascii ":method") (ascii "POST"),
        .header 1 true (ascii ":path") (ascii "/a/b"),
        .header 1 true (ascii "content-type") (ascii "application/grpc"),
        .dataChunk 1 [0, 0], .dataChunk 1 [0, 0, 1, 7], .frameRecv 1 true,
        .next (.returns ⟨[8], []⟩)] = some s ∧ s.streams 1 = some state ∧
    state.admission {} [ascii "/a/b"] = .ok ⟨ascii "/a/b", [7], []⟩ ∧
    Framed {} [ascii "/a/b"] state (s.wire 1) := by
  obtain ⟨s, state, hrun, hstate, hadmission⟩ : ∃ s state, (start {} [ascii "/a/b"]).run
      [.beginHeaders 1 true, .header 1 true (ascii ":method") (ascii "POST"),
        .header 1 true (ascii ":path") (ascii "/a/b"),
        .header 1 true (ascii "content-type") (ascii "application/grpc"),
        .dataChunk 1 [0, 0], .dataChunk 1 [0, 0, 1, 7], .frameRecv 1 true,
        .next (.returns ⟨[8], []⟩)] = some s ∧ s.streams 1 = some state ∧
      state.admission {} [ascii "/a/b"] = .ok ⟨ascii "/a/b", [7], []⟩ := ⟨_, _, rfl, rfl, rfl⟩
  exact ⟨s, state, hrun, hstate, hadmission, (framing_iff hrun hstate).mpr (Or.inl (by decide))⟩

/-- The largest message the configuration can set. An empty message is refused as too large. -/
theorem framing_overflows : ∃ config s state, validateConfig config = .ok () ∧
    (start config [ascii "/a/b"]).run
      [.beginHeaders 1 true, .header 1 true (ascii ":method") (ascii "POST"),
        .header 1 true (ascii ":path") (ascii "/a/b"),
        .header 1 true (ascii "content-type") (ascii "application/grpc"),
        .dataChunk 1 [0, 0, 0, 0, 0], .frameRecv 1 true, .next (.returns ⟨[], []⟩)] = some s ∧
    s.streams 1 = some state ∧ (s.wire 1).submissions = [StreamState.messageTooLarge] ∧
    wholeAdmission config [ascii "/a/b"] (s.wire 1).fields (s.wire 1).received =
      .ok ⟨ascii "/a/b", [], []⟩ ∧
    ¬Framed config [ascii "/a/b"] state (s.wire 1) := by
  obtain ⟨s, state, hrun, hstate, hsubmissions, hwhole, hadmission⟩ : ∃ s state,
      (start { maxMessageSize := .ofNat (2 ^ 64 - 1) } [ascii "/a/b"]).run
        [.beginHeaders 1 true, .header 1 true (ascii ":method") (ascii "POST"),
          .header 1 true (ascii ":path") (ascii "/a/b"),
          .header 1 true (ascii "content-type") (ascii "application/grpc"),
          .dataChunk 1 [0, 0, 0, 0, 0], .frameRecv 1 true, .next (.returns ⟨[], []⟩)] = some s ∧
      s.streams 1 = some state ∧ (s.wire 1).submissions = [StreamState.messageTooLarge] ∧
      wholeAdmission { maxMessageSize := .ofNat (2 ^ 64 - 1) } [ascii "/a/b"] (s.wire 1).fields
        (s.wire 1).received = .ok ⟨ascii "/a/b", [], []⟩ ∧
      state.admission { maxMessageSize := .ofNat (2 ^ 64 - 1) } [ascii "/a/b"] =
        .error StreamState.messageTooLarge := ⟨_, _, rfl, rfl, rfl, rfl, rfl⟩
  refine ⟨_, s, state, rfl, hrun, hstate, hsubmissions, hwhole, fun h ↦ ?_⟩
  have hwrong := hadmission.symm.trans (h.admitted.trans hwhole)
  cases hwrong

end Session

end Grpc

end Aevox
