import Aevox.Grpc.Replies
import Aevox.Grpc.StreamTable

/-!
# Streaming of an answer

The library reads the body of an answer by calling back, with a buffer of any length each time,
until it is told that the body has ended. `onDataReadCall` is this callback with its flags, and with
the subtraction that would wrap around behind the end of the body; as long as the offset has not
passed the end it is the read the session takes (`onDataReadCall_eq`).

The invariant is that the offset is within the body and that what has been copied is what stands in
front of it. So the calls deliver a leading part of the body, and the one that delivers the last
byte is told the end and given the trailers (`Streams`). A session begins to stream an answer at
offset zero, since it answers a stream only once (`Unread`).
-/

namespace Aevox

namespace Grpc

/-! ## The callback -/

/-- `NGHTTP2_DATA_FLAG_EOF` and `NGHTTP2_DATA_FLAG_NO_END_STREAM` -/
structure DataFlags where
  eof : Bool := false
  noEndStream : Bool := false
  deriving DecidableEq

/-- One call: the flags it sets, the bytes it copies, the trailers if it submits them, and what it
leaves of the source. -/
structure DataCall where
  flags : DataFlags
  bytes : Bytes
  trailers : Option (List Metadata)
  source : Option StreamState

/-- `on_data_read`, for a source that may be null; without a result if the offset has passed the end
of the body, where the subtraction wraps around. -/
def onDataReadCall (source : Option StreamState) (length : ℕ) : Option DataCall :=
  match source with
  | none => some ⟨{ eof := true }, [], none, none⟩
  | some state =>
    if state.responseBytes.length < state.responseOffset then none
    else
      let remaining := state.responseBytes.length - state.responseOffset
      let toCopy := min length remaining
      let copied := (state.responseBytes.drop state.responseOffset).take toCopy
      let state := { state with responseOffset := state.responseOffset + toCopy }
      if state.responseBytes.length ≤ state.responseOffset then
        let flags : DataFlags := { eof := true, noEndStream := true }
        if !state.trailersSubmitted then
          some ⟨flags, copied, some state.responseTrailers,
            some { state with trailersSubmitted := true }⟩
        else some ⟨flags, copied, none, some state⟩
      else some ⟨{}, copied, none, some state⟩

/-- The calls with buffers of these lengths, until one is told the end. -/
def readUntilEof (source : Option StreamState) : List ℕ → Option (List DataCall)
  | [] => some []
  | length :: lengths =>
    match onDataReadCall source length with
    | none => none
    | some call =>
      if call.flags.eof then some [call]
      else (readUntilEof call.source lengths).map (call :: ·)

/-- The callback and the read the session takes. -/
theorem onDataReadCall_eq {state : StreamState}
    (h : state.responseOffset ≤ state.responseBytes.length) (length : ℕ) :
    onDataReadCall (some state) length =
      some ⟨⟨(state.onDataRead length).eof, (state.onDataRead length).eof⟩,
        (state.onDataRead length).bytes, (state.onDataRead length).trailers,
        some (state.onDataRead length).state⟩ := by
  have htake : (state.responseBytes.drop state.responseOffset).take
      (min length (state.responseBytes.length - state.responseOffset)) =
        (state.responseBytes.drop state.responseOffset).take length := by
    rw [← List.length_drop, ← List.take_take, List.take_length]
  have hlen : ((state.responseBytes.drop state.responseOffset).take length).length =
      min length (state.responseBytes.length - state.responseOffset) := by
    rw [List.length_take, List.length_drop]
  rw [onDataReadCall, if_neg (Nat.not_lt.mpr h), StreamState.onDataRead]
  dsimp only
  rw [htake, hlen]
  split
  · split <;> rfl
  · rfl

/-! ## What a sequence of calls delivers -/

/-- No flag is set and no trailers are submitted. -/
def DataCall.Quiet (call : DataCall) : Prop := call.flags = {} ∧ call.trailers = none

/-- The offset is within the body. -/
def DataCall.Within (body : Bytes) (call : DataCall) : Prop :=
  ∀ state ∈ call.source, state.responseOffset ≤ body.length

/-- Calls with buffers of these lengths have streamed a body: the last byte comes with both flags
and the trailers, and before it there is neither a flag nor are there trailers. -/
structure Streams (body : Bytes) (trailers : List Metadata) (lengths : List ℕ)
    (calls : List DataCall) : Prop where
  delivered : calls.flatMap DataCall.bytes = body.take lengths.sum
  unfinished : lengths.sum < body.length ∨ lengths = [] →
    calls.length = lengths.length ∧ ∀ call ∈ calls, call.Quiet
  finished : body.length ≤ lengths.sum → lengths ≠ [] →
    ∃ before last, calls = before ++ [last] ∧ (∀ call ∈ before, call.Quiet) ∧
      last.flags = ⟨true, true⟩ ∧ last.trailers = some trailers ∧
      (last.bytes ≠ [] ∨ body = [] ∧ before = [])

theorem onDataReadCall_end {state : StreamState}
    (hoffset : state.responseOffset ≤ state.responseBytes.length)
    (hsubmitted : state.trailersSubmitted = false) {length : ℕ}
    (hend : (state.responseBytes.drop state.responseOffset).length ≤ length) :
    onDataReadCall (some state) length =
      some ⟨⟨true, true⟩, state.responseBytes.drop state.responseOffset,
        some state.responseTrailers, some { state with
          responseOffset := state.responseBytes.length
          trailersSubmitted := true }⟩ := by
  rw [List.length_drop] at hend
  have hall : state.responseOffset + (state.responseBytes.length - state.responseOffset) =
      state.responseBytes.length := Nat.add_sub_cancel' hoffset
  rw [onDataReadCall, if_neg (Nat.not_lt.mpr hoffset)]
  dsimp only
  rw [Nat.min_eq_right hend, hall, if_pos (le_refl _), hsubmitted, if_pos (by decide),
    List.take_of_length_le (by rw [List.length_drop])]

theorem onDataReadCall_more {state : StreamState}
    (hoffset : state.responseOffset ≤ state.responseBytes.length) {length : ℕ}
    (hmore : length < (state.responseBytes.drop state.responseOffset).length) :
    onDataReadCall (some state) length =
      some ⟨{}, (state.responseBytes.drop state.responseOffset).take length, none,
        some { state with responseOffset := state.responseOffset + length }⟩ := by
  rw [List.length_drop] at hmore
  rw [onDataReadCall, if_neg (Nat.not_lt.mpr hoffset)]
  dsimp only
  rw [Nat.min_eq_left hmore.le, if_neg (by omega)]

theorem Streams.nil (body : Bytes) (trailers : List Metadata) : Streams body trailers [] [] where
  delivered := rfl
  unfinished _ := ⟨rfl, fun _ h ↦ absurd h List.not_mem_nil⟩
  finished _ h := absurd rfl h

/-- One call streams all that is left, whatever buffers there would have been behind it. -/
theorem Streams.last {body : Bytes} {trailers : List Metadata} {length : ℕ} (lengths : List ℕ)
    (source : Option StreamState) (hend : body.length ≤ length) :
    Streams body trailers (length :: lengths) [⟨⟨true, true⟩, body, some trailers, source⟩] := by
  have hsum : body.length ≤ (length :: lengths).sum := hend.trans (by simp)
  constructor
  · rw [List.take_of_length_le hsum]
    exact List.append_nil _
  · rintro (hless | hnil)
    · exact absurd hsum (Nat.not_le.mpr hless)
    · cases hnil
  · intro _ _
    refine ⟨[], _, rfl, fun _ h ↦ absurd h List.not_mem_nil, rfl, rfl, ?_⟩
    by_cases hempty : body = []
    · exact Or.inr ⟨hempty, rfl⟩
    · exact Or.inl hempty

theorem Streams.cons {body : Bytes} {trailers : List Metadata} {length : ℕ} {lengths : List ℕ}
    {calls : List DataCall} (source : Option StreamState) (hmore : length < body.length)
    (hstreams : Streams (body.drop length) trailers lengths calls) :
    Streams body trailers (length :: lengths) (⟨{}, body.take length, none, source⟩ :: calls) := by
  have hleft : (body.drop length).length = body.length - length := List.length_drop
  have hquiet : DataCall.Quiet ⟨{}, body.take length, none, source⟩ := ⟨rfl, rfl⟩
  constructor
  · rw [List.flatMap_cons, hstreams.delivered, List.sum_cons, List.take_add]
  · rintro (hless | hnil)
    · rw [List.sum_cons] at hless
      obtain ⟨hlen, hall⟩ := hstreams.unfinished (Or.inl (by omega))
      exact ⟨congrArg (· + 1) hlen, List.forall_mem_cons.mpr ⟨hquiet, hall⟩⟩
    · cases hnil
  · intro hsum _
    rw [List.sum_cons] at hsum
    have hne : lengths ≠ [] := by
      rintro rfl
      rw [List.sum_nil] at hsum
      omega
    obtain ⟨before, last, hsplit, hall, hflags, htrailers, hlast⟩ :=
      hstreams.finished (by omega) hne
    refine ⟨_ :: before, last, congrArg (_ :: ·) hsplit,
      List.forall_mem_cons.mpr ⟨hquiet, hall⟩, hflags, htrailers, Or.inl ?_⟩
    -- what is left for the other calls is not empty
    refine hlast.resolve_right fun hempty ↦ ?_
    rw [hempty.1, List.length_nil] at hleft
    omega

/-- **A response is streamed** from wherever the offset is within the body. -/
theorem exists_readUntilEof (lengths : List ℕ) : ∀ state : StreamState,
    state.responseOffset ≤ state.responseBytes.length → state.trailersSubmitted = false →
    ∃ calls, readUntilEof (some state) lengths = some calls ∧
      (∀ call ∈ calls, call.Within state.responseBytes) ∧
      Streams (state.responseBytes.drop state.responseOffset) state.responseTrailers lengths
        calls := by
  induction lengths with
  | nil => exact fun _ _ _ ↦ ⟨[], rfl, fun _ h ↦ absurd h List.not_mem_nil, Streams.nil _ _⟩
  | cons length lengths ih =>
    intro state hoffset hsubmitted
    rw [readUntilEof]
    by_cases hend : (state.responseBytes.drop state.responseOffset).length ≤ length
    · rw [onDataReadCall_end hoffset hsubmitted hend]
      refine ⟨_, rfl, ?_, Streams.last lengths _ hend⟩
      rintro call hcall state' hstate'
      rw [List.mem_singleton.mp hcall] at hstate'
      rw [← Option.some.inj hstate']
    · have hmore := Nat.not_le.mp hend
      rw [onDataReadCall_more hoffset hmore]
      have hnext : state.responseOffset + length ≤ state.responseBytes.length := by
        rw [List.length_drop] at hmore
        omega
      obtain ⟨calls, hcalls, hwithin, hstreams⟩ :=
        ih { state with responseOffset := state.responseOffset + length } hnext hsubmitted
      have hrest : state.responseBytes.drop (state.responseOffset + length) =
          (state.responseBytes.drop state.responseOffset).drop length := List.drop_drop.symm
      dsimp only at hcalls hwithin hstreams ⊢
      rw [hrest] at hstreams
      rw [hcalls]
      refine ⟨_, rfl, List.forall_mem_cons.mpr ⟨?_, hwithin⟩, hstreams.cons _ hmore⟩
      intro state' hstate'
      rw [← Option.some.inj hstate']
      exact hnext

/-! ## The answers of a session -/

/-- Whatever the lengths of the buffers, the stream is read as this body, once, with these trailers
at its end, and the offset does not pass the end. -/
def StreamState.StreamsOnce (state : StreamState) (body : Bytes) (trailers : List Metadata) :
    Prop :=
  ∀ lengths, ∃ calls, readUntilEof (some state) lengths = some calls ∧
    (∀ call ∈ calls, call.Within body) ∧ Streams body trailers lengths calls

theorem streamsOnce_of_offset {state : StreamState} (hoffset : state.responseOffset = 0)
    (hsubmitted : state.trailersSubmitted = false) :
    state.StreamsOnce state.responseBytes state.responseTrailers := by
  intro lengths
  obtain ⟨calls, hcalls, hwithin, hstreams⟩ :=
    exists_readUntilEof lengths state (hoffset ▸ Nat.zero_le _) hsubmitted
  rw [hoffset, List.drop_zero] at hstreams
  exact ⟨calls, hcalls, hwithin, hstreams⟩

namespace Session

variable {s s' : Session}

/-- Nothing has been read of an answer that has not been submitted. -/
def Unread (s : Session) : Prop :=
  ∀ streamId state, s.streams streamId = some state → state.submitted = false →
    state.responseOffset = 0

theorem Unread.set (hs : s.Unread) {streamId : ℕ} {state : StreamState} {w : Wire}
    (hnew : state.submitted = false → state.responseOffset = 0) :
    (s.setStream streamId state w).Unread :=
  forall_setStream (P := fun state _ ↦ state.submitted = false → state.responseOffset = 0) hs hnew

theorem responseOffset_onHeader (state : StreamState) (name value : Bytes) :
    (state.onHeader name value).responseOffset = state.responseOffset := by
  unfold StreamState.onHeader
  grind

theorem responseOffset_onDataChunkRecv (state : StreamState) (max : UInt64) (chunk : Bytes) :
    (state.onDataChunkRecv max chunk).responseOffset = state.responseOffset := by
  unfold StreamState.onDataChunkRecv
  split <;> rfl

theorem submitted_onDataRead (state : StreamState) (length : ℕ) :
    (state.onDataRead length).state.submitted = state.submitted := by
  unfold StreamState.onDataRead
  dsimp only
  split
  · split <;> rfl
  · rfl

theorem unread_step {e : Event} (hs : s.Unread) (h : s.step e = some s') : s'.Unread := by
  cases moves_of_step h with
  | ignores | skips => exact hs
  | begins => exact hs.set fun _ ↦ rfl
  | header hstate =>
    refine hs.set fun hsubmitted ↦ ?_
    rw [submitted_onHeader] at hsubmitted
    rw [responseOffset_onHeader, hs _ _ hstate hsubmitted]
  | dataChunk hstate =>
    refine hs.set fun hsubmitted ↦ ?_
    rw [submitted_onDataChunkRecv] at hsubmitted
    rw [responseOffset_onDataChunkRecv, hs _ _ hstate hsubmitted]
  | ends hstate =>
    have hunread := hs _ _ hstate
    exact hs.set (w := {}) hunread
  | answers =>
    refine hs.set (w := {}) fun hsubmitted ↦ ?_
    rw [submitted_process] at hsubmitted
    cases hsubmitted
  | reads hstate hread =>
    refine hs.set fun hsubmitted ↦ ?_
    rw [submitted_onDataRead, hread] at hsubmitted
    cases hsubmitted

/-- **Every answer is streamed once.** Whatever a session has received, an answer that it submits
for a stream is read as its body, with the trailers of its status and trailing metadata, and so is
the one it gets to by processing the stream. -/
theorem streams_response {config : PluginConfig} {methods : List Bytes} {es : List Event}
    (hrun : (start config methods).run es = some s) {streamId : ℕ} {state : StreamState}
    (hstate : s.streams streamId = some state) (hsubmitted : state.submitted = false) :
    (∀ body status trailingMetadata, (StreamState.submitResponse
        { state with submitted := true, responseBytes := body } status
          trailingMetadata).StreamsOnce body (trailersOf status trailingMetadata)) ∧
      (∀ status, (StreamState.submitStatus { state with submitted := true } status).StreamsOnce
        [] (trailersOf status [])) ∧
      ∀ answer,
        match (state.admission s.config s.methods).bind fun _ ↦ answer.respond s.config with
        | .error status =>
          (state.process s.config s.methods answer).1.StreamsOnce [] (trailersOf status [])
        | .ok (encoded, trailingMetadata) =>
          (state.process s.config s.methods answer).1.StreamsOnce encoded
            (trailersOf .ok trailingMetadata) := by
  have hs : s.Unread := Machine.run_invariant (fun _ _ _ hp hstep ↦ unread_step hp hstep)
    (fun _ _ hnone ↦ absurd hnone (by simp [start])) hrun
  have hoffset := hs streamId state hstate hsubmitted
  have hresponse : ∀ body status trailingMetadata, (StreamState.submitResponse
      { state with submitted := true, responseBytes := body } status
        trailingMetadata).StreamsOnce body (trailersOf status trailingMetadata) :=
    fun _ _ _ ↦ streamsOnce_of_offset hoffset rfl
  have hstatus : ∀ status, (StreamState.submitStatus
      { state with submitted := true } status).StreamsOnce [] (trailersOf status []) :=
    fun _ ↦ streamsOnce_of_offset rfl rfl
  refine ⟨hresponse, hstatus, fun answer ↦ ?_⟩
  rw [StreamState.process]
  rcases (state.admission s.config s.methods).bind fun _ ↦ answer.respond s.config with
    status | ⟨encoded, trailingMetadata⟩
  · exact hstatus status
  · exact hresponse encoded .ok trailingMetadata

/-- One request, received to its end. -/
def oneRequest : List Event :=
  [.beginHeaders 1 true, .header 1 true (ascii ":method") (ascii "POST"),
    .header 1 true (ascii ":path") (ascii "/a/b"),
    .header 1 true (ascii "content-type") (ascii "application/grpc"),
    .dataChunk 1 [0, 0, 0, 0, 0], .frameRecv 1 true]

/-- It can be answered. -/
theorem streams_response_oneRequest : ∃ s state,
    (start {} [ascii "/a/b"]).run oneRequest = some s ∧ s.streams 1 = some state ∧
      state.submitted = false ∧
      (StreamState.submitResponse { state with submitted := true, responseBytes := [7] } .ok
        []).StreamsOnce [7] [⟨ascii "grpc-status", ascii "0"⟩] := by
  obtain ⟨s, hrun, hsubmitted⟩ : ∃ s, (start {} [ascii "/a/b"]).run oneRequest = some s ∧
      (s.streams 1).map StreamState.submitted = some false := ⟨_, rfl, rfl⟩
  obtain ⟨state, hstate, hsubmitted⟩ := Option.map_eq_some_iff.mp hsubmitted
  exact ⟨s, state, hrun, hstate, hsubmitted, (streams_response hrun hstate hsubmitted).1 [7] .ok []⟩

end Session

end Grpc

end Aevox
