import Aevox.Grpc.Session

/-!
# Replies of a gRPC session

A stream is answered once. It is put on the list when its peer has finished, and stays there until
it is processed; `submitted` is set then, whatever becomes of it afterwards. Its answer has one
`grpc-status` among its trailers: what a handler returns with that name, in any letter case, is
refused before. With a status other than OK goes an empty body.

Where a stream is in this is the invariant (`Reply`), for each stream on its own.
-/

namespace Aevox

namespace Grpc

/-! ## One status among the trailers -/

/-- The trailer is the status, in any letter case. -/
def Metadata.isStatus (metadata : Metadata) : Bool :=
  equalIgnoreCase metadata.name (ascii "grpc-status")

theorem toLower_toLower (b : UInt8) : toLower (toLower b) = toLower b := by
  unfold toLower
  split
  next h =>
    rw [if_neg]
    rintro ⟨-, hle⟩
    simp only [UInt8.le_iff_toNat_le, UInt8.toNat_add] at h hle
    change (b.toNat + 32) % 256 ≤ 90 at hle
    change 65 ≤ b.toNat ∧ b.toNat ≤ 90 at h
    omega
  · rfl

theorem isStatus_lowered (name value : Bytes) :
    Metadata.isStatus ⟨toLowerAscii name, value⟩ = (toLowerAscii name == ascii "grpc-status") := by
  have hself : (ascii "grpc-status").map toLower = ascii "grpc-status" := by decide
  rw [Metadata.isStatus, equalIgnoreCase, hself, toLowerAscii, List.map_map]
  exact congrArg (· == ascii "grpc-status") (List.map_congr_left fun b _ ↦ toLower_toLower b)

/-- **One status.** If no trailing metadata is reserved, the trailers have one status. -/
theorem filter_isStatus_trailersOf {status : GrpcStatus} {trailingMetadata : List Metadata}
    (h : ∀ md ∈ trailingMetadata, isReservedTrailer (toLowerAscii md.name) = false) :
    (trailersOf status trailingMetadata).filter Metadata.isStatus =
      [⟨ascii "grpc-status", statusCodeText status.code⟩] := by
  have hnone : (trailingMetadata.map fun metadata ↦
      (⟨toLowerAscii metadata.name, metadata.value⟩ : Metadata)).filter Metadata.isStatus = [] := by
    refine List.filter_eq_nil_iff.mpr fun md hmd ↦ ?_
    obtain ⟨metadata, hmetadata, rfl⟩ := List.mem_map.mp hmd
    rw [isStatus_lowered, beq_iff_eq]
    intro heq
    have hreserved := h metadata hmetadata
    rw [isReservedTrailer, heq] at hreserved
    cases hreserved
  have hmessage (value : Bytes) : Metadata.isStatus ⟨ascii "grpc-message", value⟩ = false :=
    show equalIgnoreCase (ascii "grpc-message") (ascii "grpc-status") = false by decide
  have hstatus (value : Bytes) : Metadata.isStatus ⟨ascii "grpc-status", value⟩ = true :=
    show equalIgnoreCase (ascii "grpc-status") (ascii "grpc-status") = true by decide
  rw [trailersOf, List.filter_append, hnone, List.nil_append, List.filter_cons_of_pos (hstatus _)]
  split
  · rfl
  · rw [List.filter_cons_of_neg (Bool.eq_false_iff.mp (hmessage _))]
    rfl

/-! ## Where a stream is -/

/-- Nothing has been sent. -/
structure Wire.Quiet (w : Wire) : Prop where
  submissions : w.submissions = []
  sent : w.sent = []
  trailers : w.trailers = []

/-- The one answer of a stream. -/
structure Answered (state : StreamState) (w : Wire) (status : GrpcStatus) : Prop where
  submissions : w.submissions = [status]
  oneStatus : state.responseTrailers.filter Metadata.isStatus =
    [⟨ascii "grpc-status", statusCodeText status.code⟩]
  trailers : ∀ t ∈ w.trailers, t = state.responseTrailers
  body : status.code ≠ .ok → state.responseBytes = [] ∧ w.sent = []

/-- **Where a stream is**, if it matters whether it is on the list. -/
inductive Reply (ready : Prop) : Option StreamState → Wire → Prop
  | idle : Reply ready none {}
  | receiving {state w} (hopened : w.opened = true) (hended : w.ended = false)
    (hend : state.endStream = false) (hsubmitted : state.submitted = false) (hquiet : w.Quiet) :
    Reply ready (some state) w
  | waiting {state w} (hopened : w.opened = true) (hended : w.ended = true)
    (hend : state.endStream = true) (hsubmitted : state.submitted = false) (hquiet : w.Quiet)
    (hready : ready) : Reply ready (some state) w
  | answered {state w status} (hopened : w.opened = true) (hended : w.ended = true)
    (hend : state.endStream = true) (hsubmitted : state.submitted = true)
    (hanswered : Answered state w status) : Reply ready (some state) w

/-- Every stream is somewhere, and zero is no stream. -/
structure Session.Inv (s : Session) : Prop where
  zero : s.streams 0 = none
  replies : ∀ streamId, Reply (streamId ∈ s.readyStreams) (s.streams streamId) (s.wire streamId)

theorem Reply.mono {ready ready' : Prop} {state : Option StreamState} {w : Wire}
    (h : Reply ready state w) (himp : ready → ready') : Reply ready' state w := by
  cases h with
  | idle => exact .idle
  | receiving h₁ h₂ h₃ h₄ h₅ => exact .receiving h₁ h₂ h₃ h₄ h₅
  | waiting h₁ h₂ h₃ h₄ h₅ h₆ => exact .waiting h₁ h₂ h₃ h₄ h₅ (himp h₆)
  | answered h₁ h₂ h₃ h₄ h₅ => exact .answered h₁ h₂ h₃ h₄ h₅

/-- Nothing has been sent, or the one answer has. -/
theorem Reply.quiet_or_answered {ready : Prop} {state : Option StreamState} {w : Wire}
    (h : Reply ready state w) : (w.Quiet ∧ (w.ended = true → ready)) ∨
      (w.ended = true ∧ ∃ state status, Answered state w status) := by
  cases h with
  | idle => exact Or.inl ⟨⟨rfl, rfl, rfl⟩, fun hended ↦ by cases hended⟩
  | receiving _ hended _ _ hquiet =>
    exact Or.inl ⟨hquiet, fun hended' ↦ absurd (hended.symm.trans hended') (by simp)⟩
  | waiting _ _ _ _ hquiet hready => exact Or.inl ⟨hquiet, fun _ ↦ hready⟩
  | answered _ hended _ _ hanswered => exact Or.inr ⟨hended, _, _, hanswered⟩

namespace Session

variable {s s' : Session} {config : PluginConfig} {methods : List Bytes}

theorem inv_start (config : PluginConfig) (methods : List Bytes) : Inv (start config methods) :=
  ⟨rfl, fun _ ↦ .idle⟩

theorem Inv.set (hs : Inv s) {streamId : ℕ} {state : StreamState} {w : Wire} {readyStreams : List ℕ}
    (hid : streamId ≠ 0) (hready : ∀ id ≠ streamId, id ∈ s.readyStreams → id ∈ readyStreams)
    (h : Reply (streamId ∈ readyStreams) (some state) w) :
    Inv { s.setStream streamId state w with readyStreams } := by
  refine ⟨(Function.update_of_ne hid.symm _ _).trans hs.zero, fun id ↦ ?_⟩
  dsimp only [setStream]
  by_cases heq : id = streamId
  · rw [heq, Function.update_self, Function.update_self]
    exact h
  · rw [Function.update_of_ne heq, Function.update_of_ne heq]
    exact (hs.replies id).mono (hready id heq)

theorem Inv.ne_zero (hs : Inv s) {streamId : ℕ} {state : StreamState}
    (hstate : s.streams streamId = some state) : streamId ≠ 0 := by
  rintro rfl
  rw [hs.zero] at hstate
  cases hstate

/-- A stream whose peer can still send is receiving. -/
theorem Inv.receiving (hs : Inv s) {streamId : ℕ} {state : StreamState}
    (hstate : s.streams streamId = some state) (hopen : s.isOpen streamId = true) :
    (s.wire streamId).opened = true ∧ (s.wire streamId).ended = false ∧ state.endStream = false ∧
      state.submitted = false ∧ (s.wire streamId).Quiet := by
  have hreply := hs.replies streamId
  rw [isOpen, Bool.and_eq_true, Bool.not_eq_true'] at hopen
  rw [hstate] at hreply
  cases hreply with
  | receiving hopened hended hend hsubmitted hquiet =>
    exact ⟨hopened, hended, hend, hsubmitted, hquiet⟩
  | waiting _ hended | answered _ hended =>
    rw [hopen.2] at hended
    cases hended

theorem Inv.wire_eq (hs : Inv s) {streamId : ℕ} (hopened : (s.wire streamId).opened = false) :
    s.wire streamId = {} := by
  have hreply := hs.replies streamId
  generalize s.streams streamId = state, s.wire streamId = w at hreply hopened
  cases hreply with
  | idle => rfl
  | receiving hopened' | waiting hopened' | answered hopened' =>
    rw [hopened] at hopened'
    cases hopened'

/-! ## Processing a stream -/

section Process

variable {state : StreamState} {answer : Answer}

@[simp] theorem endStream_process :
    (state.process config methods answer).1.endStream = state.endStream := by
  unfold StreamState.process
  split <;> rfl

@[simp] theorem submitted_process : (state.process config methods answer).1.submitted = true := by
  unfold StreamState.process
  split <;> rfl

/-- What a handler returns is refused if it has reserved trailers. -/
theorem not_reserved_of_respond {encoded : Bytes} {trailingMetadata : List Metadata}
    (h : answer.respond config = .ok (encoded, trailingMetadata)) :
    ∀ md ∈ trailingMetadata, isReservedTrailer (toLowerAscii md.name) = false := by
  unfold Answer.respond at h
  split at h
  · cases h
  · cases h
  next response =>
    split at h
    · cases h
    next hreserved =>
      split at h
      · cases h
      · cases h
        intro md hmd
        rw [List.any_eq_true] at hreserved
        exact Bool.eq_false_iff.mpr fun htrue ↦ hreserved ⟨md, hmd, htrue⟩

/-- **Processing a stream answers it.** -/
theorem answered_process {w : Wire} (hquiet : w.Quiet) :
    Answered (state.process config methods answer).1
      { w with submissions := w.submissions ++ [(state.process config methods answer).2] }
      (state.process config methods answer).2 := by
  have htrailers {responseTrailers : List Metadata} : ∀ t ∈ w.trailers, t = responseTrailers := by
    rw [hquiet.trailers]
    exact fun t ht ↦ absurd ht List.not_mem_nil
  have hone {status : GrpcStatus} : w.submissions ++ [status] = [status] := by
    rw [hquiet.submissions, List.nil_append]
  unfold StreamState.process
  split
  · exact ⟨hone, filter_isStatus_trailersOf fun md hmd ↦ absurd hmd List.not_mem_nil, htrailers,
      fun _ ↦ ⟨rfl, hquiet.sent⟩⟩
  next encoded trailingMetadata h =>
    have hrespond : answer.respond config = .ok (encoded, trailingMetadata) := by
      cases hadmission : state.admission config methods with
      | error status =>
        rw [hadmission] at h
        cases h
      | ok request => rwa [hadmission] at h
    exact ⟨hone, filter_isStatus_trailersOf (not_reserved_of_respond hrespond), htrailers,
      fun hcode ↦ absurd rfl hcode⟩

end Process

/-! ## Reading the body -/

section DataRead

variable (state : StreamState) (length : ℕ)

theorem state_onDataRead : ∃ responseOffset trailersSubmitted,
    (state.onDataRead length).state = { state with responseOffset, trailersSubmitted } := by
  unfold StreamState.onDataRead
  dsimp only
  split
  · split <;> exact ⟨_, _, rfl⟩
  · exact ⟨_, _, rfl⟩

theorem bytes_onDataRead : (state.onDataRead length).bytes =
    (state.responseBytes.drop state.responseOffset).take length := by
  unfold StreamState.onDataRead
  dsimp only
  split
  · split <;> rfl
  · rfl

theorem trailers_onDataRead :
    ∀ t ∈ (state.onDataRead length).trailers, t = state.responseTrailers := by
  unfold StreamState.onDataRead
  dsimp only
  split
  · split
    · exact fun t ht ↦ (Option.some.inj ht).symm
    · exact fun t ht ↦ by cases ht
  · exact fun t ht ↦ by cases ht

variable {state} in
theorem answered_onDataRead {w : Wire} {status : GrpcStatus} (h : Answered state w status) :
    Answered (state.onDataRead length).state { w with
      sent := w.sent ++ (state.onDataRead length).bytes
      trailers := w.trailers ++ (state.onDataRead length).trailers.toList } status := by
  obtain ⟨offset, submitted, hstate⟩ := state_onDataRead state length
  rw [hstate]
  refine ⟨h.submissions, h.oneStatus, fun t ht ↦ ?_, fun hcode ↦ ?_⟩
  · rcases List.mem_append.mp ht with ht | ht
    · exact h.trailers t ht
    · exact trailers_onDataRead state length t (Option.mem_toList.mp ht)
  · obtain ⟨hbytes, hsent⟩ := h.body hcode
    refine ⟨hbytes, ?_⟩
    rw [hsent, bytes_onDataRead, hbytes, List.drop_nil, List.take_nil, List.append_nil]

end DataRead

/-! ## Every step -/

@[simp] theorem endStream_onHeader (state : StreamState) (name value : Bytes) :
    (state.onHeader name value).endStream = state.endStream := by
  unfold StreamState.onHeader
  grind

@[simp] theorem submitted_onHeader (state : StreamState) (name value : Bytes) :
    (state.onHeader name value).submitted = state.submitted := by
  unfold StreamState.onHeader
  grind

@[simp] theorem endStream_onDataChunkRecv (state : StreamState) (max : UInt64) (chunk : Bytes) :
    (state.onDataChunkRecv max chunk).endStream = state.endStream := by
  unfold StreamState.onDataChunkRecv
  split <;> rfl

@[simp] theorem submitted_onDataChunkRecv (state : StreamState) (max : UInt64) (chunk : Bytes) :
    (state.onDataChunkRecv max chunk).submitted = state.submitted := by
  unfold StreamState.onDataChunkRecv
  split <;> rfl

/-- **Every step leaves every stream somewhere.** -/
theorem inv_of_moves {e : Event} (hs : Inv s) (h : Moves s e s') : Inv s' := by
  cases h with
  | ignores => exact hs
  | @begins streamId hid hopened =>
    refine hs.set hid (fun id _ hready ↦ hready) (.receiving rfl ?_ rfl rfl ?_)
    · rw [hs.wire_eq hopened]
    · rw [hs.wire_eq hopened]
      exact ⟨rfl, rfl, rfl⟩
  | header hstate hopen =>
    obtain ⟨hopened, hended, hend, hsubmitted, hquiet⟩ := hs.receiving hstate hopen
    refine hs.set (hs.ne_zero hstate) (fun id _ hready ↦ hready) ?_
    exact .receiving hopened hended (by simpa using hend) (by simpa using hsubmitted)
      ⟨hquiet.submissions, hquiet.sent, hquiet.trailers⟩
  | dataChunk hstate hopen hfits =>
    obtain ⟨hopened, hended, hend, hsubmitted, hquiet⟩ := hs.receiving hstate hopen
    refine hs.set (hs.ne_zero hstate) (fun id _ hready ↦ hready) ?_
    exact .receiving hopened hended (by simpa using hend) (by simpa using hsubmitted)
      ⟨hquiet.submissions, hquiet.sent, hquiet.trailers⟩
  | @ends streamId state hstate hopen =>
    have hid := hs.ne_zero hstate
    obtain ⟨hopened, -, -, hsubmitted, hquiet⟩ :=
      hs.receiving hstate (hopen.resolve_left hid)
    refine hs.set hid (fun id _ hready ↦ List.mem_append_left _ hready) ?_
    exact .waiting hopened rfl rfl hsubmitted ⟨hquiet.submissions, hquiet.sent, hquiet.trailers⟩
      (List.mem_append_right _ (List.mem_singleton_self streamId))
  | @skips answer streamId readyStreams hready hskip =>
    refine ⟨hs.zero, fun id ↦ ?_⟩
    by_cases hid : id = streamId
    · subst hid
      have hreply := hs.replies id
      dsimp only
      generalize hstate : s.streams id = state, s.wire id = w at hreply ⊢
      cases hreply with
      | idle => exact .idle
      | receiving h₁ h₂ h₃ h₄ h₅ => exact .receiving h₁ h₂ h₃ h₄ h₅
      | waiting _ _ hend hsubmitted =>
        -- a stream that waits is not skipped
        rcases hskip _ hstate with h | h
        · exact absurd (h.symm.trans hsubmitted) (by simp)
        · exact absurd (h.symm.trans hend) (by simp)
      | answered h₁ h₂ h₃ h₄ h₅ => exact .answered h₁ h₂ h₃ h₄ h₅
    · refine (hs.replies id).mono fun hmem ↦ ?_
      rw [hready] at hmem
      exact (List.mem_cons.mp hmem).resolve_left hid
  | @answers answer streamId readyStreams state hready hstate hsubmitted hend =>
    refine hs.set (hs.ne_zero hstate) (fun id hid hmem ↦ ?_) ?_
    · rw [hready] at hmem
      exact (List.mem_cons.mp hmem).resolve_left hid
    · have hreply := hs.replies streamId
      rw [hstate] at hreply
      cases hreply with
      | receiving _ _ hend' => exact absurd (hend.symm.trans hend') (by simp)
      | waiting hopened hended _ _ hquiet =>
        exact .answered hopened hended (by simpa using hend) (by simp) (answered_process hquiet)
      | answered _ _ _ hsubmitted' => exact absurd (hsubmitted.symm.trans hsubmitted') (by simp)
  | @reads streamId length state hstate hsubmitted =>
    refine hs.set (hs.ne_zero hstate) (fun id _ hready ↦ hready) ?_
    have hreply := hs.replies streamId
    rw [hstate] at hreply
    obtain ⟨offset, submitted, hread⟩ := state_onDataRead state length
    cases hreply with
    | receiving _ _ _ hsubmitted' => exact absurd (hsubmitted.symm.trans hsubmitted') (by simp)
    | waiting _ _ _ hsubmitted' => exact absurd (hsubmitted.symm.trans hsubmitted') (by simp)
    | answered hopened hended hend _ hanswered =>
      exact .answered hopened hended (by rw [hread]; exact hend) (by rw [hread]; exact hsubmitted)
        (answered_onDataRead length hanswered)

/-- **One reply.** In every run a stream is answered at most once, not before its peer has finished,
and once if its peer has finished and the list has been processed. Its trailers have one
`grpc-status`, which is the status it was answered with, and a status other than OK is sent with an
empty body. -/
theorem replies_once {es : List Event} (hrun : (start config methods).run es = some s)
    (streamId : ℕ) :
    (s.wire streamId).submissions.length ≤ 1 ∧
      ((s.wire streamId).submissions ≠ [] → (s.wire streamId).ended = true) ∧
      (s.readyStreams = [] → (s.wire streamId).ended = true →
        (s.wire streamId).submissions.length = 1) ∧
      (∀ t ∈ (s.wire streamId).trailers, ∃ status ∈ (s.wire streamId).submissions,
        t.filter Metadata.isStatus = [⟨ascii "grpc-status", statusCodeText status.code⟩]) ∧
      ∀ status ∈ (s.wire streamId).submissions, status.code ≠ .ok →
        (s.wire streamId).sent = [] := by
  have hs : Inv s := Machine.run_invariant
    (fun _ _ _ hs hstep ↦ inv_of_moves hs (moves_of_step hstep)) (inv_start config methods) hrun
  rcases (hs.replies streamId).quiet_or_answered with ⟨hquiet, hready⟩ | ⟨hended, state, status, h⟩
  · rw [hquiet.submissions, hquiet.trailers]
    refine ⟨Nat.zero_le 1, fun hne ↦ absurd rfl hne, fun hlist hended ↦ ?_,
      fun t ht ↦ absurd ht List.not_mem_nil, fun status hmem ↦ absurd hmem List.not_mem_nil⟩
    have hmem := hready hended
    rw [hlist] at hmem
    exact absurd hmem List.not_mem_nil
  · rw [h.submissions]
    refine ⟨Nat.le_refl 1, fun _ ↦ hended, fun _ _ ↦ rfl, fun t ht ↦ ?_,
      fun status' hmem hcode ↦ ?_⟩
    · refine ⟨status, List.mem_singleton_self status, ?_⟩
      rw [h.trailers t ht]
      exact h.oneStatus
    · rw [List.mem_singleton.mp hmem] at hcode
      exact (h.body hcode).2

/-- Two streams are interleaved. The second one has no method and is refused, the handler of the
first returns a reserved name in capitals. -/
theorem replies_once_interleaved : ∃ s, (start {} [ascii "/a/b"]).run
      [.beginHeaders 1 true, .header 1 true (ascii ":method") (ascii "POST"), .beginHeaders 3 true,
        .header 1 true (ascii ":path") (ascii "/a/b"),
        .header 1 true (ascii "Content-Type") (ascii "application/grpc+proto"),
        .frameRecv 3 true, .dataChunk 1 [0, 0, 0], .frameRecv 1 false, .dataChunk 1 [0, 1, 7],
        .frameRecv 1 true, .frameRecv 0 true, .next .throws,
        .next (.returns ⟨[], [⟨ascii "GRPC-Status", ascii "0"⟩]⟩), .dataRead 1 16384] = some s ∧
    (s.wire 1).submissions = [.error .internal "reserved trailer metadata"] ∧
    (s.wire 1).sent = [] ∧
    ∃ t ∈ (s.wire 1).trailers,
      t.filter Metadata.isStatus = [⟨ascii "grpc-status", ascii "13"⟩] := by
  obtain ⟨s, hrun, hsubmissions, t, ht⟩ : ∃ s, (start {} [ascii "/a/b"]).run
      [.beginHeaders 1 true, .header 1 true (ascii ":method") (ascii "POST"), .beginHeaders 3 true,
        .header 1 true (ascii ":path") (ascii "/a/b"),
        .header 1 true (ascii "Content-Type") (ascii "application/grpc+proto"),
        .frameRecv 3 true, .dataChunk 1 [0, 0, 0], .frameRecv 1 false, .dataChunk 1 [0, 1, 7],
        .frameRecv 1 true, .frameRecv 0 true, .next .throws,
        .next (.returns ⟨[], [⟨ascii "GRPC-Status", ascii "0"⟩]⟩), .dataRead 1 16384] = some s ∧
      (s.wire 1).submissions = [.error .internal "reserved trailer metadata"] ∧
      ∃ t, t ∈ (s.wire 1).trailers := ⟨_, rfl, rfl, _, List.mem_singleton_self _⟩
  obtain ⟨-, -, -, htrailers, hbody⟩ := replies_once hrun 1
  rw [hsubmissions] at htrailers hbody
  obtain ⟨status, hstatus, hone⟩ := htrailers t ht
  rw [List.mem_singleton.mp hstatus] at hone
  exact ⟨s, hrun, hsubmissions, hbody _ (List.mem_singleton_self _) (by decide), t, ht, hone⟩

end Session

end Grpc

end Aevox
