import Aevox.WebSocket.Delivery

/-!
# What a session holds in memory

Two buffers of a session grow with what others do. The accumulator of the read loop grows with every
read, and is cut back when frames have been parsed: whenever the loop waits for more, the
accumulator holds the beginning of a single frame, which is shorter than the largest payload with
its header (`accumulator_bounded`).

The send queue grows with every frame that is pushed. Only data frames are subject to the limit, so
there are never more than `kMaxSendQueueDepth` of them in the queue, whoever pushes and drains at
the same time (`data_frames_bounded`). Frames that go to the front are not: a client that sends
pings while a write to it hangs makes the queue as long as it likes (`exists_longer_queue`).
-/

namespace Aevox

open Coroutine

/-! ## The accumulator -/

/-- The longest header of a client's frame. -/
abbrev kMaxHeaderBytes : ℕ := kBaseHeaderBytes + kExtended64Bytes + kMaskKeyBytes

theorem lt_of_awaits_payloadLength {input : Bytes} {len7 : UInt8}
    (h : Awaits (payloadLength input len7)) : input.length < kMaxHeaderBytes := by
  obtain ⟨e, he, hkind⟩ := h
  unfold payloadLength at he
  split at he
  · exact nomatch he
  split at he
  · split at he
    · exact Nat.lt_of_lt_of_le ‹_› (by decide)
    · exact nomatch he
  split at he
  · exact Nat.lt_of_lt_of_le ‹_› (by decide)
  split at he
  · rw [← Except.error.inj he] at hkind
    exact nomatch hkind
  · exact nomatch he

theorem extLenBytes_le (len7 : UInt8) : extLenBytes len7 ≤ kExtended64Bytes := by
  unfold extLenBytes
  split
  · decide
  split <;> decide

theorem lt_of_awaits_parsePayload {input : Bytes} {max : ℕ} {opcode : Opcode} {fin masked : Bool}
    {maskOffset payloadLen : ℕ}
    (h : Awaits (parsePayload input max opcode fin masked maskOffset payloadLen)) :
    input.length < maskOffset + kMaskKeyBytes + max := by
  obtain ⟨e, he, hkind⟩ := h
  have hmask : (if masked then kMaskKeyBytes else 0) ≤ kMaskKeyBytes := by
    split <;> decide
  rw [parsePayload] at he
  dsimp only at he
  by_cases hmax : payloadLen > max
  · rw [if_pos hmax] at he
    rw [← Except.error.inj he] at hkind
    exact ParseFrameErrorKind.noConfusion hkind
  by_cases hshort : input.length < maskOffset + (if masked then kMaskKeyBytes else 0) + payloadLen
  · omega
  · rw [if_neg hmax, if_neg hshort] at he
    exact absurd he (by simp)

theorem kind_of_checkOpcode {byte0 : UInt8} {e : ParseFrameError}
    (h : checkOpcode byte0 = .error e) : e.kind ≠ .incomplete := by
  have hprotocol {message : Bytes}
      (h : (.error (protocolViolation message) : Except ParseFrameError Opcode) = .error e) :
      e.kind ≠ .incomplete := by
    rw [← Except.error.inj h]
    exact ParseFrameErrorKind.noConfusion
  unfold checkOpcode at h
  split at h
  · exact hprotocol h
  split at h
  · exact hprotocol h
  split at h
  · exact hprotocol h
  split at h
  · exact hprotocol h
  split at h
  · exact hprotocol h
  · exact nomatch h

theorem kind_of_checkMask {byte1 : UInt8} {expectMasked : Bool} {e : ParseFrameError}
    (h : checkMask byte1 expectMasked = .error e) : e.kind ≠ .incomplete := by
  have hprotocol {message : Bytes}
      (h : (.error (protocolViolation message) : Except ParseFrameError Bool) = .error e) :
      e.kind ≠ .incomplete := by
    rw [← Except.error.inj h]
    exact ParseFrameErrorKind.noConfusion
  unfold checkMask at h
  split at h
  · exact hprotocol h
  split at h
  · exact hprotocol h
  · exact nomatch h

theorem lt_of_awaits {l : Bytes} {max : ℕ} {expectMasked : Bool}
    (h : Awaits (parseFrameDetailed l max expectMasked)) : l.length < kMaxHeaderBytes + max := by
  rcases l with _ | ⟨byte0, _ | ⟨byte1, rest⟩⟩
  · exact Nat.lt_of_lt_of_le (by decide : 0 < kMaxHeaderBytes) (Nat.le_add_right _ _)
  · exact Nat.lt_of_lt_of_le (by decide : 1 < kMaxHeaderBytes) (Nat.le_add_right _ _)
  · rw [parseFrameDetailed] at h
    cases hop : checkOpcode byte0 with
    | error err =>
      obtain ⟨e, he, hkind⟩ := h
      rw [hop] at he
      exact absurd hkind (Except.error.inj he ▸ kind_of_checkOpcode hop)
    | ok opcode =>
      cases hmask : checkMask byte1 expectMasked with
      | error err =>
        obtain ⟨e, he, hkind⟩ := h
        rw [hop, hmask] at he
        exact absurd hkind (Except.error.inj he ▸ kind_of_checkMask hmask)
      | ok masked =>
        rw [hop, hmask] at h
        cases hlen : payloadLength (byte0 :: byte1 :: rest) (byte1 &&& kPayloadLengthMask) with
        | error err =>
          simp only [hlen, bind, Except.bind] at h
          obtain ⟨e, he, hkind⟩ := h
          have hawaits : Awaits (payloadLength (byte0 :: byte1 :: rest)
              (byte1 &&& kPayloadLengthMask)) := ⟨err, hlen, Except.error.inj he ▸ hkind⟩
          exact Nat.lt_of_lt_of_le (lt_of_awaits_payloadLength hawaits) (Nat.le_add_right _ _)
        | ok payloadLen =>
          simp only [hlen, bind, Except.bind] at h
          have hext := extLenBytes_le (byte1 &&& kPayloadLengthMask)
          have hlt := lt_of_awaits_parsePayload h
          simp only [kMaxHeaderBytes] at hlt ⊢
          omega

namespace Session

variable {maxPayload : ℕ}

/-- The loop has ended, or has taken every whole frame off the accumulator. -/
def Trimmed (maxPayload : ℕ) (progress : Progress) : Prop :=
  ∀ accumulator, progress = .ok accumulator →
    Awaits (parseFrameDetailed accumulator maxPayload true)

theorem trimmed_error (ending : Ending) : Trimmed maxPayload (.error ending) := nofun

theorem yields_parseFrames (l : Bytes) :
    (parseFrames maxPayload l.length l).Yields (Trimmed maxPayload) := by
  induction l using parse_induction maxPayload with
  | awaits l h =>
    rw [parseFrames_of_awaits h]
    intro accumulator hacc
    exact Except.ok.inj hacc ▸ h
  | error l err h hkind =>
    rw [parseFrames_violation h hkind]
    refine Yields.andThen ?_ (yields_true _)
    exact fun ending _ ↦ trimmed_error ending
  | ok l result h ih =>
    rw [parseFrames_frame h]
    refine Yields.andThen ?_ (yields_true _)
    rintro (_ | ending) _
    · exact ih
    · exact trimmed_error ending

/-- From a read to the next one, the loop takes every whole frame off the accumulator. -/
theorem yields_doReadLoop (accumulator : Bytes) (read : Option Bytes) :
    (doReadLoop maxPayload accumulator read).Yields (Trimmed maxPayload) := by
  have hlost : (closeSession.andThen fun _ ↦ ret (.error .lost : Progress)).Yields
      (Trimmed maxPayload) := fun _ ↦ trimmed_error .lost
  refine Yields.andThen (Q := Trimmed maxPayload) ?_ ?_
  · rintro (ending | rest) h
    · exact fun _ ↦ trimmed_error ending
    · exact h
  · cases read with
    | none => exact hlost
    | some chunk =>
      rw [afterRead]
      split
      · exact hlost
      · exact yields_parseFrames _

/-- What a party ends with. -/
def Tidy {ι : Type} (maxPayload : ℕ) : (t : Party ι) → Thread t.Result → Prop
  | .reader, c => c.Yields (Trimmed maxPayload)
  | .caller _, _ => True

end Session

namespace Draining

open Session

variable {ι : Type} [DecidableEq ι] {maxPayload : ℕ}

theorem tidy_of_moves {s s' : Draining ι} {e : Event ι} (h : Moves maxPayload s e s')
    (hs : ∀ t, Tidy maxPayload t (s.inner.threads t)) :
    ∀ t, Tidy maxPayload t (s'.inner.threads t) := by
  have hupdate : ∀ {t : Party ι} {c : Thread t.Result}, Tidy maxPayload t c →
      ∀ t', Tidy maxPayload t' (Function.update s.inner.threads t c t') := fun hc ↦
    (Function.forall_update_iff _ fun t ↦ Tidy maxPayload t).mpr ⟨hc, fun t' _ ↦ hs t'⟩
  cases h with
  | party hparty h =>
    cases Session.moves_of_step h with
    | read => exact hupdate (t := .reader) (yields_doReadLoop _ _)
    | @call i code => exact hupdate (t := .caller i) trivial
    | @turn t callback op k hturn =>
      apply hupdate
      cases t with
      | reader =>
        have hcall := hs .reader
        rw [hturn] at hcall
        exact hcall _
      | caller i => trivial
    | strand => exact absurd hparty Bool.false_ne_true
    | written => exact absurd hparty Bool.false_ne_true
  | @hand i d frame =>
    rw [hand]
    split <;> exact hs
  | _ => exact hs

/-- **The accumulator is bounded.** In every run, when the read loop waits for more, what it has
kept is the beginning of one frame: shorter than the longest header and the largest payload. -/
theorem accumulator_bounded {es : List (Event ι)} {s : Draining ι}
    (hrun : start.run maxPayload es = some s) {accumulator : Bytes}
    (h : s.inner.threads .reader = ret (.ok accumulator)) :
    Awaits (parseFrameDetailed accumulator maxPayload true) ∧
      accumulator.length < kMaxHeaderBytes + maxPayload := by
  have htidy := Machine.run_invariant (I := fun s : Draining ι ↦
    ∀ t, Tidy maxPayload t (s.inner.threads t))
    (fun _ _ _ hs hstep ↦ tidy_of_moves (moves_of_step hstep) hs) ?_ hrun .reader
  · rw [h] at htidy
    have hawaits := htidy accumulator rfl
    exact ⟨hawaits, lt_of_awaits hawaits⟩
  · rintro (_ | i)
    · intro accumulator hacc
      exact Except.ok.inj hacc ▸ awaits_incomplete _
    · trivial

/-- The first half of a Ping frame has been read. -/
theorem accumulator_bounded_ping : ∃ s : Draining Unit,
    start.run 16 [.party (.read (some [0x89, 0x80, 1]))] = some s ∧
    Awaits (parseFrameDetailed [0x89, 0x80, 1] 16 true) ∧
    ([0x89, 0x80, 1] : Bytes).length < kMaxHeaderBytes + 16 := by
  obtain ⟨s, hrun, hreader⟩ : ∃ s : Draining Unit,
      start.run 16 [.party (.read (some [0x89, 0x80, 1]))] = some s ∧
      s.inner.threads .reader = ret (.ok [0x89, 0x80, 1]) := ⟨_, rfl, rfl⟩
  exact ⟨s, hrun, accumulator_bounded hrun hreader⟩

/-! ## The send queue -/

/-- The data frames in the send queue. -/
def queuedData (s : Draining ι) : ℕ := (s.session.sendQueue.filter isData).length

/-- Whoever is about to push a data frame has found room for it. -/
structure Roomy (s : Draining ι) : Prop where
  queued : s.queuedData ≤ kMaxSendQueueDepth
  pushing : ∀ frame, s.task = .pushing frame → s.queuedData < kMaxSendQueueDepth

theorem room_of_pushing {s s' : Draining ι} {e : Event ι} (h : s.step maxPayload e = some s')
    {frame : Bytes} (hpushing : s'.task = .pushing frame) (hbefore : s.task ≠ .pushing frame) :
    s'.session.sendQueue.length < kMaxSendQueueDepth := by
  have hmoves := moves_of_step h
  cases hmoves with
  | @room frame htask =>
    rw [step, strandStep, htask] at h
    dsimp only at h
    split at h
    · have := congrArg task (Option.some.inj h)
      exact absurd (hpushing.symm.trans this.symm) (by simp)
    · exact Nat.lt_of_not_ge ‹_›
  | @hand i d frame =>
    rw [hand] at hpushing
    split at hpushing
    · exact absurd hpushing hbefore
    · change Drain.release d s.task = _ at hpushing
      rw [Drain.release] at hpushing
      split at hpushing
      · exact absurd hpushing (by simp)
      · exact absurd hpushing hbefore
  | @leave i d =>
    change Drain.release d s.task = _ at hpushing
    rw [Drain.release] at hpushing
    split at hpushing
    · exact absurd hpushing (by simp)
    · exact absurd hpushing hbefore
  | next => exact absurd hpushing (by simp)
  | closed => exact absurd hpushing (by simp)
  | emit => exact absurd hpushing (by simp)
  | full => exact absurd hpushing (by simp)
  | pushFront => exact absurd hpushing (by simp [push])
  | pushBack => exact absurd hpushing (by simp [push])
  | busy => exact absurd hpushing (by simp)
  | alone => exact absurd hpushing (by simp)
  | start => exact absurd hpushing (by simp)
  | _ => exact absurd hpushing hbefore

theorem queuedData_of_moves {s s' : Draining ι} {e : Event ι} (h : Moves maxPayload s e s')
    (hs : Ordered s) : s'.queuedData ≤ s.queuedData ∨
      ∃ frame, s.task = .pushing frame ∧ s'.task = .pushed ∧
        s'.queuedData ≤ s.queuedData + 1 := by
  have hqueue {s' : Draining ι}
      (h : (s'.session.sendQueue.filter isData).Sublist (s.session.sendQueue.filter isData)) :
      s'.queuedData ≤ s.queuedData := h.length_le
  cases h with
  | @party e inner hparty h =>
    refine .inl (hqueue ?_)
    change (inner.session.sendQueue.filter isData).Sublist _
    rw [show inner.session.sendQueue = s.session.sendQueue from
      congrArg Prod.fst (queueState_of_party hparty h)]
  | @pushFront frame htask =>
    refine .inl (hqueue ?_)
    change ((frame :: s.session.sendQueue).filter isData).Sublist _
    rw [List.filter_cons_of_neg (by rw [hs.task _ htask frame rfl]; exact Bool.false_ne_true)]
  | @pushBack frame htask =>
    refine .inr ⟨frame, htask, rfl, ?_⟩
    change ((s.session.sendQueue ++ [frame]).filter isData).length ≤ _
    rw [List.filter_append, List.length_append]
    exact Nat.add_le_add_left (List.length_filter_le _ _) _
  | @take i d frame queue hd hstage h =>
    refine .inl (hqueue ?_)
    change (([] :: queue).filter isData).Sublist _
    rw [h]
    exact (List.Sublist.refl _).trans ((List.sublist_cons_self frame queue).filter _)
  | @pop i d frame front queue hd hstage h =>
    refine .inl (hqueue ?_)
    rw [h]
    exact (List.sublist_cons_self front queue).filter _
  | @hand i d frame =>
    rw [hand]
    split
    · exact .inl (Nat.le_refl _)
    · exact .inl (Nat.le_refl _)
  | clear => exact .inl (Nat.zero_le _)
  | _ => exact .inl (Nat.le_refl _)

theorem roomy_of_step {s s' : Draining ι} {e : Event ι} (hordered : Ordered s) (hs : Roomy s)
    (h : s.step maxPayload e = some s') : Roomy s' := by
  rcases queuedData_of_moves (moves_of_step h) hordered with hle | ⟨frame, htask, htask', hle⟩
  · refine ⟨hle.trans hs.queued, fun frame hpushing ↦ ?_⟩
    by_cases hbefore : s.task = .pushing frame
    · exact hle.trans_lt (hs.pushing frame hbefore)
    · exact Nat.lt_of_le_of_lt (List.length_filter_le _ _) (room_of_pushing h hpushing hbefore)
  · refine ⟨hle.trans (hs.pushing frame htask), fun frame' hpushing ↦ ?_⟩
    rw [htask'] at hpushing
    exact absurd hpushing (by simp)

/-- **The limit holds for data frames**, although the test and the push are separate accesses. -/
theorem data_frames_bounded {es : List (Event ι)} {s : Draining ι}
    (hrun : start.run maxPayload es = some s) :
    (s.session.sendQueue.filter isData).length ≤ kMaxSendQueueDepth := by
  have hstart : Ordered (start : Draining ι) :=
    ordered_of_run (rfl : start.run maxPayload [] = some start)
  refine (Machine.run_invariant (I := fun s ↦ (Single s ∧ Ordered s) ∧ Roomy s)
    (fun s e s' hs hstep ↦ ?_) ⟨⟨single_start, hstart⟩, ?_⟩ hrun).2.queued
  · have hmoves := moves_of_step hstep
    exact ⟨⟨single_of_moves hs.1.1 hmoves, ordered_of_moves hs.1.1 hs.1.2 hmoves⟩,
      roomy_of_step hs.1.2 hs.2 hstep⟩
  · exact ⟨Nat.zero_le _, fun frame h ↦ absurd h (by simp [start])⟩

/-! ## Frames without a limit -/

/-- A Ping frame without a payload. -/
def ping : Bytes := clientFrame .ping true [0, 0, 0, 0] []

/-- What it is answered with. -/
def pong : Bytes := emitFrame .pong true []

omit [DecidableEq ι] in
theorem doReadLoop_ping (maxPayload : ℕ) : doReadLoop maxPayload [] (some ping)
    = call (.post (.priority pong)) fun _ ↦ ret (.ok []) := by
  have hparse : parseFrameDetailed (clientFrame .ping true [0, 0, 0, 0] [] ++ []) maxPayload true
      = .ok ⟨⟨.ping, true, []⟩, (clientFrame .ping true [0, 0, 0, 0] []).length⟩ :=
    parseFrameDetailed_clientFrame (by decide) (Nat.zero_le maxPayload) (by decide) [] rfl
  have hframes : parseFrames maxPayload ping.length ping
      = call (.post (.priority pong)) fun _ ↦ ret (.ok []) := by
    rw [List.append_nil] at hparse
    rw [ping, parseFrames_frame hparse]
    rfl
  rw [doReadLoop, afterRead, if_neg (by decide), List.nil_append, hframes]
  rfl

/-- The session can read the next Ping frame. -/
structure Pingable (s : Draining ι) : Prop where
  reader : s.inner.threads .reader = ret (.ok [])
  task : s.task = .idle
  strand : s.session.strand = []

/-- A Ping frame is read, and the answer to it is posted and pushed. -/
def pinging : List (Event ι) :=
  [.party (.read (some ping)), .party (.turn .reader (ret ())), .strand, .strand]

theorem run_pinging {s : Draining ι} (hs : Pingable s) : ∃ s',
    s.run maxPayload pinging = some s' ∧ s'.inner.threads .reader = ret (.ok []) ∧
      s'.task = .pushed ∧ s'.session.strand = [] ∧
      s'.session.sendQueue = pong :: s.session.sendQueue ∧
      s'.session.sending = s.session.sending ∧ s'.drains = s.drains := by
  obtain ⟨hreader, htask, hstrand⟩ := hs
  obtain ⟨s₁, hs₁⟩ : ∃ s₁ : Draining ι, s₁ = { s with inner := { s.inner with
    threads := Function.update s.inner.threads .reader (doReadLoop maxPayload [] (some ping))
    received := s.inner.received ++ ping
    lost := ping = [] } } := ⟨_, rfl⟩
  have hread : s.step maxPayload (.party (.read (some ping))) = some s₁ := by
    rw [step, show isParty (.read (some ping) : Session.Event ι) = true from rfl, if_pos rfl,
      step_read hreader, hs₁]
    rfl
  have hloop : s₁.inner.threads .reader
      = call (.post (.priority pong)) fun _ ↦ ret (.ok []) := by
    simp only [hs₁, Function.update_self]
    exact doReadLoop_ping maxPayload
  obtain ⟨s₂, hs₂⟩ : ∃ s₂ : Draining ι, s₂ = { s₁ with inner := { s₁.inner with
    session := (exec (ret ()) (.post (.priority pong)) s₁.session).2
    threads := Function.update s₁.inner.threads .reader (ret (.ok [])) } } := ⟨_, rfl⟩
  have hturn : s₁.step maxPayload (.party (.turn .reader (ret ()))) = some s₂ := by
    rw [step, show isParty (.turn .reader (ret ()) : Session.Event ι) = true from rfl, if_pos rfl,
      step_turn hloop, hs₂]
    rfl
  have hposted : s₂.session.strand = [.priority pong] := by
    rw [hs₂]
    change s₁.session.strand ++ [.priority pong] = _
    rw [hs₁]
    exact congrArg (· ++ [Posted.priority pong]) hstrand
  obtain ⟨s₃, hs₃⟩ : ∃ s₃ : Draining ι, s₃ = { s₂.modify { s₂.session with strand := [] } with
    task := .entered (.priority pong) } := ⟨_, rfl⟩
  have hnext : s₂.step maxPayload .strand = some s₃ := by
    have hidle : s₂.task = .idle := by rw [hs₂, hs₁, htask]
    rw [step, strandStep, hidle, hposted, hs₃]
  have hpush : s₃.step maxPayload .strand
      = some (s₃.push pong (pong :: s₃.session.sendQueue)) := by
    rw [step, strandStep, hs₃]
  refine ⟨s₃.push pong (pong :: s₃.session.sendQueue), ?_, ?_, rfl, ?_, ?_, ?_, ?_⟩
  · refine Machine.run_cons_eq_some_iff.mpr ⟨s₁, hread, ?_⟩
    refine Machine.run_cons_eq_some_iff.mpr ⟨s₂, hturn, ?_⟩
    exact Machine.run_cons_eq_some_iff.mpr ⟨s₃, hnext, (Machine.run_singleton _ _).trans hpush⟩
  · simp only [hs₃, hs₂, push, modify, Function.update_self]
  · rw [hs₃]
    rfl
  · rw [hs₃, hs₂, hs₁]
    rfl
  · rw [hs₃, hs₂, hs₁]
    rfl
  · rw [hs₃, hs₂, hs₁]
    rfl

/-- A write hangs, and the next Ping frame adds a frame to the queue. -/
theorem exists_run_pings (n : ℕ) : ∃ (es : List (Event ι)) (s : Draining ι),
    start.run maxPayload es = some s ∧ Pingable s ∧ s.session.sending = true ∧
      s.session.sendQueue.length = n := by
  induction n with
  | zero =>
    refine ⟨pinging ++ [.strand, .strand, .drain 0, .drain 0, .drain 0, .drain 0], _, rfl, ?_⟩
    exact ⟨⟨rfl, rfl, rfl⟩, rfl, rfl⟩
  | succ n ih =>
    obtain ⟨es, s, hrun, hs, hsending, hlen⟩ := ih
    obtain ⟨s₁, hrun₁, hreader, htask, hstrand, hqueue, hsending₁, -⟩ :=
      @run_pinging _ _ maxPayload _ hs
    have hbusy : s₁.step maxPayload .strand = some { s₁ with task := .idle } := by
      rw [step, strandStep, htask]
      exact if_pos (hsending₁.trans hsending)
    refine ⟨es ++ (pinging ++ [.strand]), { s₁ with task := .idle }, ?_, ⟨hreader, rfl, hstrand⟩,
      hsending₁.trans hsending, ?_⟩
    · refine Machine.run_trans hrun (Machine.run_trans hrun₁ ?_)
      exact (Machine.run_singleton _ _).trans hbusy
    · change s₁.session.sendQueue.length = n + 1
      rw [hqueue, List.length_cons, hlen]

/-- **The limit is one of data frames only.** In no run are there more than `kMaxSendQueueDepth` of
them in the queue, and in some run the queue is longer than any given number. -/
theorem only_data_frames_bounded (maxPayload : ℕ) :
    (∀ (es : List (Event ι)) (s : Draining ι), start.run maxPayload es = some s →
      (s.session.sendQueue.filter isData).length ≤ kMaxSendQueueDepth) ∧
    ∀ n, ∃ (es : List (Event ι)) (s : Draining ι), start.run maxPayload es = some s ∧
      n < s.session.sendQueue.length := by
  refine ⟨fun es s hrun ↦ data_frames_bounded hrun, fun n ↦ ?_⟩
  obtain ⟨es, s, hrun, -, -, hlen⟩ : ∃ (es : List (Event ι)) (s : Draining ι),
      start.run maxPayload es = some s ∧ Pingable s ∧ s.session.sending = true ∧
        s.session.sendQueue.length = n + 1 := exists_run_pings (n + 1)
  exact ⟨es, s, hrun, hlen ▸ Nat.lt_succ_self n⟩

end Draining

end Aevox
