import Aevox.WebSocket.Callbacks

/-!
# Legal control frames

A control frame is not fragmented and carries at most 125 bytes. Every Close frame of a session is
like that, since `emit_close_frame` cuts its reason off. A Pong frame echoes the payload of a Ping
frame, and the parser lets a Ping frame be as long as any other frame. So a session sends legal
control frames exactly as long as no Ping frame of the client exceeds the limit
(`sends_legal_iff`).
-/

namespace Aevox

open Coroutine

namespace Session

/-- An unfragmented control frame of at most 125 bytes, with its length in the seven bits that hold
lengths up to 125. -/
def LegalControl (opcode : Opcode) (frame : Bytes) : Prop :=
  ∃ payload : Bytes, payload.length ≤ kMaxControlPayloadBytes ∧
    frame = (kFinBit ||| opcode.toByte) :: payload.length.toUInt8 :: payload

/-- Every Pong and every Close frame that has been enqueued is legal. -/
def SendsLegal (s : Session) : Prop :=
  ∀ frame ∈ s.enqueued, ∀ opcode, opcode = .pong ∨ opcode = .close → carries opcode frame →
    LegalControl opcode frame

/-- No Ping frame in the client's byte stream is too long. -/
def PingsFit (maxPayload : ℕ) (received : Bytes) : Prop :=
  ∀ frame ∈ ((frames maxPayload).decode received).1, frame.opcode = .ping →
    frame.payload.length ≤ kMaxControlPayloadBytes

/-! ## Emitted frames -/

theorem toNat_toUInt8_of_le {n : ℕ} (h : n ≤ kMaxControlPayloadBytes) : n.toUInt8.toNat = n := by
  rw [Nat.toUInt8_eq, UInt8.toNat_ofNat', Nat.mod_eq_of_lt (Nat.lt_of_le_of_lt h (by decide))]

theorem lengthByte_of_lt {n : ℕ} (h : kMaxControlPayloadBytes < n) :
    kMaxControlPayloadBytes < (lengthByte n).toNat := by
  have hlong : ¬n < kPayload16Marker.toNat := Nat.not_lt.mpr h
  rw [lengthByte, if_neg hlong]
  split
  · decide
  · decide

theorem legalControl_emitFrame_iff {opcode : Opcode} {payload : Bytes} :
    LegalControl opcode (emitFrame opcode true payload)
      ↔ payload.length ≤ kMaxControlPayloadBytes := by
  constructor
  · rintro ⟨payload', hfits, hframe⟩
    rw [emitFrame_eq] at hframe
    have hlength : lengthByte payload.length = payload'.length.toUInt8 :=
      (List.cons.inj (List.cons.inj hframe).2).1
    by_contra hlong
    have hmarker := lengthByte_of_lt (Nat.not_le.mp hlong)
    rw [hlength, toNat_toUInt8_of_le hfits] at hmarker
    exact absurd hfits (Nat.not_le.mpr hmarker)
  · intro hfits
    refine ⟨payload, hfits, ?_⟩
    rw [emitFrame, if_pos rfl, if_pos (Nat.lt_of_le_of_lt hfits (by decide))]
    rfl

theorem legalControl_emitCloseFrame (code : UInt16) (reason : Bytes) :
    LegalControl .close (emitCloseFrame code reason) := by
  apply legalControl_emitFrame_iff.mpr
  exact Nat.add_le_add_right (List.length_take_le kMaxCloseReasonBytes reason) kCloseCodeBytes

/-! ## Pong frames -/

theorem visible_eq_some_pong_iff {e : Entry} {frame : Bytes} :
    e.visible = some (.pong frame) ↔ e.frame? = some frame ∧ carries .pong frame := by
  cases e with
  | message payload => simp [Entry.visible, Entry.frame?]
  | close code => simp [Entry.visible, Entry.frame?]
  | posted p =>
    by_cases hpong : carries .pong p.bytes
    · simp only [Entry.visible, Posted.visible, Entry.frame?, if_pos hpong, Option.some.injEq,
        Visible.pong.injEq]
      exact (and_iff_left_of_imp fun heq ↦ heq ▸ hpong).symm
    · simp only [Entry.visible, Posted.visible, Entry.frame?, if_neg hpong, Option.some.injEq]
      refine iff_of_false (Option.some_ne_none _).symm ?_
      rintro ⟨rfl, hcarries⟩
      exact hpong hcarries

theorem pong_mem_shown_iff {s : Session} {frame : Bytes} :
    .pong frame ∈ s.shown ↔ frame ∈ s.enqueued ∧ carries .pong frame := by
  simp only [shown, enqueued, List.mem_filterMap, visible_eq_some_pong_iff, ← and_assoc,
    exists_and_right]

theorem pong_mem_shows_iff {decoded : List ParsedFrame × Progress} {frame : Bytes} :
    .pong frame ∈ shows decoded ↔
      ∃ ping ∈ decoded.1, ping.opcode = .ping ∧ frame = emitFrame .pong true ping.payload := by
  have hending : .pong frame ∉ endingShows decoded.2 := by
    unfold endingShows
    split
    · simp
    · exact List.not_mem_nil
  have hframe : ∀ ping : ParsedFrame, .pong frame ∈ frameShows ping ↔
      ping.opcode = .ping ∧ frame = emitFrame .pong true ping.payload := by
    intro ping
    unfold frameShows
    cases ping.opcode <;> simp
  rw [shows, List.mem_append, or_iff_left hending, List.mem_flatMap]
  exact exists_congr fun ping ↦ and_congr_right fun _ ↦ hframe ping

/-! ## Runs -/

variable {ι : Type} [DecidableEq ι] {maxPayload : ℕ}

/-- In every run, a Pong frame answers a Ping frame of the client. -/
theorem pong_of_enqueued {es : List (Event ι)} {s : State ι}
    (hrun : State.start.run maxPayload es = some s) {frame : Bytes}
    (hframe : frame ∈ s.session.enqueued) (hpong : carries .pong frame) :
    ∃ ping ∈ ((frames maxPayload).decode s.received).1,
      ping.opcode = .ping ∧ frame = emitFrame .pong true ping.payload := by
  obtain ⟨l, -, hshown⟩ := (watched_of_run hrun).reader
  apply pong_mem_shows_iff.mp
  rw [← hshown]
  exact List.mem_append_left l (pong_mem_shown_iff.mpr ⟨hframe, hpong⟩)

/-- In every run, a Close frame is the one its sender has won the right to send. -/
theorem close_of_enqueued {es : List (Event ι)} {s : State ι}
    (hrun : State.start.run maxPayload es = some s) {frame : Bytes}
    (hframe : frame ∈ closeFrames s.session) :
    ∃ code reason, HasWon maxPayload es code reason ∧ frame = emitCloseFrame code reason := by
  obtain ⟨won, hs, hwon⟩ := inv_of_run hrun
  exact (hwon frame).mp (hs.right.won_of_mem hframe)

/-- **Control frames are legal as long as the client's Pings are.** In every run, if no Ping frame
received exceeds the limit, every Pong and every Close frame enqueued is legal; and if one does,
then an illegal frame has been enqueued by the time the read loop waits for more or has ended. -/
theorem sends_legal_iff {es : List (Event ι)} {s : State ι}
    (hrun : State.start.run maxPayload es = some s) :
    (PingsFit maxPayload s.received → SendsLegal s.session) ∧
      ∀ progress, s.threads .reader = ret progress → SendsLegal s.session →
        PingsFit maxPayload s.received := by
  constructor
  · rintro hfit frame hframe opcode (rfl | rfl) hopcode
    · obtain ⟨ping, hping, hop, rfl⟩ := pong_of_enqueued hrun hframe hopcode
      exact legalControl_emitFrame_iff.mpr (hfit ping hping hop)
    · obtain ⟨code, reason, -, rfl⟩ :=
        close_of_enqueued hrun (List.mem_filter.mpr ⟨hframe, hopcode⟩)
      exact legalControl_emitCloseFrame code reason
  · intro progress hprogress hlegal ping hping hop
    obtain ⟨l, hemits, hshown⟩ := (watched_of_run hrun).reader
    rw [hprogress] at hemits
    obtain ⟨-, rfl⟩ := hemits
    rw [List.append_nil] at hshown
    have hmem : .pong (emitFrame .pong true ping.payload) ∈ s.session.shown := by
      rw [hshown]
      exact pong_mem_shows_iff.mpr ⟨ping, hping, hop, rfl⟩
    obtain ⟨henqueued, hpong⟩ := pong_mem_shown_iff.mp hmem
    exact legalControl_emitFrame_iff.mp (hlegal _ henqueued .pong (Or.inl rfl) hpong)

/-- A client that pings with two bytes. -/
theorem sends_legal_ping : ∃ s : State Unit,
    State.start.run 16 [.read (some (clientFrame .ping true [0, 0, 0, 0] [0x68, 0x69])),
      .turn .reader (ret ())] = some s ∧ SendsLegal s.session := by
  have hrun : ∃ s : State Unit,
      State.start.run 16 [.read (some (clientFrame .ping true [0, 0, 0, 0] [0x68, 0x69])),
        .turn .reader (ret ())] = some s ∧
      ((frames 16).decode s.received).1 = [⟨.ping, true, [0x68, 0x69]⟩] := ⟨_, rfl, rfl⟩
  obtain ⟨s, hrun, hdecode⟩ := hrun
  refine ⟨s, hrun, (sends_legal_iff hrun).1 fun frame hframe _ ↦ ?_⟩
  rw [hdecode] at hframe
  rw [List.mem_singleton.mp hframe]
  decide

theorem pong_of_ping {maskKey payload : Bytes} (hkey : maskKey.length = kMaskKeyBytes)
    (hmax : payload.length ≤ maxPayload) (hlen : payload.length < 2 ^ 63) :
    ∃ s : State Unit, State.start.run maxPayload
        [.read (some (clientFrame .ping true maskKey payload)), .turn .reader (ret ())] = some s ∧
      emitFrame .pong true payload ∈ s.session.enqueued := by
  have hne : clientFrame .ping true maskKey payload ≠ [] := List.cons_ne_nil _ _
  have hparse := parseFrameDetailed_clientFrame (Opcode.noConfusion : Opcode.ping ≠ .continuation)
    hmax hlen [] hkey
  rw [List.append_nil] at hparse
  have hloop : doReadLoop maxPayload [] (some (clientFrame .ping true maskKey payload))
      = call (.post (.priority (emitFrame .pong true payload))) fun _ ↦ ret (.ok []) := by
    rw [doReadLoop, afterRead, if_neg hne, List.nil_append, parseFrames_frame hparse,
      List.drop_length]
    rfl
  obtain ⟨s₁, hs₁⟩ : ∃ s₁ : State Unit, s₁ = { (State.start : State Unit) with
    threads := Function.update State.start.threads .reader
      (doReadLoop maxPayload [] (some (clientFrame .ping true maskKey payload)))
    received := clientFrame .ping true maskKey payload
    lost := clientFrame .ping true maskKey payload = [] } := ⟨_, rfl⟩
  have hreader : s₁.threads .reader
      = call (.post (.priority (emitFrame .pong true payload))) fun _ ↦ ret (.ok []) := by
    rw [hs₁]
    dsimp only
    rw [Function.update_self, hloop]
  refine ⟨_, Machine.run_cons_eq_some_iff.mpr ⟨s₁, hs₁ ▸ step_read rfl _,
    Machine.run_cons_eq_some_iff.mpr ⟨_, step_turn hreader (ret ()), rfl⟩⟩, ?_⟩
  rw [hs₁]
  exact List.mem_singleton.mpr rfl

/-- A client that pings with 126 bytes. -/
theorem not_sends_legal : ¬∀ (maxPayload : ℕ) (es : List (Event Unit)) (s : State Unit),
    State.start.run maxPayload es = some s → SendsLegal s.session := by
  intro h
  have hlength : (List.replicate 126 (0 : UInt8)).length = 126 := List.length_replicate
  obtain ⟨s, hrun, hpong⟩ := @pong_of_ping 126 [0, 0, 0, 0] (List.replicate 126 0) rfl
    hlength.le (by rw [hlength]; decide)
  have hlegal := h _ _ s hrun _ hpong .pong (Or.inl rfl) rfl
  have hfits := legalControl_emitFrame_iff.mp hlegal
  rw [hlength] at hfits
  exact absurd hfits (by decide)

end Session

end Aevox
