import Aevox.Library.Emission
import Aevox.Library.StreamDecoder
import Aevox.WebSocket.Reading

/-!
# What the read loop shows of a byte stream

The frames in the client's byte stream, up to the first Close frame or the first thing that is not a
frame, are a matter of the stream alone: `frames` is a decoder, and `shows` says which callbacks and
Pong frames each of them calls for.

The read loop shows exactly that (`emits_doReadLoop`), in this order and whatever happens around it:
nothing the rest of the program does to the session can make it skip a callback or a Pong frame, or
add one. Only whether it may send a Close frame is not in its own hands.
-/

namespace Aevox

open Coroutine

namespace Session

/-! ## The frames of a stream -/

/-- The parser's verdict on what the read loop has accumulated. -/
def look (maxPayload : ℕ) (accumulator : Bytes) : Verdict ParsedFrame Ending :=
  match parseFrameDetailed accumulator maxPayload true with
  | .error err => if err.kind = .incomplete then .more else .stop (.violated err.error)
  | .ok result =>
    if result.frame.opcode = .close then .stop (.closedByPeer result.frame.payload)
    else .item result.frame result.bytesConsumed

variable {maxPayload : ℕ}

theorem look_eq_more_iff {l : Bytes} :
    look maxPayload l = .more ↔ Awaits (parseFrameDetailed l maxPayload true) := by
  unfold look
  cases parseFrameDetailed l maxPayload true with
  | error err =>
    by_cases h : err.kind = .incomplete
    · simp only [if_pos h, true_iff]
      exact ⟨err, rfl, h⟩
    · simp only [if_neg h, reduceCtorEq, false_iff]
      rintro ⟨e, he, hkind⟩
      exact h (Except.error.inj he ▸ hkind)
  | ok result =>
    have hok := not_awaits_ok result
    by_cases h : result.frame.opcode = .close <;> simp [h, hok]

theorem look_of_item {l : Bytes} {frame : ParsedFrame} {n : ℕ}
    (h : look maxPayload l = .item frame n) :
    parseFrameDetailed l maxPayload true = .ok ⟨frame, n⟩ ∧ frame.opcode ≠ .close := by
  unfold look at h
  cases hparse : parseFrameDetailed l maxPayload true with
  | error err =>
    simp only [hparse] at h
    split_ifs at h
  | ok result =>
    simp only [hparse] at h
    split_ifs at h with hclose
    obtain ⟨rfl, rfl⟩ := Verdict.item.inj h
    exact ⟨rfl, hclose⟩

theorem look_of_error {l : Bytes} {err : ParseFrameError}
    (h : parseFrameDetailed l maxPayload true = .error err) (hkind : err.kind ≠ .incomplete) :
    look maxPayload l = .stop (.violated err.error) := by
  rw [look, h]
  exact if_neg hkind

theorem look_of_close {l : Bytes} {fin : Bool} {payload : Bytes} {n : ℕ}
    (h : parseFrameDetailed l maxPayload true = .ok ⟨⟨.close, fin, payload⟩, n⟩) :
    look maxPayload l = .stop (.closedByPeer payload) := by
  rw [look, h]
  rfl

theorem look_of_ok {l : Bytes} {frame : ParsedFrame} {n : ℕ}
    (h : parseFrameDetailed l maxPayload true = .ok ⟨frame, n⟩) (hclose : frame.opcode ≠ .close) :
    look maxPayload l = .item frame n := by
  rw [look, h]
  exact if_neg hclose

/-- **The stream of frames**: everything up to a Close frame or a violation. -/
def frames (maxPayload : ℕ) : Decoder UInt8 ParsedFrame Ending where
  look := look maxPayload
  look_nil := rfl
  consumed_le h := (of_parseFrameDetailed (look_of_item h).1).2
  stable h m := by
    have hfinal := parseFrameDetailed_append (mt look_eq_more_iff.mpr h) m
    unfold look
    rw [hfinal]

/-! ## What is visible of the read loop -/

/-- What the read loop does and nobody can keep it from. -/
inductive Visible where
  | message (payload : Bytes)
  | close (code : UInt16)
  | pong (frame : Bytes)
  deriving DecidableEq

/-- What a closure shows. -/
def Posted.visible (p : Posted) : Option Visible :=
  if carries .pong p.bytes then some (.pong p.bytes) else none

/-- What an operation shows. -/
def Op.visible : Op → Option Visible
  | onMessage payload => some (.message payload)
  | onClose code => some (.close code)
  | post p => p.visible
  | _ => none

/-- What a frame calls for. -/
def frameShows (frame : ParsedFrame) : List Visible :=
  match frame.opcode with
  | .text | .binary => [.message frame.payload]
  | .ping => [.pong (emitFrame .pong true frame.payload)]
  | _ => []

/-- What the end of the loop calls for. -/
def endingShows : Progress → List Visible
  | .error (.closedByPeer payload) => [.close (closeCode payload)]
  | _ => []

/-- What the frames of a stream, and its end, call for. -/
def shows (decoded : List ParsedFrame × Progress) : List Visible :=
  decoded.1.flatMap frameShows ++ endingShows decoded.2

/-! ## Application code shows nothing -/

theorem visible_of_not_pong {p : Posted} {opcode : Opcode} {fin : Bool} {payload : Bytes}
    (h : p.bytes = emitFrame opcode fin payload) (hop : opcode ≠ .pong) : p.visible = none := by
  rw [Posted.visible, h, carries_emitFrame, if_neg (by simp [hop])]

/-- Nothing of it is visible. -/
abbrev Hidden {α : Type} (c : Thread α) : Prop := c.Avoids fun op ↦ op.visible ≠ none

theorem hidden_sendClose (code : UInt16) (reason : Bytes) : Hidden (sendClose code reason) := by
  refine ⟨not_not.mpr rfl, ?_⟩
  rintro (_ | _)
  · trivial
  · exact ⟨not_not.mpr (visible_of_not_pong rfl (by decide)), fun _ ↦ trivial⟩

theorem hidden_send {opcode : Opcode} (h : opcode ≠ .pong) (data : Bytes) :
    Hidden (send opcode data) := by
  refine ⟨not_not.mpr rfl, ?_⟩
  rintro (_ | _)
  · exact ⟨not_not.mpr (visible_of_not_pong rfl h), fun _ ↦ trivial⟩
  · trivial

theorem hidden_call (c : Call) : Hidden c.run := by
  cases c with
  | sendText message => exact hidden_send (by decide) message
  | sendBinary data => exact hidden_send (by decide) data
  | closeGraceful code reason =>
    refine ⟨not_not.mpr rfl, ?_⟩
    rintro (_ | _)
    · refine avoids_andThen (fun _ ↦ ?_) (hidden_sendClose code reason)
      trivial
    · trivial
  | sendFromBus message =>
    refine ⟨not_not.mpr rfl, ?_⟩
    rintro (_ | _)
    · exact ⟨not_not.mpr (visible_of_not_pong rfl (by decide)), fun _ ↦ trivial⟩
    · trivial
  | isClosed => exact ⟨not_not.mpr rfl, fun _ ↦ trivial⟩

theorem hidden_runCode (code : Code) : Hidden (runCode code) := avoids_interpret hidden_call code

theorem hidden_closeSession : Hidden closeSession := ⟨not_not.mpr rfl, fun _ ↦ trivial⟩

/-! ## The read loop -/

theorem emits_handleFrame {frame : ParsedFrame} (hclose : frame.opcode ≠ .close)
    (hcont : frame.opcode ≠ .continuation) :
    (handleFrame frame).Emits Op.visible none (frameShows frame) := by
  obtain ⟨opcode, fin, payload⟩ := frame
  cases opcode with
  | continuation => exact absurd rfl hcont
  | close => exact absurd rfl hclose
  | pong => exact emits_ret none
  | ping =>
    have hvisible : Op.visible (.post (.priority (emitFrame .pong true payload)))
        = some (.pong (emitFrame .pong true payload)) := by
      rw [Op.visible, Posted.visible, Posted.bytes, carries_emitFrame]
      rfl
    exact (emits_call_of_some hvisible).mpr ⟨[], rfl, fun _ ↦ emits_ret none⟩
  | text =>
    exact ⟨[], rfl, fun code ↦
      emits_andThen_of_avoids (fun _ ↦ emits_ret none) (hidden_runCode code)⟩
  | binary =>
    exact ⟨[], rfl, fun code ↦
      emits_andThen_of_avoids (fun _ ↦ emits_ret none) (hidden_runCode code)⟩

/-- What a Close frame shows: `on_close`, whoever sends the Close frame of the session. -/
theorem emits_handleFrame_close (fin : Bool) (payload : Bytes) :
    (handleFrame ⟨.close, fin, payload⟩).Emits Op.visible (some (.closedByPeer payload))
      [.close (closeCode payload)] := by
  refine emits_andThen_of_avoids (fun _ ↦ ?_) (hidden_sendClose _ _)
  refine emits_andThen_of_avoids (fun _ ↦ ?_) hidden_closeSession
  exact ⟨[], rfl, fun code ↦
    emits_andThen_of_avoids (fun _ ↦ emits_ret _) (hidden_runCode code)⟩

theorem emits_handleError (error : WebSocketError) :
    (handleError error).Emits Op.visible (.violated error) [] := by
  have hsend : Hidden (if error.code = .frameTooLarge then
      sendClose kCloseMessageTooLarge (ascii "Message too large")
      else sendClose kCloseProtocolError (ascii "Protocol error")) := by
    split
    · exact hidden_sendClose _ _
    · exact hidden_sendClose _ _
  exact emits_andThen_of_avoids (fun _ ↦ emits_andThen_of_avoids (fun _ ↦ emits_ret _)
    hidden_closeSession) hsend

theorem emits_parseFrames (l : Bytes) :
    (parseFrames maxPayload l.length l).Emits Op.visible ((frames maxPayload).decode l).2
      (shows ((frames maxPayload).decode l)) := by
  induction l using parse_induction maxPayload with
  | awaits l h =>
    rw [parseFrames_of_awaits h, Decoder.decode_of_more (look_eq_more_iff.mpr h)]
    exact emits_ret _
  | error l err h hkind =>
    rw [parseFrames_violation h hkind,
      Decoder.decode_of_stop (D := frames maxPayload) (look_of_error h hkind)]
    change Emits _ (Except.error (Ending.violated err.error)) _ ([] ++ [])
    exact emits_andThen (f := fun ending ↦ ret (Except.error ending)) (emits_ret _)
      (emits_handleError err.error)
  | ok l result h ih =>
    obtain ⟨hcont, -⟩ := of_parseFrameDetailed h
    obtain ⟨⟨opcode, fin, payload⟩, consumed⟩ := result
    rw [parseFrames_frame h]
    by_cases hclose : opcode = .close
    · subst hclose
      rw [Decoder.decode_of_stop (D := frames maxPayload) (look_of_close h)]
      change Emits _ (Except.error (Ending.closedByPeer payload)) _
        ([Visible.close (closeCode payload)] ++ [])
      exact emits_andThen (f := unlessEnded _) (emits_ret _) (emits_handleFrame_close fin payload)
    · rw [Decoder.decode_of_item (D := frames maxPayload) (look_of_ok h hclose), shows,
        List.flatMap_cons, List.append_assoc]
      exact emits_andThen (f := unlessEnded _) ih (emits_handleFrame hclose hcont)

theorem emits_afterLoop (progress : Progress) :
    (afterLoop progress).Emits Op.visible progress [] := by
  cases progress with
  | ok rest => exact emits_ret _
  | error ending => exact emits_andThen_of_avoids (fun _ ↦ emits_ret _) hidden_closeSession

/-- **The read loop shows what the stream calls for**, whatever happens around it. -/
theorem emits_doReadLoop {chunk : Bytes} (h : chunk ≠ []) (accumulator : Bytes) :
    (doReadLoop maxPayload accumulator (some chunk)).Emits Op.visible
      ((frames maxPayload).decode (accumulator ++ chunk)).2
      (shows ((frames maxPayload).decode (accumulator ++ chunk))) := by
  rw [doReadLoop, afterRead, if_neg h, ← List.append_nil (shows _)]
  exact emits_andThen (emits_afterLoop _) (emits_parseFrames _)

/-- When the connection is gone, the read loop shows nothing any more. -/
theorem emits_doReadLoop_lost {read : Option Bytes} (h : read.getD [] = []) (accumulator : Bytes) :
    (doReadLoop maxPayload accumulator read).Emits Op.visible (.error .lost) [] := by
  have hlost : afterRead maxPayload accumulator read
      = closeSession.andThen fun _ ↦ ret (.error .lost) := by
    cases read with
    | none => rfl
    | some chunk => exact if_pos h
  rw [doReadLoop, hlost, andThen_assoc]
  exact emits_andThen_of_avoids (fun _ ↦ emits_afterLoop (.error .lost)) hidden_closeSession

end Session

end Aevox
