import Aevox.Library.Coroutine
import Aevox.WebSocket.Frame

/-!
# WebSocket sessions

A session is shared by the coroutine that reads from the client, by whatever application code holds
a handle on it, and by the strand that writes to the client. What they share are two atomic flags
and the strand's queue of posted closures; every access to these is an operation of its own, so that
anything may happen between two of them. The read loop and the application's calls are coroutines
over these operations, and `exec` is what an operation does.

A callback of the handler runs inside the read loop. What the application does in it is code over
the session's public calls, and it is the answer to the operation that invokes the callback. A
callback that throws ends the process, so this code has no exceptions.

The strand runs what was posted to it one after another. `runPosted` is one closure, `written` is
what `drain_send_queue` does when a write has completed.
-/

namespace Aevox

open Coroutine

namespace Session

/-! ## What the application can ask for -/

/-- The calls of a `WebSocket` handle, and what a `TopicBus` calls. -/
inductive Call where
  | sendText (message : Bytes)
  | sendBinary (data : Bytes)
  | closeGraceful (code : UInt16) (reason : Bytes)
  | sendFromBus (message : Bytes)
  | isClosed

/-- What a call returns. -/
@[reducible] def Call.Result : Call → Type
  | sendText _ => Except WebSocketError Unit
  | sendBinary _ => Except WebSocketError Unit
  | closeGraceful _ _ => Except WebSocketError Unit
  | sendFromBus _ => Unit
  | isClosed => Bool

/-- Application code that holds a handle. -/
abbrev Code : Type := Coroutine Call Call.Result Empty Unit

/-! ## The shared state -/

/-- A closure posted to `strand_`. -/
inductive Posted where
  /-- by `enqueue_frame` -/
  | frame (frame : Bytes)
  /-- by `enqueue_priority_frame` -/
  | priority (frame : Bytes)
  /-- by `send_from_bus` -/
  | bus (message : Bytes)

/-- The frame a closure puts into the send queue, unless it drops it. -/
def Posted.bytes : Posted → Bytes
  | frame f => f
  | priority f => f
  | bus message => emitFrame .text true message

/-- What a session has done. -/
inductive Entry where
  /-- `on_message` has been called. -/
  | message (payload : Bytes)
  /-- `on_close` has been called. -/
  | close (code : UInt16)
  /-- A closure has been posted to the strand. -/
  | posted (p : Posted)

/-- `kMaxSendQueueDepth` -/
abbrev kMaxSendQueueDepth : ℕ := 128

end Session

/-- The members of a `WebSocketSession` that change, the frame a pending write is about, what the
session has done, and the frames that have entered the send queue. -/
structure Session where
  closed : Bool := false
  closeSent : Bool := false
  strand : List Session.Posted := []
  sendQueue : List Bytes := []
  sending : Bool := false
  inFlight : Option Bytes := none
  log : List Session.Entry := []
  entered : List Bytes := []

namespace Session

/-- An access to what the session shares, or a callback. A compare-and-swap on `close_sent_` is
named after the Close frame that is sent if it succeeds. -/
inductive Op where
  | loadClosed
  | storeClosed
  | claimClose (code : UInt16) (reason : Bytes)
  | post (p : Posted)
  | onMessage (payload : Bytes)
  | onClose (code : UInt16)

/-- What an operation returns; of a callback, what the application does in it. -/
@[reducible] def Op.Answer : Op → Type
  | loadClosed => Bool
  | storeClosed => Unit
  | claimClose _ _ => Bool
  | post _ => Unit
  | onMessage _ => Code
  | onClose _ => Code

/-- Code of the session. -/
abbrev Thread (α : Type) : Type := Coroutine Op Op.Answer Empty α

/-- What an operation does, if the application does `code` when it is called back. -/
def exec (code : Code) : (op : Op) → Session → op.Answer × Session
  | .loadClosed, s => (s.closed, s)
  | .storeClosed, s => ((), { s with closed := true })
  | .claimClose _ _, s => (!s.closeSent, { s with closeSent := true })
  | .post p, s => ((), { s with strand := s.strand ++ [p], log := s.log ++ [.posted p] })
  | .onMessage payload, s => (code, { s with log := s.log ++ [.message payload] })
  | .onClose closeCode, s => (code, { s with log := s.log ++ [.close closeCode] })

/-! ## The strand -/

/-- The head of the loop in `drain_send_queue`. -/
def drainSendQueue (s : Session) : Session :=
  match s.sendQueue with
  | [] => { s with sending := false, inFlight := none }
  | frame :: queue => { s with sendQueue := queue, inFlight := some frame }

/-- `ff_drain_queue`, unless the queue is being drained. -/
def startDrain (s : Session) : Session :=
  if s.sending then s else drainSendQueue { s with sending := true }

/-- `push_back`, with a limit. -/
def pushBack (s : Session) (frame : Bytes) : Session :=
  if s.sendQueue.length ≥ kMaxSendQueueDepth then s
  else startDrain { s with sendQueue := s.sendQueue ++ [frame], entered := s.entered ++ [frame] }

/-- The first closure of the strand runs. -/
def runPosted (s : Session) : Posted → Session
  | .frame frame => s.pushBack frame
  | .priority frame =>
    startDrain { s with sendQueue := frame :: s.sendQueue, entered := s.entered ++ [frame] }
  | .bus message => if s.closed then s else s.pushBack (emitFrame .text true message)

/-- A write has completed. -/
def written (s : Session) (success : Bool) : Session :=
  if success then s.drainSendQueue
  else { s with closed := true, sendQueue := [], sending := false, inFlight := none }

/-! ## Calls -/

/-- `send_text` and `send_binary` -/
def send (opcode : Opcode) (data : Bytes) : Thread (Except WebSocketError Unit) :=
  call .loadClosed fun (closed : Bool) ↦
    if closed then ret (.error ⟨.closed, ascii "WebSocket is closed"⟩)
    else call (.post (.frame (emitFrame opcode true data))) fun _ ↦ ret (.ok ())

/-- The branch behind every compare-and-swap on `close_sent_`. -/
def sendClose (code : UInt16) (reason : Bytes) : Thread Unit :=
  call (.claimClose code reason) fun (won : Bool) ↦
    if won then call (.post (.priority (emitCloseFrame code reason))) fun _ ↦ ret ()
    else ret ()

/-- `close_graceful` -/
def closeGraceful (code : UInt16) (reason : Bytes) : Thread (Except WebSocketError Unit) :=
  call .loadClosed fun (closed : Bool) ↦
    if closed then ret (.error ⟨.closed, ascii "WebSocket is already closed"⟩)
    else (sendClose code reason).andThen fun _ ↦ ret (.ok ())

/-- `send_from_bus` -/
def sendFromBus (message : Bytes) : Thread Unit :=
  call .loadClosed fun (closed : Bool) ↦
    if closed then ret () else call (.post (.bus message)) fun _ ↦ ret ()

/-- What a call does. -/
def Call.run : (c : Call) → Thread c.Result
  | .sendText message => send .text message
  | .sendBinary data => send .binary data
  | .closeGraceful code reason => Session.closeGraceful code reason
  | .sendFromBus message => Session.sendFromBus message
  | .isClosed => call .loadClosed ret

/-- Application code at work. -/
def runCode (code : Code) : Thread Unit := code.interpret Call.run

/-! ## The read loop -/

abbrev kCloseNormal : UInt16 := 1000
abbrev kCloseProtocolError : UInt16 := 1002
abbrev kCloseUnsupportedData : UInt16 := 1003
abbrev kCloseMessageTooLarge : UInt16 := 1009

/-- How the read loop ends. -/
inductive Ending where
  /-- The connection is gone: end of file, or an error. -/
  | lost
  /-- What the client sent is not a frame, or too large. -/
  | violated (error : WebSocketError)
  /-- The client has sent a Close frame. -/
  | closedByPeer (payload : Bytes)
  /-- A continuation frame got through the parser. -/
  | continued
  deriving DecidableEq

/-- Where the read loop stands: it waits for more with what it has not consumed, or it has ended. -/
abbrev Progress : Type := Except Ending Bytes

/-- `close_code` -/
def closeCode (payload : Bytes) : UInt16 :=
  match payload with
  | high :: low :: _ => high.toUInt16 <<< 8 ||| low.toUInt16
  | _ => kCloseNormal

/-- `close_session` -/
def closeSession : Thread Unit := call .storeClosed fun _ ↦ ret ()

/-- One frame. The result says whether, and how, it ends the session. -/
def handleFrame (frame : ParsedFrame) : Thread (Option Ending) :=
  match frame.opcode with
  | .text | .binary =>
    call (.onMessage frame.payload) fun (code : Code) ↦ (runCode code).andThen fun _ ↦ ret none
  | .ping => call (.post (.priority (emitFrame .pong true frame.payload))) fun _ ↦ ret none
  | .pong => ret none
  | .close =>
    (sendClose (closeCode frame.payload) []).andThen fun _ ↦
      closeSession.andThen fun _ ↦
        call (.onClose (closeCode frame.payload)) fun (code : Code) ↦
          (runCode code).andThen fun _ ↦ ret (some (.closedByPeer frame.payload))
  | .continuation =>
    (sendClose kCloseUnsupportedData (ascii "Continuation frames not supported")).andThen fun _ ↦
      closeSession.andThen fun _ ↦ ret (some .continued)

/-- Something that is not a frame. -/
def handleError (error : WebSocketError) : Thread Ending :=
  (if error.code = .frameTooLarge then
      sendClose kCloseMessageTooLarge (ascii "Message too large")
    else sendClose kCloseProtocolError (ascii "Protocol error")).andThen fun _ ↦
    closeSession.andThen fun _ ↦ ret (.violated error)

/-- `session_ended`, or the next frame. -/
def unlessEnded (next : Thread Progress) : Option Ending → Thread Progress
  | some ending => ret (.error ending)
  | none => next

/-- Behind the outer loop. -/
def afterLoop : Progress → Thread Progress
  | .ok rest => ret (.ok rest)
  | .error ending => closeSession.andThen fun _ ↦ ret (.error ending)

variable (maxPayload : ℕ)

/-- All complete frames of the accumulator. The fuel bounds their number: each takes up bytes. -/
def parseFrames : ℕ → Bytes → Thread Progress
  | 0, accumulator => ret (.ok accumulator)
  | fuel + 1, accumulator =>
    if accumulator = [] then ret (.ok accumulator)
    else
      match parseFrameDetailed accumulator maxPayload true with
      | .error err =>
        if err.kind = .incomplete then ret (.ok accumulator)
        else (handleError err.error).andThen fun ending ↦ ret (.error ending)
      | .ok result =>
        (handleFrame result.frame).andThen
          (unlessEnded (parseFrames fuel (accumulator.drop result.bytesConsumed)))

/-- What the loop does with a read. -/
def afterRead (accumulator : Bytes) : Option Bytes → Thread Progress
  | none => closeSession.andThen fun _ ↦ ret (.error .lost)
  | some chunk =>
    if chunk = [] then closeSession.andThen fun _ ↦ ret (.error .lost)
    else parseFrames maxPayload (accumulator ++ chunk).length (accumulator ++ chunk)

/-- `do_read_loop` from a read up to the next one, or to its end. -/
def doReadLoop (accumulator : Bytes) (read : Option Bytes) : Thread Progress :=
  (afterRead maxPayload accumulator read).andThen afterLoop

end Session

end Aevox
