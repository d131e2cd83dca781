import Aevox.Http.Parser
import Aevox.Http.Response
import Aevox.Library.Contract

/-!
# Tasks

The coroutines of the server. A `Task` is what the framework runs for a request: it suspends in a
write or in some awaitable of the application, asks whether the request still refers to the
connection's stream, and hands the stream over. Which middleware and when the router is entered is
part of the record, as `enter`.

Handlers and middleware are application code: they can only await, upgrade the request to a
WebSocket and, in the case of middleware, call `next`. Their code is a coroutine of its own, over
those operations, and running it means carrying them out as a task.

## The stream

Who may touch the stream is a contract between a task and the connection: a write and a hand-over
need a request that still refers to the stream, and after the hand-over it does not. The only code
that does either, `upgrade_websocket`, asks first, so every task keeps the contract.
-/

namespace Aevox

open Coroutine

/-- An exception, which the framework never looks into. -/
abbrev Exn := ℕ

/-- What the model leaves open about the platform. -/
structure Platform where
  /-- `net::compute_accept_key` -/
  acceptKey : Bytes → Bytes
  /-- What reading through a dangling header view happens to show. -/
  stale : HeaderView → Bytes × Bytes
  /-- How `std::vector` grows. -/
  growth : Growth

/-! ## The operations of a task -/

/-- The places a request passes: middleware by the position it was registered at, then the
router. -/
inductive Stage where
  | global (i : ℕ)
  | scoped (i : ℕ)
  | router
  deriving DecidableEq

/-- The operations of a task. -/
inductive TaskOp where
  /-- `co_await` of anything outside the framework. -/
  | await
  /-- Control reaches a stage. -/
  | enter (stage : Stage)
  /-- `impl_->stream()` -/
  | streamRef
  /-- `co_await stream.write(bytes)` -/
  | write (bytes : Bytes)
  /-- The stream is moved into a session and the request's reference to it is cleared. -/
  | handOver
  /-- An empty `move_only_function` is called, which has no behaviour. -/
  | callEmpty
  deriving DecidableEq

/-- The answers to the operations. -/
def TaskOp.Answer : TaskOp → Type
  | .await => ℕ
  | .enter _ => Unit
  | .streamRef => Bool
  | .write _ => Bool
  | .handOver => Unit
  | .callEmpty => Empty

/-- `Task<T>` -/
abbrev Task (α : Type) : Type := Coroutine TaskOp TaskOp.Answer Exn α

/-! ## Upgrading a request -/

/-- The 101 response `upgrade_websocket` writes. -/
def upgradeResponse (acceptKey : Bytes) : Bytes :=
  ascii "HTTP/1.1 101 Switching Protocols\r\n" ++ ascii "Upgrade: websocket\r\n" ++
    ascii "Connection: Upgrade\r\n" ++ ascii "Sec-WebSocket-Accept: " ++ acceptKey ++
    ascii "\r\n\r\n"

/-- `Request::upgrade_websocket` -/
def upgradeWebsocket (platform : Platform) (req : Request) : Task (Except WebSocketError Unit) :=
  call .streamRef fun (present : Bool) ↦
    if present then
      match validateHandshake req.handshakeHeaders with
      | .error e => ret (.error e)
      | .ok () =>
        let key := platform.acceptKey req.handshakeHeaders.secWebsocketKey
        call (.write (upgradeResponse key)) fun (written : Bool) ↦
          if written then call .handOver fun _ ↦ ret (.ok ())
          else ret (.error ⟨.sendFailed, ascii "Failed to write HTTP 101 response"⟩)
    else ret (.error ⟨.invalidHandshake, ascii "No TcpStream available for upgrade"⟩)

/-! ## Application code -/

/-- What a handler can await. -/
inductive HandlerOp where
  | await
  | upgradeWebsocket

/-- The answers a handler gets. -/
def HandlerOp.Answer : HandlerOp → Type
  | .await => ℕ
  | .upgradeWebsocket => Except WebSocketError Unit

/-- What a middleware can await: the same and `next(req)`, which may end in an exception. -/
inductive MiddlewareOp where
  | api (op : HandlerOp)
  | next

/-- The answers a middleware gets. -/
def MiddlewareOp.Answer : MiddlewareOp → Type
  | .api op => op.Answer
  | .next => Except Exn Response

/-- The body of a handler. -/
abbrev HandlerCode : Type := Coroutine HandlerOp HandlerOp.Answer Exn Response

/-- The body of a middleware. -/
abbrev MiddlewareCode : Type := Coroutine MiddlewareOp MiddlewareOp.Answer Exn Response

/-- `ErasedHandler` -/
abbrev Handler : Type := Request → HandlerCode

/-- What an operation of the application does. -/
def HandlerOp.perform (platform : Platform) (req : Request) : (op : HandlerOp) → Task op.Answer
  | .await => call .await ret
  | .upgradeWebsocket => Aevox.upgradeWebsocket platform req

/-- The task a handler's body amounts to. -/
def HandlerCode.run (platform : Platform) (req : Request) (code : HandlerCode) : Task Response :=
  code.interpret (HandlerOp.perform platform req)

/-- The task a middleware's body amounts to, given what the first call of `next` does and what
every later one does. -/
def MiddlewareCode.run (platform : Platform) (req : Request) (first again : Task Response) :
    MiddlewareCode → Task Response
  | .ret res => ret res
  | .raise e => raise e
  | .call (.api op) k =>
    (op.perform platform req).andThen fun x ↦ run platform req first again (k x)
  | .call .next k => first.attempt fun r ↦ run platform req again again (k r)

/-! ## What the framework guarantees about application code -/

/-- The operations only the framework performs. -/
def TaskOp.isInternal : TaskOp → Prop
  | .enter _ => True
  | .callEmpty => True
  | _ => False

theorem avoids_perform (platform : Platform) (req : Request) (op : HandlerOp) :
    (op.perform platform req).Avoids TaskOp.isInternal := by
  rcases op with _ | _
  · exact ⟨id, fun _ ↦ trivial⟩
  · refine ⟨id, fun present ↦ ?_⟩
    rcases present with _ | _
    · trivial
    · dsimp only
      rw [if_pos rfl]
      split
      · trivial
      · refine ⟨id, fun written ↦ ?_⟩
        rcases written with _ | _
        · trivial
        · exact ⟨id, fun _ ↦ trivial⟩

theorem total_perform (platform : Platform) (req : Request) (op : HandlerOp) :
    (op.perform platform req).Total := by
  rcases op with _ | _
  · exact fun _ ↦ trivial
  · intro present
    rcases present with _ | _
    · trivial
    · dsimp only
      rw [if_pos rfl]
      split
      · trivial
      · intro written
        rcases written with _ | _
        · trivial
        · exact fun _ ↦ trivial

theorem live_perform (platform : Platform) (req : Request) (op : HandlerOp) :
    (op.perform platform req).Live := by
  rcases op with _ | _
  · exact ⟨⟨(0 : ℕ)⟩, fun _ ↦ trivial⟩
  · refine ⟨⟨true⟩, fun present ↦ ?_⟩
    rcases present with _ | _
    · trivial
    · dsimp only
      rw [if_pos rfl]
      split
      · trivial
      · refine ⟨⟨true⟩, fun written ↦ ?_⟩
        rcases written with _ | _
        · trivial
        · exact ⟨⟨()⟩, fun _ ↦ trivial⟩

theorem avoids_run (platform : Platform) (req : Request) (code : HandlerCode) :
    (code.run platform req).Avoids TaskOp.isInternal :=
  avoids_interpret (avoids_perform platform req) code

theorem live_run (platform : Platform) (req : Request) (code : HandlerCode) :
    (code.run platform req).Live :=
  live_interpret (live_perform platform req) code

/-! ## The stream contract -/

/-- The stream as a task sees it; the state says whether the request still refers to it. -/
def streamContract : Contract TaskOp TaskOp.Answer Bool where
  requires
    | present, .write _ => present = true
    | present, .handOver => present = true
    | _, _ => True
  ensures
    | present, .streamRef, answer, present' => answer = present ∧ present' = present
    | _, .handOver, _, present' => present' = false
    | present, _, _, present' => present' = present

theorem keeps_await : (call .await ret : Task ℕ).Keeps streamContract :=
  fun _ ↦ ⟨trivial, fun _ _ _ ↦ trivial⟩

theorem keeps_enter {α : Type} {stage : Stage} {task : Task α} (h : task.Keeps streamContract) :
    (call (.enter stage) fun _ ↦ task : Task α).Keeps streamContract :=
  fun _ ↦ ⟨trivial, fun _ s' _ ↦ h s'⟩

/-- `upgrade_websocket` writes and hands over only while the request refers to the stream. -/
theorem keeps_upgradeWebsocket (platform : Platform) (req : Request) :
    (upgradeWebsocket platform req).Keeps streamContract := by
  intro s
  refine ⟨trivial, ?_⟩
  rintro present s' ⟨hs, rfl⟩
  rcases present with _ | _
  · trivial
  · dsimp only
    rw [if_pos rfl]
    split
    · trivial
    · refine ⟨hs.symm, fun written s'' hs'' ↦ ?_⟩
      rcases written with _ | _
      · trivial
      · exact ⟨hs''.trans hs.symm, fun _ _ _ ↦ trivial⟩

theorem keeps_perform (platform : Platform) (req : Request) (op : HandlerOp) :
    (op.perform platform req).Keeps streamContract := by
  rcases op with _ | _
  · exact keeps_await
  · exact keeps_upgradeWebsocket platform req

theorem keeps_run (platform : Platform) (req : Request) (code : HandlerCode) :
    (code.run platform req).Keeps streamContract :=
  Keeps.interpret (keeps_perform platform req) code

end Aevox
