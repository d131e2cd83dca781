import Aevox.App.Connection
import Aevox.Library.Nested

/-!
# The coroutines of the server

A request is served by coroutines that await one another: the connection handler awaits
`dispatch_with_pipeline`, that awaits the outermost function object of the chain, this one the
middleware's `operator()` and so on, down to `Router::dispatch` and the handler. Here each of them
is a coroutine of its own, as in the source. Together they do what the task of the pipeline does
(`denote_dispatchWithPipeline`), which is the same thing with all awaits spelled out.

The connection handler itself loops. It is a program whose codes are the points between its awaits,
beside the coroutines that end.
-/

namespace Aevox

open Coroutine Frames

/-! ## Results and operations -/

/-- The `T` of the `Task<T>`s. -/
inductive ResultType where
  | void
  | response
  /-- `std::expected<WebSocket, WebSocketError>` -/
  | upgraded
  /-- What reading from the stream gives; no data on an I/O error. -/
  | data
  /-- Whether writing to the stream succeeded. -/
  | written
  /-- Of an awaitable of the application. -/
  | awaited
  deriving DecidableEq

/-- Its values. -/
def ResultType.El : ResultType → Type
  | .void => Unit
  | .response => Response
  | .upgraded => Except WebSocketError Unit
  | .data => Option Bytes
  | .written => Bool
  | .awaited => ℕ

/-- The operations of a connection. -/
inductive ServerOp where
  /-- `ReadAwaitable` -/
  | read
  /-- The request is made of what the parser returned and gets the stream. -/
  | attach (req : Request)
  | task (op : TaskOp)
  deriving DecidableEq

/-- The answers to the operations. -/
def ServerOp.Answer : ServerOp → Type
  | .read => Option Bytes
  | .attach _ => Unit
  | .task op => op.Answer

/-- A coroutine that ends. -/
abbrev Coro (a : ResultType) : Type := Nested ServerOp ServerOp.Answer Exn ResultType.El a

namespace Coro

/-- `TcpStream::read` -/
def read : Coro .data := .call .read fun (data : Option Bytes) ↦ .ret data

/-- `TcpStream::write` -/
def write (bytes : Bytes) : Coro .written :=
  .call (.task (.write bytes)) fun (success : Bool) ↦ .ret success

/-- An awaitable of the application. -/
def awaitable : Coro .awaited := .call (.task .await) fun (answer : ℕ) ↦ .ret answer

/-- `Request::upgrade_websocket` -/
def upgradeWebsocket (platform : Platform) (req : Request) : Coro .upgraded :=
  .call (.task .streamRef) fun (present : Bool) ↦
    if present then
      match validateHandshake req.handshakeHeaders with
      | .error e => .ret (.error e : Except WebSocketError Unit)
      | .ok () =>
        let key := platform.acceptKey req.handshakeHeaders.secWebsocketKey
        (write (upgradeResponse key)).andThen fun (written : Bool) ↦
          if written then .call (.task .handOver) fun _ ↦ .ret (.ok () : Except WebSocketError Unit)
          else .ret (.error ⟨.sendFailed, ascii "Failed to write HTTP 101 response"⟩ :
            Except WebSocketError Unit)
    else
      .ret (.error ⟨.invalidHandshake, ascii "No TcpStream available for upgrade"⟩ :
        Except WebSocketError Unit)

/-- A handler. -/
def handler (platform : Platform) (req : Request) : HandlerCode → Coro .response
  | .ret res => .ret res
  | .raise e => .raise e
  | .call .await k => awaitable.andThen fun (answer : ℕ) ↦ handler platform req (k answer)
  | .call .upgradeWebsocket k =>
    (upgradeWebsocket platform req).andThen fun (result : Except WebSocketError Unit) ↦
      handler platform req (k result)

/-- A middleware, with the `Task`s its first call of `next` returns and every later one. -/
def middleware (platform : Platform) (req : Request) (first again : Coro .response) :
    MiddlewareCode → Coro .response
  | .ret res => .ret res
  | .raise e => .raise e
  | .call (.api .await) k =>
    awaitable.andThen fun (answer : ℕ) ↦ middleware platform req first again (k answer)
  | .call (.api .upgradeWebsocket) k =>
    (upgradeWebsocket platform req).andThen fun (result : Except WebSocketError Unit) ↦
      middleware platform req first again (k result)
  | .call .next k =>
    .await first fun (r : Except Exn Response) ↦ middleware platform req again again (k r)

/-- `std::move_only_function<Task<Response>(Request&)>` -/
structure Next where
  first : Request → Coro .response
  again : Request → Coro .response

/-- A function object without a target. -/
def Next.empty : Next :=
  ⟨fun _ ↦ .call (.task .callEmpty) fun (x : Empty) ↦ x.elim,
    fun _ ↦ .call (.task .callEmpty) fun (x : Empty) ↦ x.elim⟩

/-- `Middleware::operator()` -/
def invoke (platform : Platform) (mw : Middleware) (req : Request) (next : Next) :
    Coro .response :=
  match mw.fn with
  | none => .ret (Response.badRequest (ascii "Internal middleware error"))
  | some fn => (middleware platform req (next.first req) (next.again req) (fn req)).andThen .ret

/-- The lambda that wraps a middleware around `prev`. -/
def Next.wrap (platform : Platform) (stage : Stage) (mw : Middleware) (prev : Next) : Next where
  first req := .call (.task (.enter stage)) fun _ ↦ (invoke platform mw req prev).andThen .ret
  again req := .call (.task (.enter stage)) fun _ ↦ (invoke platform mw req .empty).andThen .ret

/-- `Router::dispatch` -/
def routerDispatch (app : App) (req : Request) : Coro .response :=
  .call (.task (.enter .router)) fun _ ↦
    match app.router.dispatch req.method req.path with
    | .invoke code captured =>
      (handler app.platform (req.withParams captured) (code (req.withParams captured))).andThen .ret
    | .respond res => .ret res

/-- The innermost function object. -/
def callRouter (app : App) (req : Request) : Coro .response := (routerDispatch app req).andThen .ret

/-- Both passes of wrapping. -/
def wrapAll (app : App) (layers : List (Stage × Middleware)) (next : Next) : Next :=
  layers.foldr (fun layer next ↦ next.wrap app.platform layer.1 layer.2) next

/-- `dispatch_with_pipeline` -/
def dispatchWithPipeline (app : App) (req : Request) : Coro .response :=
  if app.globalMiddlewares = [] ∧ app.scopedMiddlewares = [] then
    (routerDispatch app req).andThen .ret
  else
    let next : Next := ⟨callRouter app, callRouter app⟩
    let next := wrapAll app (app.matchingScoped req.path) next
    let next := wrapAll app app.globalLayers next
    (next.first req).andThen .ret

end Coro

/-! ## What they do -/

/-- A task among the operations of the connection. -/
def Task.onServer {α : Type} : Task α → Coroutine ServerOp ServerOp.Answer Exn α
  | .ret a => .ret a
  | .raise e => .raise e
  | .call op k => .call (.task op) fun x ↦ onServer (k x)

namespace Task

variable {α β : Type}

theorem onServer_attempt (task : Task α) (f : Except Exn α → Task β) :
    onServer (task.attempt f) = (onServer task).attempt fun r ↦ onServer (f r) := by
  induction task with
  | ret a => rfl
  | raise e => rfl
  | call op k ih => exact congrArg _ (funext ih)

theorem onServer_andThen (task : Task α) (f : α → Task β) :
    onServer (task.andThen f) = (onServer task).andThen fun a ↦ onServer (f a) := by
  refine (onServer_attempt task _).trans (congrArg _ (funext fun r ↦ ?_))
  rcases r with e | a
  · rfl
  · rfl

end Task

namespace Coro

theorem denote_upgradeWebsocket (platform : Platform) (req : Request) :
    (upgradeWebsocket platform req).denote
      = Task.onServer (Aevox.upgradeWebsocket platform req) := by
  refine congrArg (Coroutine.call (ServerOp.task .streamRef)) (funext fun present ↦ ?_)
  rcases present with _ | _
  · rfl
  · dsimp only
    rw [if_pos rfl, if_pos rfl]
    rcases validateHandshake req.handshakeHeaders with e | _
    · rfl
    · refine congrArg (Coroutine.call (ServerOp.task (.write _))) (funext fun written ↦ ?_)
      rcases written with _ | _
      · rfl
      · rfl

theorem denote_handler (platform : Platform) (req : Request) (code : HandlerCode) :
    (handler platform req code).denote = Task.onServer (code.run platform req) := by
  induction code with
  | ret res => rfl
  | raise e => rfl
  | call op k ih =>
    rcases op with _ | _
    · refine (Nested.denote_andThen _ _).trans ?_
      exact congrArg (Coroutine.call (ServerOp.task .await)) (funext ih)
    · refine (Nested.denote_andThen _ _).trans ?_
      rw [denote_upgradeWebsocket]
      refine Eq.trans ?_ (Task.onServer_andThen _ _).symm
      exact congrArg _ (funext ih)

theorem denote_middleware (platform : Platform) (req : Request) (code : MiddlewareCode) :
    ∀ {first again : Coro .response} {first' again' : Task Response},
      first.denote = Task.onServer first' → again.denote = Task.onServer again' →
      (middleware platform req first again code).denote
        = Task.onServer (code.run platform req first' again') := by
  induction code with
  | ret res => exact fun _ _ ↦ rfl
  | raise e => exact fun _ _ ↦ rfl
  | call op k ih =>
    intro first again first' again' hfirst hagain
    rcases op with (_ | _) | _
    · refine (Nested.denote_andThen _ _).trans ?_
      exact congrArg (Coroutine.call (ServerOp.task .await)) (funext fun x ↦ ih x hfirst hagain)
    · refine (Nested.denote_andThen _ _).trans ?_
      rw [denote_upgradeWebsocket]
      refine Eq.trans ?_ (Task.onServer_andThen _ _).symm
      exact congrArg _ (funext fun x ↦ ih x hfirst hagain)
    · refine Eq.trans ?_ (Task.onServer_attempt _ _).symm
      rw [← hfirst]
      exact congrArg (first.denote.attempt) (funext fun r ↦ ih r hagain hagain)

theorem denote_invoke (platform : Platform) (mw : Middleware) {req : Request} {next : Next}
    {next' : Aevox.Next} (hfirst : (next.first req).denote = Task.onServer (next'.first req))
    (hagain : (next.again req).denote = Task.onServer (next'.again req)) :
    (invoke platform mw req next).denote = Task.onServer (mw.invoke platform req next') := by
  rw [invoke, Middleware.invoke]
  rcases mw.fn with _ | fn
  · rfl
  · exact (Nested.denote_andThen_ret _).trans (denote_middleware platform req _ hfirst hagain)

theorem denote_wrapAll (app : App) {req : Request} {next : Next} {next' : Aevox.Next}
    (hfirst : (next.first req).denote = Task.onServer (next'.first req))
    (hagain : (next.again req).denote = Task.onServer (next'.again req))
    (layers : List (Stage × Middleware)) :
    ((wrapAll app layers next).first req).denote
        = Task.onServer ((app.wrapAll layers next').first req) ∧
      ((wrapAll app layers next).again req).denote
        = Task.onServer ((app.wrapAll layers next').again req) := by
  have hempty : ∀ x : Empty, (x.elim : Coro .response).denote = Task.onServer x.elim :=
    fun x ↦ x.elim
  induction layers with
  | nil => exact ⟨hfirst, hagain⟩
  | cons layer layers ih =>
    obtain ⟨ih₁, ih₂⟩ := ih
    constructor
    · refine congrArg (Coroutine.call (ServerOp.task (.enter layer.1))) (funext fun _ ↦ ?_)
      exact (Nested.denote_andThen_ret _).trans (denote_invoke app.platform layer.2 ih₁ ih₂)
    · refine congrArg (Coroutine.call (ServerOp.task (.enter layer.1))) (funext fun _ ↦ ?_)
      refine (Nested.denote_andThen_ret _).trans (denote_invoke app.platform layer.2 ?_ ?_)
      · exact congrArg (Coroutine.call (ServerOp.task .callEmpty)) (funext hempty)
      · exact congrArg (Coroutine.call (ServerOp.task .callEmpty)) (funext hempty)

theorem denote_routerDispatch (app : App) (req : Request) :
    (routerDispatch app req).denote = Task.onServer (app.routerDispatch req) := by
  refine congrArg (Coroutine.call (ServerOp.task (.enter .router))) (funext fun _ ↦ ?_)
  dsimp only
  rcases app.router.dispatch req.method req.path with ⟨code, captured⟩ | res
  · exact (Nested.denote_andThen_ret _).trans (denote_handler _ _ _)
  · rfl

/-- **The coroutines of the pipeline do what its task does.** -/
theorem denote_dispatchWithPipeline (app : App) (req : Request) :
    (dispatchWithPipeline app req).denote = Task.onServer (app.dispatchWithPipeline req) := by
  have hrouter : (callRouter app req).denote = Task.onServer (app.routerDispatch req) :=
    (Nested.denote_andThen_ret _).trans (denote_routerDispatch app req)
  rw [dispatchWithPipeline, App.dispatchWithPipeline]
  split
  · exact hrouter
  · refine (Nested.denote_andThen_ret _).trans ?_
    let inner : Next := ⟨callRouter app, callRouter app⟩
    let inner' : Aevox.Next := ⟨app.routerDispatch, app.routerDispatch⟩
    have hinner : (inner.first req).denote = Task.onServer (inner'.first req) := hrouter
    obtain ⟨hfirst, hagain⟩ := denote_wrapAll app hinner hinner (app.matchingScoped req.path)
    exact (denote_wrapAll app hfirst hagain app.globalLayers).1

end Coro

/-! ## The connection handler -/

/-- A point of the code that runs for a connection. -/
inductive ServerCode (σ : Type) : ResultType → Type
  | coro {a : ResultType} (t : Coro a) : ServerCode σ a
  /-- `dispatch_handler`, which nobody awaits. -/
  | dispatchHandler : ServerCode σ .void
  /-- `connection_handler`, at the head of its loop. -/
  | loop (parser : HttpParser σ) : ServerCode σ .void
  /-- The read is over. -/
  | received (parser : HttpParser σ) (data : Option Bytes) : ServerCode σ .void
  /-- The request is ready to be dispatched. -/
  | attached (parser : HttpParser σ) (keepAlive : Bool) (req : Request) : ServerCode σ .void
  /-- The pipeline has returned. -/
  | dispatched (parser : HttpParser σ) (keepAlive : Bool) (res : Response) : ServerCode σ .void
  /-- The write of the response is over. -/
  | responded (parser : HttpParser σ) (keepAlive success : Bool) : ServerCode σ .void
  /-- The write of the 400 response is over. -/
  | refused (success : Bool) : ServerCode σ .void

namespace ServerCode

variable {σ : Type}

/-- How an await goes on that lets exceptions through. -/
def onValue {b : ResultType} (k : b.El → ServerCode σ .void) :
    Except Exn b.El → ServerCode σ .void
  | .ok v => k v
  | .error e => .coro (.raise e)

/-- `co_await stream.read(max_read)` -/
def awaitRead (parser : HttpParser σ) :
    Action ServerOp ServerOp.Answer Exn ResultType.El (ServerCode σ) .void :=
  .await (.coro .read) (onValue (.received parser))

variable (L : Llhttp σ) (app : App) (config : AppConfig)

/-- The request made of what the parser returned. -/
def requestOf (parser : HttpParser σ) (parsed : ParsedRequest HeaderView) : Request :=
  Conn.requestOf app config ⟨parser, false, [], .reading⟩ parsed

/-- What happens from a point to the next await. -/
def next : ∀ {a : ResultType}, ServerCode σ a →
    Action ServerOp ServerOp.Answer Exn ResultType.El (ServerCode σ) a
  | _, coro t => t.action .coro
  | _, dispatchHandler =>
    .await (.loop (.create L config.parserConfig app.platform.growth))
      (onValue fun v ↦ .coro (.ret v))
  | _, loop parser => awaitRead parser
  | _, received _ none => .ret ()
  | _, received parser (some data) =>
    if data = [] then .ret ()
    else
      match parser.feed L data with
      | (.ok parsed, parser') =>
        let req := requestOf app config parser' parsed
        .call (.attach req) fun _ ↦ .attached parser' parsed.keepAlive req
      | (.error .incomplete, parser') => awaitRead parser'
      | (.error _, _) =>
        .await (.coro (.write (serializeResponse (.badRequest (ascii "Bad Request")))))
          (onValue .refused)
  | _, attached parser keepAlive req =>
    .await (.coro (.dispatchWithPipeline app req)) (onValue (.dispatched parser keepAlive))
  | _, dispatched parser keepAlive res =>
    if res.statusCode = kStatusSwitchingProtocols then .ret ()
    else
      .await (.coro (.write (serializeResponse res))) (onValue (.responded parser keepAlive))
  | _, responded parser keepAlive success =>
    if success ∧ keepAlive then awaitRead (parser.reset L) else .ret ()
  | _, refused _ => .ret ()

end ServerCode

/-- The program of a server. -/
def server {σ : Type} (L : Llhttp σ) (app : App) (config : AppConfig) :
    Program ServerOp ServerOp.Answer Exn ResultType.El where
  Code := ServerCode σ
  next := ServerCode.next L app config

/-- What is posted for a connection. -/
def server.connection {σ ρ : Type} (L : Llhttp σ) (app : App) (config : AppConfig) :
    ρ → (server L app config).Code .void := fun _ ↦ ServerCode.dispatchHandler

/-- The coroutines that end are among its codes. -/
def server.coros {σ : Type} (L : Llhttp σ) (app : App) (config : AppConfig) :
    Nested.Embedding (server L app config) := ⟨.coro, fun _ ↦ rfl⟩

end Aevox
