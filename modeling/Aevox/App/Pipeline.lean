import Aevox.App.Task
import Aevox.Router.Matching

/-!
# The middleware pipeline

`dispatch_with_pipeline` wraps the router's dispatch in the scoped middleware whose prefix matches
the path and these in the global middleware. Each wrapping is a function object that owns the one
below it and gives it away with its first call, so a second call of the same object runs its
middleware with an empty `next`; a `Next` is therefore two tasks, for the first call and for every
later one.

## Who is asked

Whether a scoped middleware takes part is decided by comparing raw strings, whereas the router
compares segments. When all middleware call `next` once, what decides about a middleware is
therefore only `prefixMatches`: if it holds, the middleware is entered on every path of the task and
before the router; if not, it is never entered.
-/

namespace Aevox

open Coroutine

/-- `Middleware`; without a function once it has been moved from. -/
structure Middleware where
  fn : Option (Request → MiddlewareCode)

/-- `std::move_only_function<Task<Response>(Request&)>`: what its first call does, and what every
later call does. -/
structure Next where
  first : Request → Task Response
  again : Request → Task Response

/-- A function object without a target. -/
def Next.empty : Next :=
  ⟨fun _ ↦ call .callEmpty fun x ↦ x.elim, fun _ ↦ call .callEmpty fun x ↦ x.elim⟩

/-- `Middleware::operator()` -/
def Middleware.invoke (platform : Platform) (mw : Middleware) (req : Request) (next : Next) :
    Task Response :=
  match mw.fn with
  | none => ret (.badRequest (ascii "Internal middleware error"))
  | some fn => (fn req).run platform req (next.first req) (next.again req)

/-- The lambda that wraps a middleware around `prev`. -/
def Next.wrap (platform : Platform) (stage : Stage) (mw : Middleware) (prev : Next) : Next where
  first req := call (.enter stage) fun _ ↦ mw.invoke platform req prev
  again req := call (.enter stage) fun _ ↦ mw.invoke platform req .empty

/-- `ScopedMiddlewareEntry` -/
structure ScopedMiddlewareEntry where
  scope : Bytes
  middleware : Middleware

/-- `App::Impl`, as far as requests see it. -/
structure App where
  platform : Platform
  router : Router Handler
  globalMiddlewares : List Middleware
  scopedMiddlewares : List ScopedMiddlewareEntry

namespace App

/-- `co_await router.dispatch(req)` -/
def routerDispatch (app : App) (req : Request) : Task Response :=
  call (.enter .router) fun _ ↦
    match app.router.dispatch req.method req.path with
    | .invoke handler captured =>
      (handler (req.withParams captured)).run app.platform (req.withParams captured)
    | .respond res => ret res

/-- The test of a scoped entry: the path begins with the prefix and ends there or goes on with a
slash. -/
def prefixMatches (scope path : Bytes) : Bool :=
  decide (scope <+: path) && (scope.length = path.length || path[scope.length]? = some slash)

/-- The scoped middleware for a path, in order of registration, each with its position. -/
def matchingScoped (app : App) (path : Bytes) : List (Stage × Middleware) :=
  (app.scopedMiddlewares.zipIdx.filter fun e ↦ prefixMatches e.1.scope path).map fun e ↦
    (.scoped e.2, e.1.middleware)

/-- The global middleware, in order of registration. -/
def globalLayers (app : App) : List (Stage × Middleware) :=
  app.globalMiddlewares.zipIdx.map fun e ↦ (.global e.2, e.1)

/-- Wrapping in reverse order, so that the first of the layers becomes the outermost. -/
def wrapAll (app : App) (layers : List (Stage × Middleware)) (next : Next) : Next :=
  layers.foldr (fun layer next ↦ next.wrap app.platform layer.1 layer.2) next

/-- `dispatch_with_pipeline` -/
def dispatchWithPipeline (app : App) (req : Request) : Task Response :=
  if app.globalMiddlewares = [] ∧ app.scopedMiddlewares = [] then app.routerDispatch req
  else
    let next : Next := ⟨app.routerDispatch, app.routerDispatch⟩
    let next := app.wrapAll (app.matchingScoped req.path) next
    let next := app.wrapAll app.globalLayers next
    next.first req

/-- All layers a request passes, from the outside in. -/
def layers (app : App) (path : Bytes) : List (Stage × Middleware) :=
  app.globalLayers ++ app.matchingScoped path

/-- The fast path is the pipeline without layers. -/
theorem dispatchWithPipeline_eq (app : App) (req : Request) :
    app.dispatchWithPipeline req
      = (app.wrapAll (app.layers req.path) ⟨app.routerDispatch, app.routerDispatch⟩).first req := by
  rw [dispatchWithPipeline]
  split
  · rename_i h
    rw [layers, globalLayers, matchingScoped, h.1, h.2]
    rfl
  · simp only [layers, wrapAll, List.foldr_append]

end App

/-! ## Middleware that calls `next` once -/

namespace MiddlewareCode

/-- `co_return co_await next(req)` -/
def callNext : MiddlewareCode :=
  call .next fun
    | .ok res => ret res
    | .error e => raise e

/-- `next` is not called any more. -/
def NoNext : MiddlewareCode → Prop
  | .ret _ => True
  | .raise _ => True
  | .call (.api _) k => ∀ x, NoNext (k x)
  | .call .next _ => False

/-- `next` is called exactly once, whatever the awaited answers are. -/
def CallsNextOnce : MiddlewareCode → Prop
  | .ret _ => False
  | .raise _ => False
  | .call (.api _) k => ∀ x, CallsNextOnce (k x)
  | .call .next k => ∀ r, NoNext (k r)

variable {platform : Platform} {req : Request}

/-- What the rest of the chain meets, a middleware that calls it meets as well. -/
theorem meets_run {A B : TaskOp → Prop} (hB : ∀ op, B op → op.isInternal)
    {first again : Task Response} (hfirst : first.Meets A B) {code : MiddlewareCode}
    (hcode : CallsNextOnce code) :
    (run platform req first again code).Meets A B := by
  induction code with
  | ret res => exact hcode.elim
  | raise e => exact hcode.elim
  | call op k ih =>
    rcases op with op | _
    -- before it calls `next` a middleware enters nothing
    · exact meets_andThen (fun x ↦ ih x (hcode x))
        (Avoids.mono hB (avoids_perform platform req op)) (total_perform platform req op)
    · exact meets_attempt hfirst

theorem avoids_run {B : TaskOp → Prop} (hB : ∀ op, B op → op.isInternal) {code : MiddlewareCode} :
    ∀ {first again : Task Response}, first.Avoids B → again.Avoids B →
    (run platform req first again code).Avoids B := by
  induction code with
  | ret res => exact fun _ _ ↦ trivial
  | raise e => exact fun _ _ ↦ trivial
  | call op k ih =>
    intro first again hfirst hagain
    rcases op with op | _
    · exact avoids_andThen (fun x ↦ ih x hfirst hagain)
        (Avoids.mono hB (avoids_perform platform req op))
    · exact avoids_attempt (fun r ↦ ih r hagain hagain) hfirst

theorem keeps_run {code : MiddlewareCode} : ∀ {first again : Task Response},
    first.Keeps streamContract → again.Keeps streamContract →
    (run platform req first again code).Keeps streamContract := by
  induction code with
  | ret res => exact fun _ _ _ ↦ trivial
  | raise e => exact fun _ _ _ ↦ trivial
  | call op k ih =>
    intro first again hfirst hagain
    rcases op with op | _
    · exact (keeps_perform platform req op).andThen fun x ↦ ih x hfirst hagain
    · exact hfirst.attempt fun r ↦ ih r hagain hagain

theorem live_run_of_noNext {first again : Task Response} {code : MiddlewareCode}
    (hcode : NoNext code) : (run platform req first again code).Live := by
  induction code with
  | ret res => trivial
  | raise e => trivial
  | call op k ih =>
    rcases op with op | _
    · exact live_andThen (fun x ↦ ih x (hcode x)) (live_perform platform req op)
    · exact hcode.elim

/-- Calling `next` once never runs into a `next` that has been given away. -/
theorem live_run {first again : Task Response} (hfirst : first.Live) {code : MiddlewareCode}
    (hcode : CallsNextOnce code) : (run platform req first again code).Live := by
  induction code with
  | ret res => trivial
  | raise e => trivial
  | call op k ih =>
    rcases op with op | _
    · exact live_andThen (fun x ↦ ih x (hcode x)) (live_perform platform req op)
    · exact live_attempt (fun r ↦ live_run_of_noNext (hcode r)) hfirst

end MiddlewareCode

/-- The middleware calls `next` once on every request. -/
def Middleware.CallsNextOnce (mw : Middleware) : Prop :=
  ∃ fn, mw.fn = some fn ∧ ∀ req, MiddlewareCode.CallsNextOnce (fn req)

/-- A middleware that only passes the request on. -/
def passOn : Middleware := ⟨some fun _ ↦ MiddlewareCode.callNext⟩

theorem callsNextOnce_passOn : passOn.CallsNextOnce := by
  refine ⟨_, rfl, fun req r ↦ ?_⟩
  rcases r with e | res
  · trivial
  · trivial

/-! ## The chain -/

/-- Entering a stage. -/
def enters (stage : Stage) (op : TaskOp) : Prop := op = .enter stage

theorem isInternal_of_enters {stage : Stage} (op : TaskOp) (h : enters stage op) :
    op.isInternal := by
  rw [h]
  trivial

namespace App

variable {app : App}

/-- Every layer of the chain is entered before what lies inside of it. -/
theorem meets_wrapAll {stage : Stage} {next : Next} {req : Request} {ls : List (Stage × Middleware)}
    (hrouter : ∀ l ∈ ls, l.1 ≠ .router) (hall : ∀ l ∈ ls, l.2.CallsNextOnce)
    (hstage : stage ∈ ls.map Prod.fst) :
    ((app.wrapAll ls next).first req).Meets (enters stage) (enters .router) := by
  induction ls with
  | nil => exact absurd hstage List.not_mem_nil
  | cons l ls ih =>
    change Meets _ _ (call (.enter l.1) fun _ ↦ l.2.invoke app.platform req (app.wrapAll ls next))
    rcases List.mem_cons.mp hstage with rfl | hin
    · exact Or.inl rfl
    · refine Or.inr ⟨fun h ↦ hrouter l List.mem_cons_self (TaskOp.enter.inj h), fun _ ↦ ?_⟩
      obtain ⟨fn, hfn, honce⟩ := hall l List.mem_cons_self
      rw [Middleware.invoke, hfn]
      exact MiddlewareCode.meets_run isInternal_of_enters
        (ih (fun x hx ↦ hrouter x (List.mem_cons_of_mem l hx))
          (fun x hx ↦ hall x (List.mem_cons_of_mem l hx)) hin) (honce req)

theorem avoids_wrapAll {stage : Stage} {next : Next} {req : Request}
    (hnext : (next.first req).Avoids (enters stage) ∧ (next.again req).Avoids (enters stage))
    {ls : List (Stage × Middleware)} (hstage : stage ∉ ls.map Prod.fst) :
    ((app.wrapAll ls next).first req).Avoids (enters stage) ∧
      ((app.wrapAll ls next).again req).Avoids (enters stage) := by
  have hempty : (Next.empty.first req).Avoids (enters stage) :=
    ⟨fun h ↦ TaskOp.noConfusion h, fun x ↦ x.elim⟩
  have hinvoke : ∀ (mw : Middleware) {n : Next}, (n.first req).Avoids (enters stage) →
      (n.again req).Avoids (enters stage) →
      (mw.invoke app.platform req n).Avoids (enters stage) := by
    intro mw n h₁ h₂
    rw [Middleware.invoke]
    split
    · trivial
    · exact MiddlewareCode.avoids_run isInternal_of_enters h₁ h₂
  induction ls with
  | nil => exact hnext
  | cons l ls ih =>
    rw [List.map_cons, List.mem_cons, not_or] at hstage
    obtain ⟨hhead, htail⟩ := hstage
    have hne : ¬enters stage (.enter l.1) := fun h ↦ hhead (TaskOp.enter.inj h).symm
    obtain ⟨h₁, h₂⟩ := ih htail
    exact ⟨⟨hne, fun _ ↦ hinvoke l.2 h₁ h₂⟩, ⟨hne, fun _ ↦ hinvoke l.2 hempty hempty⟩⟩

theorem live_wrapAll {next : Next} {req : Request} (hnext : (next.first req).Live)
    {ls : List (Stage × Middleware)} (hall : ∀ l ∈ ls, l.2.CallsNextOnce) :
    ((app.wrapAll ls next).first req).Live := by
  induction ls with
  | nil => exact hnext
  | cons l ls ih =>
    refine ⟨⟨()⟩, fun _ ↦ ?_⟩
    obtain ⟨fn, hfn, honce⟩ := hall l List.mem_cons_self
    rw [Middleware.invoke, hfn]
    exact MiddlewareCode.live_run (ih fun x hx ↦ hall x (List.mem_cons_of_mem l hx)) (honce req)

theorem avoids_routerDispatch {stage : Stage} (hstage : stage ≠ .router) (req : Request) :
    (app.routerDispatch req).Avoids (enters stage) := by
  refine ⟨fun h ↦ hstage (TaskOp.enter.inj h).symm, fun _ ↦ ?_⟩
  dsimp only
  split
  · exact Avoids.mono isInternal_of_enters (Aevox.avoids_run _ _ _)
  · trivial

theorem live_routerDispatch (req : Request) : (app.routerDispatch req).Live := by
  refine ⟨⟨()⟩, fun _ ↦ ?_⟩
  dsimp only
  split
  · exact Aevox.live_run _ _ _
  · trivial

/-! ## The stream -/

theorem keeps_routerDispatch (req : Request) :
    (app.routerDispatch req).Keeps streamContract := by
  apply keeps_enter
  split
  · exact Aevox.keeps_run _ _ _
  · exact fun _ ↦ trivial

theorem keeps_wrapAll {next : Next} {req : Request}
    (hnext : (next.first req).Keeps streamContract ∧ (next.again req).Keeps streamContract)
    (ls : List (Stage × Middleware)) :
    ((app.wrapAll ls next).first req).Keeps streamContract ∧
      ((app.wrapAll ls next).again req).Keeps streamContract := by
  have hempty : (Next.empty.first req).Keeps streamContract := fun _ ↦ ⟨trivial, fun x ↦ x.elim⟩
  have hinvoke : ∀ (mw : Middleware) {n : Next}, (n.first req).Keeps streamContract →
      (n.again req).Keeps streamContract →
      (mw.invoke app.platform req n).Keeps streamContract := by
    intro mw n h₁ h₂
    rw [Middleware.invoke]
    split
    · exact fun _ ↦ trivial
    · exact MiddlewareCode.keeps_run h₁ h₂
  induction ls with
  | nil => exact hnext
  | cons l ls ih =>
    obtain ⟨h₁, h₂⟩ := ih
    exact ⟨keeps_enter (hinvoke l.2 h₁ h₂), keeps_enter (hinvoke l.2 hempty hempty)⟩

/-- **The pipeline keeps the stream contract**, whatever handlers and middleware do. -/
theorem keeps_dispatchWithPipeline (req : Request) :
    (app.dispatchWithPipeline req).Keeps streamContract := by
  rw [dispatchWithPipeline_eq]
  have hrouter : (app.routerDispatch req).Keeps streamContract := keeps_routerDispatch req
  exact (keeps_wrapAll ⟨hrouter, hrouter⟩ _).1

end App

/-- An application without routes and with the middleware `mws`. -/
def middlewareApp (mws : List Middleware) : App :=
  { platform := ⟨id, fun _ ↦ ([], []), .doubling⟩
    router := routerOf []
    globalMiddlewares := mws
    scopedMiddlewares := [] }

end Aevox
