import Aevox.App.Pipeline

/-!
# The pipeline as a composition

A middleware is meant to be a function around the remainder of the chain, which it may call as often
as it likes. The pipeline is then the composition of its layers around the router (`compose`).

The chain is built from function objects that give their remainder away with the first call. It
behaves like the composition until a layer calls `next` once more and the layer inside of it, which
runs with an empty `next` by then, calls that (`Starves`). Everything before this point is the same
for both, so the two agree exactly on the requests that never reach it. Whether a request reaches it
can be decided in the composition: the endings of `next` that lead to another call are those of the
remainder.
-/

namespace Aevox

open Coroutine

/-! ## The composition -/

/-- The middleware around a remainder that can be called any number of times. -/
def Middleware.around (platform : Platform) (stage : Stage) (mw : Middleware)
    (next : Request → Task Response) (req : Request) : Task Response :=
  call (.enter stage) fun _ ↦ mw.invoke platform req ⟨next, next⟩

namespace App

/-- `l₁(l₂(…lₙ(router)))` -/
def compose (app : App) (layers : List (Stage × Middleware)) : Request → Task Response :=
  layers.foldr (fun layer next ↦ layer.2.around app.platform layer.1 next) app.routerDispatch

/-- The layers of a request: all global middleware and the scoped middleware whose prefix test
accepts the path, each in order of registration. -/
def composition (app : App) (req : Request) : Task Response :=
  app.compose (app.layers req.path) req

end App

/-! ## Calls of `next` -/

namespace MiddlewareCode

/-- The middleware comes to call `next` where that is `bad`, which may be judged differently for the
first call and for later ones; `inner` are the endings of a call. -/
def Reaches (platform : Platform) (req : Request) (inner : Bool → Bool → Except Exn Response → Prop)
    (first again : Bool → Prop) : MiddlewareCode → Bool → Prop
  | .ret _, _ => False
  | .raise _, _ => False
  | .call (.api op) k, present =>
    ∃ present' x, (op.perform platform req).Ends streamContract present present' (.ok x) ∧
      Reaches platform req inner first again (k x) present'
  | .call .next k, present =>
    first present ∨ ∃ present' r, inner present present' r ∧
      Reaches platform req inner again again (k r) present'

end MiddlewareCode

/-- The same of a `Middleware`. -/
def Middleware.Reaches (platform : Platform) (req : Request) (mw : Middleware)
    (inner : Bool → Bool → Except Exn Response → Prop) (first again : Bool → Prop)
    (present : Bool) : Prop :=
  ∃ fn, mw.fn = some fn ∧
    MiddlewareCode.Reaches platform req inner first again (fn req) present

namespace App

/-- The outermost layer comes to call its `next` at all. -/
def CallsNext (app : App) (req : Request) : List (Stage × Middleware) → Bool → Prop
  | [], _ => False
  | layer :: layers, present =>
    layer.2.Reaches app.platform req ((app.compose layers req).Ends streamContract)
      (fun _ ↦ True) (fun _ ↦ True) present

/-- A layer comes to call `next` after the first time, and the layer inside of it then calls its own
`next`. -/
def Starves (app : App) (req : Request) : List (Stage × Middleware) → Bool → Prop
  | [], _ => False
  | layer :: layers, present =>
    layer.2.Reaches app.platform req ((app.compose layers req).Ends streamContract)
      (app.Starves req layers) (app.CallsNext req layers) present

end App

/-! ## One layer -/

/-- An empty function object is called. -/
def callsEmpty (op : TaskOp) : Prop := op = .callEmpty

theorem isInternal_of_callsEmpty (op : TaskOp) (h : callsEmpty op) : op.isInternal := by
  rw [h]
  trivial

/-- `task` issues the call of an empty function object where `bad` holds, and agrees with `whole`
everywhere else. -/
def Follows (task whole : Task Response) (bad : Bool → Prop) : Prop :=
  ∀ present, (bad present → task.Issues streamContract callsEmpty present) ∧
    (¬bad present → Agrees streamContract present task whole)

theorem follows_self (task : Task Response) : Follows task task fun _ ↦ False :=
  fun present ↦ ⟨False.elim, fun _ ↦ .refl task present⟩

theorem follows_empty (req : Request) (whole : Task Response) :
    Follows (Next.empty.first req) whole fun _ ↦ True :=
  fun _ ↦ ⟨fun _ ↦ .inl rfl, fun h ↦ absurd trivial h⟩

theorem Follows.enter {stage : Stage} {task whole : Task Response} {bad : Bool → Prop}
    (h : Follows task whole bad) :
    Follows (call (.enter stage) fun _ ↦ task) (call (.enter stage) fun _ ↦ whole) bad := by
  refine fun present ↦ ⟨fun hbad ↦ ?_, fun hgood ↦ .call fun x s' hs' ↦ ?_⟩
  · exact .inr ⟨(), present, rfl, (h present).1 hbad⟩
  · obtain rfl : s' = present := hs'
    exact (h s').2 hgood

variable {platform : Platform} {req : Request}

/-- **A middleware** starves where it comes to call a starving `next`. -/
theorem MiddlewareCode.follows_run {whole : Task Response} {bad' : Bool → Prop}
    {again : Task Response} (hagain : Follows again whole bad') (code : MiddlewareCode) :
    ∀ {first : Task Response} {bad : Bool → Prop}, Follows first whole bad →
      Follows (run platform req first again code) (run platform req whole whole code)
        (Reaches platform req (whole.Ends streamContract) bad bad' code) := by
  induction code with
  | ret res => exact fun _ _ ↦ ⟨False.elim, fun _ ↦ .ret⟩
  | raise e => exact fun _ _ ↦ ⟨False.elim, fun _ ↦ .raise⟩
  | call op k ih =>
    intro first bad hfirst present
    rcases op with op | _
    · refine ⟨?_, fun hgood ↦ (Agrees.refl _ present).attempt ?_⟩
      · rintro ⟨present', x, hend, hbad⟩
        exact issues_attempt_iff.mpr (.inr ⟨present', .ok x, hend, (ih x hfirst present').1 hbad⟩)
      · rintro present' (e | x) hend
        · exact .raise
        · exact (ih x hfirst present').2 fun hbad ↦ hgood ⟨present', x, hend, hbad⟩
    · constructor
      · intro hreaches
        by_cases hbad : bad present
        · exact issues_attempt_iff.mpr (.inl ((hfirst present).1 hbad))
        -- the first call ends as the whole remainder does
        · obtain ⟨present', r, hend, hlater⟩ := hreaches.resolve_left hbad
          have hend := ((hfirst present).2 hbad).ends.mpr hend
          exact issues_attempt_iff.mpr (.inr ⟨present', r, hend, (ih r hagain present').1 hlater⟩)
      · intro hgood
        refine ((hfirst present).2 fun hbad ↦ hgood (.inl hbad)).attempt fun present' r hend ↦ ?_
        exact (ih r hagain present').2 fun hlater ↦ hgood (.inr ⟨present', r, hend, hlater⟩)

theorem Middleware.follows_invoke {mw : Middleware} {next : Next}
    {whole : Request → Task Response} {bad bad' : Bool → Prop}
    (hfirst : Follows (next.first req) (whole req) bad)
    (hagain : Follows (next.again req) (whole req) bad') :
    Follows (mw.invoke platform req next) (mw.invoke platform req ⟨whole, whole⟩)
      (mw.Reaches platform req ((whole req).Ends streamContract) bad bad') := by
  rw [Middleware.invoke, Middleware.invoke]
  cases hfn : mw.fn with
  | none =>
    refine fun present ↦ ⟨?_, fun _ ↦ .refl _ present⟩
    rintro ⟨fn, hsome, -⟩
    cases hfn.symm.trans hsome
  | some fn =>
    refine fun present ↦ ⟨?_, fun hgood ↦ ?_⟩
    · rintro ⟨fn', hsome, hreaches⟩
      obtain rfl := Option.some.inj (hfn.symm.trans hsome)
      exact (MiddlewareCode.follows_run hagain (fn req) hfirst present).1 hreaches
    · exact (MiddlewareCode.follows_run hagain (fn req) hfirst present).2 fun hreaches ↦
        hgood ⟨fn, hfn, hreaches⟩

/-! ## The chain -/

namespace App

variable {app : App}

/-- **The chain**: its first call starves where `Starves` says, a later one where the outermost
layer calls `next` at all. -/
theorem follows_wrapAll (ls : List (Stage × Middleware)) :
    Follows ((app.wrapAll ls ⟨app.routerDispatch, app.routerDispatch⟩).first req)
        (app.compose ls req) (app.Starves req ls) ∧
      Follows ((app.wrapAll ls ⟨app.routerDispatch, app.routerDispatch⟩).again req)
        (app.compose ls req) (app.CallsNext req ls) := by
  induction ls with
  | nil => exact ⟨follows_self _, follows_self _⟩
  | cons l ls ih =>
    have hempty : Follows (Next.empty.first req) (app.compose ls req) fun _ ↦ True :=
      follows_empty req _
    have hagain : Follows (Next.empty.again req) (app.compose ls req) fun _ ↦ True :=
      follows_empty req _
    exact ⟨(Middleware.follows_invoke ih.1 ih.2).enter,
      (Middleware.follows_invoke hempty hagain).enter⟩

theorem avoids_compose (ls : List (Stage × Middleware)) :
    (app.compose ls req).Avoids callsEmpty := by
  induction ls with
  | nil =>
    refine ⟨fun h ↦ TaskOp.noConfusion h, fun _ ↦ ?_⟩
    dsimp only
    split
    · exact Avoids.mono isInternal_of_callsEmpty (Aevox.avoids_run _ _ _)
    · trivial
  | cons l ls ih =>
    refine ⟨fun h ↦ TaskOp.noConfusion h, fun _ ↦ ?_⟩
    dsimp only
    rw [Middleware.invoke]
    split
    · trivial
    · exact MiddlewareCode.avoids_run isInternal_of_callsEmpty ih ih

theorem agrees_iff_not_starves {ls : List (Stage × Middleware)} {present : Bool} :
    Agrees streamContract present
        ((app.wrapAll ls ⟨app.routerDispatch, app.routerDispatch⟩).first req) (app.compose ls req) ↔
      ¬app.Starves req ls present := by
  refine ⟨fun h hstarves ↦ ?_, ((follows_wrapAll ls).1 present).2⟩
  have hissues := ((follows_wrapAll ls).1 present).1 hstarves
  exact h.issues (not_issues_of_avoids (avoids_compose ls) present) hissues

/-- A middleware that calls `next` once starves no more than what it calls. -/
theorem not_reaches_of_callsNextOnce {inner : Bool → Bool → Except Exn Response → Prop}
    {bad bad' : Bool → Prop} (hbad : ∀ present, ¬bad present) {code : MiddlewareCode}
    (hcode : code.CallsNextOnce) :
    ∀ present, ¬code.Reaches platform req inner bad bad' present := by
  have hno : ∀ {code : MiddlewareCode}, code.NoNext →
      ∀ present, ¬code.Reaches platform req inner bad' bad' present := by
    intro code
    induction code with
    | ret res => exact fun _ _ ↦ id
    | raise e => exact fun _ _ ↦ id
    | call op k ih =>
      rcases op with op | _
      · rintro hcode present ⟨present', x, -, hreaches⟩
        exact ih x (hcode x) present' hreaches
      · exact fun hcode ↦ hcode.elim
  induction code with
  | ret res => exact fun _ ↦ id
  | raise e => exact fun _ ↦ id
  | call op k ih =>
    rcases op with op | _
    · rintro present ⟨present', x, -, hreaches⟩
      exact ih x (hcode x) present' hreaches
    · rintro present (h | ⟨present', r, -, hreaches⟩)
      · exact hbad present h
      · exact hno (hcode r) present' hreaches

theorem not_starves_of_callsNextOnce {ls : List (Stage × Middleware)}
    (hall : ∀ l ∈ ls, l.2.CallsNextOnce) : ∀ present, ¬app.Starves req ls present := by
  induction ls with
  | nil => exact fun _ ↦ id
  | cons l ls ih =>
    rintro present ⟨fn, hfn, hreaches⟩
    obtain ⟨fn', hfn', honce⟩ := hall l List.mem_cons_self
    obtain rfl := Option.some.inj (hfn.symm.trans hfn')
    exact not_reaches_of_callsNextOnce
      (ih fun x hx ↦ hall x (List.mem_cons_of_mem l hx)) (honce req) present hreaches

/-- **The pipeline is the composition of its layers** exactly on the requests on which no layer
calls `next` again while the layer inside of it calls its own. -/
theorem dispatchWithPipeline_agrees_iff (app : App) (req : Request) (present : Bool) :
    Agrees streamContract present (app.dispatchWithPipeline req) (app.composition req) ↔
      ¬app.Starves req (app.layers req.path) present := by
  rw [dispatchWithPipeline_eq, composition]
  exact agrees_iff_not_starves

end App

/-- A middleware that tries a second time after a response that is no success. -/
def retrying : Middleware :=
  ⟨some fun _ ↦ call .next fun
    | .ok res => if res.statusCode < 400 then ret res else MiddlewareCode.callNext
    | .error e => raise e⟩

namespace App

/-- Behind a middleware that retries, the second one has lost the router. -/
theorem not_agrees_of_retrying : ¬Agrees streamContract true
    ((middlewareApp [retrying, passOn]).dispatchWithPipeline
      ⟨{ method := ascii "GET", target := ascii "/" }, [], 0⟩)
    ((middlewareApp [retrying, passOn]).composition
      ⟨{ method := ascii "GET", target := ascii "/" }, [], 0⟩) := by
  intro h
  refine h.issues (not_issues_of_avoids (avoids_compose _) true) ?_
  -- through both middleware to the router, and again to the second middleware
  exact .inr ⟨(), true, rfl, .inr ⟨(), true, rfl, .inr ⟨(), true, rfl, .inr ⟨(), true, rfl,
    .inl rfl⟩⟩⟩⟩

end App

end Aevox
