import Aevox.App.Task
import Aevox.Router.Names
import Mathlib.Algebra.Group.Int.Defs

/-!
# Typed handlers

A handler may take path parameters after the request. At registration it is wrapped into a handler
of the request alone (`normaliseHandler`): the wrapper looks the parameters up by the names of the
pattern it was registered with, converts them, and answers 400 on its own if one is missing or does
not convert.

The names are fixed at registration, from the one pattern at hand. A wrapper that was given fewer
names than its handler has parameters looks up the empty name instead, which no parameter has, so it
never enters the handler (`normaliseHandler_of_missing`).
-/

namespace Aevox

open Coroutine

/-! ## Extraction -/

/-- `ParamError` -/
inductive ParamError where
  | notFound
  | badConversion
  deriving DecidableEq

/-- What a handler's parameter is extracted as. The first branch that fits is the one for `int`,
which converts to every arithmetic type, so a `uint`, `float` or `double` is extracted as `int` too
and converted by the call. -/
inductive ParamKind where
  | int
  | string
  deriving DecidableEq

/-- The values of a kind. -/
def ParamKind.Value : ParamKind → Type
  | .int => ℤ
  | .string => Bytes

/-- `std::from_chars` into an `int`, if it consumes the whole text. -/
def intOfChars (raw : Bytes) : Option ℤ :=
  let digits := if raw.head? = some 45 then raw.drop 1 else raw
  if digits = [] ∨ ∃ b ∈ digits, b < 48 ∨ 57 < b then none
  else
    let n : ℤ := digits.foldl (fun n b ↦ 10 * n + (b.toNat - 48)) 0
    let v := if raw.head? = some 45 then -n else n
    if -2 ^ 31 ≤ v ∧ v < 2 ^ 31 then some v else none

/-- `param<T>(name)` -/
def Request.param (req : Request) (name : Bytes) : (kind : ParamKind) → Except ParamError kind.Value
  | .int =>
    match req.findParam name with
    | none => .error .notFound
    | some raw =>
      match intOfChars raw with
      | none => .error .badConversion
      | some v => .ok v
  | .string =>
    match req.findParam name with
    | none => .error .notFound
    | some raw => .ok raw

theorem Request.param_of_findParam_none {req : Request} {name : Bytes}
    (h : req.findParam name = none) (kind : ParamKind) :
    req.param name kind = .error .notFound := by
  cases kind with
  | int => rw [param, h]
  | string => rw [param, h]

/-! ## The wrapper -/

/-- The supported handlers, up to their being coroutines. A coroutine of the request alone may be
empty; every other function is called by its wrapper, whatever it is. -/
inductive RouteHandler where
  | request (h : Option Handler)
  | one (kind : ParamKind) (h : Request → kind.Value → HandlerCode)
  | two (kind₀ kind₁ : ParamKind) (h : Request → kind₀.Value → kind₁.Value → HandlerCode)

/-- The number of typed parameters. -/
def RouteHandler.arity : RouteHandler → ℕ
  | .request _ => 0
  | .one _ _ => 1
  | .two _ _ _ => 2

/-- The message of a handler with one parameter. -/
def badParam (name : Bytes) : ParamKind → Bytes
  | .int => ascii "bad param '" ++ name ++ ascii "': expected int"
  | .string => ascii "bad param '" ++ name ++ ascii "': not found"

/-- The message of a handler with two parameters. -/
def badParamOfTwo (name : Bytes) : ParamKind → Bytes
  | .int => ascii "bad param '" ++ name ++ ascii "': expected int"
  | .string => ascii "bad param '" ++ name ++ ascii "'"

/-- `normalise_handler`. A coroutine of the request alone is passed on as it is, empty or not. -/
def normaliseHandler (handler : RouteHandler) (paramNames : List Bytes) : Option Handler :=
  match handler with
  | .request h => h
  | .one kind h =>
    let name0 := paramNames.getD 0 []
    some fun r ↦
      match r.param name0 kind with
      | .error _ => ret (.badRequest (badParam name0 kind))
      | .ok v => h r v
  | .two kind₀ kind₁ h =>
    let name0 := paramNames.getD 0 []
    let name1 := paramNames.getD 1 []
    some fun r ↦
      match r.param name0 kind₀, r.param name1 kind₁ with
      | .error _, _ => ret (.badRequest (badParamOfTwo name0 kind₀))
      | .ok _, .error _ => ret (.badRequest (badParamOfTwo name1 kind₁))
      | .ok v0, .ok v1 => h r v0 v1

/-- **A wrapper with too few names never enters its handler.** -/
theorem normaliseHandler_of_missing {handler : RouteHandler} {paramNames : List Bytes}
    (hfew : paramNames.length < handler.arity) :
    ∃ h, normaliseHandler handler paramNames = some h ∧
      ∀ r : Request, r.findParam [] = none → ∃ message, h r = ret (.badRequest message) := by
  cases handler with
  | request h => exact absurd hfew (Nat.not_lt_zero _)
  | one kind h =>
    obtain rfl : paramNames = [] := List.eq_nil_of_length_eq_zero (Nat.lt_one_iff.mp hfew)
    refine ⟨_, rfl, fun r hr ↦ ⟨badParam [] kind, ?_⟩⟩
    simp only [List.getD_nil, Request.param_of_findParam_none hr]
  | two kind₀ kind₁ h =>
    have hname1 : paramNames.getD 1 [] = [] := by
      rw [List.getD_eq_getElem?_getD, List.getElem?_eq_none (Nat.le_of_lt_succ hfew)]
      rfl
    refine ⟨_, rfl, fun r hr ↦ ?_⟩
    simp only [hname1, Request.param_of_findParam_none hr]
    rcases r.param (paramNames.getD 0 []) kind₀ with e | v
    · exact ⟨_, rfl⟩
    · exact ⟨_, rfl⟩

/-! ## Responses -/

/-- `dispatch`, with the code of the handler it invokes. -/
def Router.respond (router : Router Handler) (req : Request) : HandlerCode :=
  match router.dispatch req.method req.path with
  | .invoke handler captured => handler (req.withParams captured)
  | .respond res => ret res

theorem findParam_nil_withParams {req : Request} {captured : List (Bytes × Bytes)}
    (h : ∀ kv ∈ captured, kv.1 ≠ []) : (req.withParams captured).findParam [] = none := by
  rw [Request.findParam_withParams, List.find?_eq_none.mpr]
  · rfl
  · exact fun kv hkv ↦ by simpa using h kv hkv

end Aevox
