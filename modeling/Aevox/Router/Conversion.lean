import Aevox.Router.FromChars

/-!
# Typed parameters

What a handler with typed parameters is called with. A pattern declares a type for each of its
parameters, and the handler takes them as the C++ types declared, or takes none of them. The
wrapper does not look at the declarations: it picks the first branch whose types the handler can be
called with, and since arithmetic types convert to each other, that branch reads every arithmetic
parameter as an `int` (`find?_candidates₁`, `find?_candidates₂`). A handler without typed
parameters is called on every text.

So a handler is called as declared exactly when each of its parameters is read as declared, or not
called exactly when one of them is no `int` (`convertsByType_iff`).
-/

namespace Aevox

open Coroutine

/-! ## Signatures -/

/-- The types of the parameters a handler takes behind the request. -/
inductive Signature where
  | request
  | one (t : ParamType)
  | two (t₀ t₁ : ParamType)

namespace Signature

/-- The parameters from left to right. -/
def types : Signature → List ParamType
  | .request => []
  | .one t => [t]
  | .two t₀ t₁ => [t₀, t₁]

/-- The arguments behind the request. -/
def Values : Signature → Type
  | .request => Unit
  | .one t => t.Value
  | .two t₀ t₁ => t₀.Value × t₁.Value

/-- What `std::from_chars` makes of the texts, if it accepts them all. -/
def fromChars : (sig : Signature) → List Bytes → Option sig.Values
  | .request, _ => some ()
  | .one t, texts => t.fromChars (texts.getD 0 [])
  | .two t₀ t₁, texts =>
    (t₀.fromChars (texts.getD 0 [])).bind fun v₀ ↦
      (t₁.fromChars (texts.getD 1 [])).map fun v₁ ↦ (v₀, v₁)

/-- The branch of `normalise_handler` a handler of this signature ends up in. -/
def routeHandler : (sig : Signature) → (Request → sig.Values → HandlerCode) → RouteHandler
  | .request, h => .request (some fun r ↦ h r ())
  | .one t, h => .one t.kind fun r v ↦ h r (t.ofKind v)
  | .two t₀ t₁, h => .two t₀.kind t₁.kind fun r v₀ v₁ ↦ h r (t₀.ofKind v₀, t₁.ofKind v₁)

end Signature

/-! ## The chain of branches -/

/-- `std::is_invocable_v` for one parameter: arithmetic types convert to each other. -/
def ParamType.takes (t candidate : ParamType) : Bool := t.kind = candidate.kind

/-- The branches for one parameter, in the order they are tried. -/
def candidates₁ : List ParamType := [.int, .uint, .float, .double, .string]

/-- The branches for two parameters, in the order they are tried. -/
def candidates₂ : List (ParamType × ParamType) :=
  [(.string, .int), (.int, .string), (.int, .int), (.string, .string)]

/-- The declared type of a kind's branch. -/
def ParamKind.candidate : ParamKind → ParamType
  | .int => .int
  | .string => .string

/-- The branches for `uint`, `float` and `double` are never reached. -/
theorem find?_candidates₁ (t : ParamType) :
    candidates₁.find? t.takes = some t.kind.candidate := by
  cases t <;> rfl

theorem find?_candidates₂ (t₀ t₁ : ParamType) :
    candidates₂.find? (fun c ↦ t₀.takes c.1 && t₁.takes c.2)
      = some (t₀.kind.candidate, t₁.kind.candidate) := by
  cases t₀ <;> cases t₁ <;> rfl

/-! ## One parameter -/

/-- A parameter of a handler on one request: its type, the text found under its name, and the text
of its own segment. -/
structure BoundParam where
  type : ParamType
  found : Option Bytes
  own : Bytes

namespace BoundParam

/-- The parameter is read as declared: its own text, which is plain, or another one that happens to
denote the same value. -/
def Alike (p : BoundParam) : Prop :=
  (p.found = some p.own ∧ p.type.Plain p.own) ∨
    ∃ text, p.found = some text ∧ text ≠ p.own ∧
      ∃ v, p.type.read text = some v ∧ p.type.fromChars p.own = some v

/-- Nothing is found, or no `int` where one is read. -/
def Misread (p : BoundParam) : Prop :=
  ∀ text, p.found = some text → p.type.kind = .int ∧ intOfChars text = none

/-- `std::from_chars` does not accept the segment. -/
def Rejected (p : BoundParam) : Prop := p.type.fromChars p.own = none

theorem alike_iff (p : BoundParam) :
    p.Alike ↔ ∃ v, p.found.bind p.type.read = some v ∧ p.type.fromChars p.own = some v := by
  obtain ⟨t, found, own⟩ := p
  rcases found with _ | text
  · simp [Alike]
  · by_cases htext : text = own
    · subst htext
      simp [Alike, ParamType.alike_iff]
    · simp [Alike, htext]

theorem misread_iff (p : BoundParam) : p.Misread ↔ p.found.bind p.type.read = none := by
  obtain ⟨t, found, own⟩ := p
  rcases found with _ | text
  · simp [Misread]
  · have hread : t.read text = none ↔ t.kind = .int ∧ intOfChars text = none := by
      rw [ParamType.read, Option.map_eq_none_iff]
      cases t.kind with
      | int => exact (and_iff_right rfl).symm
      | string => exact iff_of_false (Option.some_ne_none text) fun h ↦ by cases h.1
    simp [Misread, hread]

end BoundParam

/-! ## The route and its place -/

/-- A route on the root router, with what is registered before and after it. -/
structure RouteSlot where
  before : List (Registration Handler)
  method : Fin kMethodCount
  segs : List Segment
  after : List (Registration Handler)

namespace RouteSlot

variable (slot : RouteSlot)

/-- The registration of a handler at this place. -/
def route (handler : Option Handler) : Registration Handler :=
  .route [] slot.method slot.segs handler

/-- All registrations, with a handler at this place. -/
def regs (handler : Option Handler) : List (Registration Handler) :=
  slot.before ++ slot.route handler :: slot.after

/-- The names the pieces of a path are captured under, which do not depend on the handler. -/
def names : List Bytes :=
  TrieNode.trail (shape slot.segs) (build (slot.before ++ .group [] slot.segs :: slot.after))

/-- The parameters the router injects. -/
def captured (path : Bytes) : List (Bytes × Bytes) :=
  slot.names.zip (pathPieces (shape slot.segs) path)

/-- The request as the handler gets it. -/
def injected (req : Request) : Request := req.withParams (slot.captured req.path)

/-- The route is the one the request is dispatched to. -/
def Serves (req : Request) : Prop :=
  ∃ hm : req.method.index < kMethodCount, ∀ handler : Handler,
    invokedRoute (slot.regs (some handler)) ⟨req.method.index, hm⟩ req.path
      = some (slot.route (some handler))

end RouteSlot

theorem TrieNode.trail_congr {η : Type} {word : List Label} : ∀ {a b : TrieNode η},
    (∀ l v, a.nameAt (l :: v) = b.nameAt (l :: v)) → trail word a = trail word b := by
  induction word with
  | nil => exact fun _ ↦ rfl
  | cons l word ih =>
    intro a b h
    have hchild : ∀ v, (a.child l).bind (nameAt · v) = (b.child l).bind (nameAt · v) := by
      intro v
      rw [← nameAt_cons, ← nameAt_cons]
      exact h l v
    rcases ha : a.child l with _ | ca <;> rcases hb : b.child l with _ | cb
    · cases l <;> rw [trail, trail, ha, hb]
    · have hnone := hchild []
      rw [ha, hb] at hnone
      cases hnone
    · have hnone := hchild []
      rw [ha, hb] at hnone
      cases hnone
    · rw [ha, hb] at hchild
      have hsegment : ca.segment = cb.segment := Option.some.inj (hchild [])
      have htrail : trail word ca = trail word cb := ih fun k v ↦ hchild (k :: v)
      cases l <;> rw [trail, trail, ha, hb] <;> simp [hsegment, htrail]

namespace RouteSlot

variable {slot : RouteSlot} {req : Request}

theorem trail_regs (slot : RouteSlot) (handler : Option Handler) :
    TrieNode.trail (shape slot.segs) (build (slot.regs handler)) = slot.names := by
  refine TrieNode.trail_congr fun l v ↦ ?_
  rw [nameAt_build, nameAt_build, firstSpelling, firstSpelling, regs, List.findSome?_append,
    List.findSome?_append]
  rfl

theorem respond_eq (h : slot.Serves req) (handler : Handler) :
    (routerOf (slot.regs (some handler))).respond req = handler (slot.injected req) := by
  obtain ⟨hm, hroute⟩ := h
  obtain ⟨found, hsets, hdispatch⟩ := dispatch_invokedRoute hm (hroute handler)
  rw [route, Registration.sets, Option.ite_none_right_eq_some, Option.some.injEq,
    Option.some.injEq] at hsets
  obtain ⟨-, rfl⟩ := hsets
  have hword : (slot.route (some handler)).word = shape slot.segs := rfl
  rw [hword, trail_regs] at hdispatch
  rw [Router.respond, hdispatch]
  rfl

end RouteSlot

/-! ## What the wrapper calls -/

/-- The code is the handler's on these values; without values it answers 400 on its own. -/
def AnswersWith {V : Type} (r : Request) (outcome : Option V) (h : Request → V → HandlerCode)
    (code : HandlerCode) : Prop :=
  match outcome with
  | some v => code = h r v
  | none => ∃ message, code = ret (.badRequest message)

theorem ret_ok_ne_badRequest (body message : Bytes) :
    (ret (.ok body) : HandlerCode) ≠ ret (.badRequest message) := by
  intro h
  have hstatus : 200 = 400 := congrArg Response.statusCode (Coroutine.ret.inj h)
  exact absurd hstatus (by decide)

/-- Handlers tell apart what they are called with, and whether they are. -/
theorem answersWith_unique {V : Type} {r : Request} {a b : Option V}
    {run : (Request → V → HandlerCode) → HandlerCode}
    (ha : ∀ h, AnswersWith r a h (run h)) (hb : ∀ h, AnswersWith r b h (run h)) : a = b := by
  classical
  have hentered : ∀ {v : V}, (∀ h, AnswersWith r (some v) h (run h)) →
      ¬∀ h, AnswersWith r none h (run h) := by
    intro v hsome hnone
    obtain ⟨message, hmessage⟩ := hnone fun _ _ ↦ ret (.ok [])
    exact ret_ok_ne_badRequest [] message ((hsome fun _ _ ↦ ret (.ok [])).symm.trans hmessage)
  rcases a with _ | v <;> rcases b with _ | w
  · rfl
  · exact absurd ha (hentered hb)
  · exact absurd hb (hentered ha)
  · by_contra hne
    have hvw : w ≠ v := fun h ↦ hne (congrArg some h.symm)
    -- a handler that answers 200 on the one value only
    have hv := ha fun _ x ↦ if x = v then ret (.ok []) else ret (.badRequest [])
    have hw := hb fun _ x ↦ if x = v then ret (.ok []) else ret (.badRequest [])
    rw [AnswersWith, if_pos rfl] at hv
    rw [AnswersWith, if_neg hvw] at hw
    exact ret_ok_ne_badRequest [] [] (hv.symm.trans hw)

theorem Request.toOption_param (r : Request) (name : Bytes) (kind : ParamKind) :
    (r.param name kind).toOption = (r.findParam name).bind kind.parse := by
  cases kind with
  | int =>
    rw [param]
    rcases r.findParam name with _ | raw
    · rfl
    · rw [Option.bind_some, ParamKind.parse]
      dsimp only
      rcases intOfChars raw with _ | n
      · rfl
      · rfl
  | string =>
    rw [param]
    rcases r.findParam name with _ | raw
    · rfl
    · rfl

/-- What a handler's parameter is called with, if the handler is called. -/
def Request.argument (r : Request) (name : Bytes) (t : ParamType) : Option t.Value :=
  (r.findParam name).bind t.read

theorem Request.argument_eq (r : Request) (name : Bytes) (t : ParamType) :
    r.argument name t = (r.param name t.kind).toOption.map t.ofKind := by
  rw [toOption_param, argument]
  rcases r.findParam name with _ | raw
  · rfl
  · rfl

theorem answersWith_one (names : List Bytes) (t : ParamType)
    (h : Request → t.Value → HandlerCode) :
    ∃ wrapper, normaliseHandler (.one t.kind fun r v ↦ h r (t.ofKind v)) names = some wrapper ∧
      ∀ r : Request, AnswersWith r (r.argument (names.getD 0 []) t) h (wrapper r) := by
  refine ⟨_, rfl, fun r ↦ ?_⟩
  rw [Request.argument_eq]
  dsimp only
  rcases r.param (names.getD 0 []) t.kind with e | v
  · exact ⟨_, rfl⟩
  · rfl

theorem answersWith_two (names : List Bytes) (t₀ t₁ : ParamType)
    (h : Request → t₀.Value × t₁.Value → HandlerCode) :
    ∃ wrapper, normaliseHandler
        (.two t₀.kind t₁.kind fun r v₀ v₁ ↦ h r (t₀.ofKind v₀, t₁.ofKind v₁)) names = some wrapper ∧
      ∀ r : Request, AnswersWith r
        ((r.argument (names.getD 0 []) t₀).bind fun v₀ ↦
          (r.argument (names.getD 1 []) t₁).map fun v₁ ↦ (v₀, v₁)) h (wrapper r) := by
  refine ⟨_, rfl, fun r ↦ ?_⟩
  rw [Request.argument_eq, Request.argument_eq]
  dsimp only
  rcases r.param (names.getD 0 []) t₀.kind with e | v₀
  · exact ⟨_, rfl⟩
  · rcases r.param (names.getD 1 []) t₁.kind with e | v₁
    · exact ⟨_, rfl⟩
    · rfl

namespace Signature

/-- The arguments a handler is called with, if it is called. -/
def arguments : (sig : Signature) → Request → List Bytes → Option sig.Values
  | .request, _, _ => some ()
  | .one t, r, names => r.argument (names.getD 0 []) t
  | .two t₀ t₁, r, names =>
    (r.argument (names.getD 0 []) t₀).bind fun v₀ ↦
      (r.argument (names.getD 1 []) t₁).map fun v₁ ↦ (v₀, v₁)

/-- **The wrapper**: it calls the handler with its arguments, or answers 400. -/
theorem answersWith_arguments (sig : Signature) (names : List Bytes)
    (h : Request → sig.Values → HandlerCode) :
    ∃ wrapper, normaliseHandler (sig.routeHandler h) names = some wrapper ∧
      ∀ r, AnswersWith r (sig.arguments r names) h (wrapper r) := by
  cases sig with
  | request => exact ⟨_, rfl, fun _ ↦ rfl⟩
  | one t => exact answersWith_one names t h
  | two t₀ t₁ => exact answersWith_two names t₀ t₁ h

end Signature

/-! ## Conversion by the declared type -/

/-- The types a pattern declares. -/
def declaredTypes : List Segment → List ParamType
  | [] => []
  | .static _ :: segs => declaredTypes segs
  | .param _ t :: segs => t :: declaredTypes segs
  | .wildcard _ :: segs => declaredTypes segs

namespace RouteSlot

variable (slot : RouteSlot) (req : Request)

/-- The texts of the parameters, from left to right. -/
def texts : List Bytes := pathPieces (shape slot.segs) req.path

/-- Every declared type accepts its whole segment. -/
def AllAccepted : Prop :=
  ∀ p ∈ (declaredTypes slot.segs).zip (slot.texts req), (p.1.fromChars p.2).isSome

/-- The parameters of a handler, as the wrapper looks them up. -/
def params (sig : Signature) : List BoundParam :=
  sig.types.mapIdx fun i t ↦
    { type := t
      found := (slot.injected req).findParam ((extractParamNames slot.segs).getD i [])
      own := (slot.texts req).getD i [] }

instance : Decidable (slot.AllAccepted req) :=
  inferInstanceAs (Decidable (∀ p ∈ _, _))

/-- What a handler is to be called with: the values of the whole segments, if the declared types
accept them all. -/
def values (sig : Signature) : Option sig.Values :=
  if slot.AllAccepted req then sig.fromChars (slot.texts req) else none

/-- Whatever the handler, a request of the route enters it with the values of the declared types, or
is answered 400 without it. -/
def ConvertsByType (sig : Signature) : Prop :=
  ∀ h : Request → sig.Values → HandlerCode,
    AnswersWith (slot.injected req) (slot.values req sig) h
      ((routerOf (slot.regs
        (normaliseHandler (sig.routeHandler h) (extractParamNames slot.segs)))).respond req)

end RouteSlot

theorem Signature.accepted_of_fromChars {sig : Signature} {texts : List Bytes} {v : sig.Values}
    (h : sig.fromChars texts = some v) :
    ∀ p ∈ sig.types.zip texts, (p.1.fromChars p.2).isSome := by
  cases sig with
  | request => exact fun p hp ↦ by cases hp
  | one t =>
    rcases texts with _ | ⟨text, texts⟩
    · exact fun p hp ↦ by cases hp
    · have htext : t.fromChars text = some v := h
      exact List.forall_mem_singleton.mpr (Option.isSome_of_mem htext)
  | two t₀ t₁ =>
    obtain ⟨v₀, hv₀, hrest⟩ := Option.bind_eq_some_iff.mp h
    obtain ⟨v₁, hv₁, -⟩ := Option.map_eq_some_iff.mp hrest
    rcases texts with _ | ⟨text₀, _ | ⟨text₁, texts⟩⟩
    · exact fun p hp ↦ by cases hp
    · exact List.forall_mem_singleton.mpr (Option.isSome_of_mem hv₀)
    · exact List.forall_mem_cons.mpr
        ⟨Option.isSome_of_mem hv₀, List.forall_mem_singleton.mpr (Option.isSome_of_mem hv₁)⟩

theorem option_eq_iff {α : Type} {a b : Option α} :
    a = b ↔ (∃ v, a = some v ∧ b = some v) ∨ b = none ∧ a = none := by
  rcases a with _ | v <;> rcases b with _ | w <;> simp [eq_comm]

theorem option_pair_eq_iff {α β : Type} {a₀ b₀ : Option α} {a₁ b₁ : Option β} :
    (a₀.bind fun v₀ ↦ a₁.map fun v₁ ↦ (v₀, v₁)) = (b₀.bind fun v₀ ↦ b₁.map fun v₁ ↦ (v₀, v₁)) ↔
      ((∃ v, a₀ = some v ∧ b₀ = some v) ∧ ∃ v, a₁ = some v ∧ b₁ = some v) ∨
        (b₀ = none ∨ b₁ = none) ∧ (a₀ = none ∨ a₁ = none) := by
  rcases a₀ with _ | v₀ <;> rcases b₀ with _ | w₀ <;> rcases a₁ with _ | v₁ <;>
    rcases b₁ with _ | w₁ <;> simp [eq_comm]

namespace RouteSlot

variable {slot : RouteSlot} {req : Request}

theorem values_request_iff :
    Signature.request.fromChars (slot.texts req) = slot.values req .request ↔
      slot.AllAccepted req := by
  rw [values]
  by_cases h : slot.AllAccepted req
  · exact iff_of_true (if_pos h).symm h
  · rw [if_neg h]
    exact iff_of_false (fun hnone ↦ by cases hnone) h

theorem values_of_types {sig : Signature} (hsig : sig.types = declaredTypes slot.segs) :
    slot.values req sig = sig.fromChars (slot.texts req) := by
  rw [values]
  by_cases h : slot.AllAccepted req
  · exact if_pos h
  · rw [if_neg h]
    rcases hv : sig.fromChars (slot.texts req) with _ | v
    · rfl
    · have haccepted := Signature.accepted_of_fromChars hv
      rw [hsig] at haccepted
      exact absurd haccepted h

/-- The arguments are the values of the segments parameter by parameter, or fail where they do. -/
theorem arguments_eq_iff {sig : Signature} :
    sig.arguments (slot.injected req) (extractParamNames slot.segs) = sig.fromChars (slot.texts req)
      ↔ (∀ p ∈ slot.params req sig, p.Alike) ∨
        (∃ p ∈ slot.params req sig, p.Rejected) ∧ ∃ p ∈ slot.params req sig, p.Misread := by
  cases sig with
  | request => exact iff_of_true rfl (Or.inl fun p hp ↦ by cases hp)
  | one t =>
    simp only [params, Signature.types, List.mapIdx_cons, List.mapIdx_nil, List.mem_singleton,
      forall_eq, exists_eq_left, BoundParam.alike_iff, BoundParam.misread_iff, BoundParam.Rejected]
    exact option_eq_iff
  | two t₀ t₁ =>
    simp only [params, Signature.types, List.mapIdx_cons, List.mapIdx_nil, List.mem_cons,
      List.not_mem_nil, or_false, forall_eq_or_imp, forall_eq, exists_eq_or_imp, exists_eq_left,
      BoundParam.alike_iff, BoundParam.misread_iff, BoundParam.Rejected]
    exact option_pair_eq_iff

/-- A handler is entered with its arguments, so these have to be the values. -/
theorem convertsByType_iff_arguments {sig : Signature} (hserves : slot.Serves req) :
    slot.ConvertsByType req sig ↔
      sig.arguments (slot.injected req) (extractParamNames slot.segs) = slot.values req sig := by
  have hentered : ∀ h : Request → sig.Values → HandlerCode,
      AnswersWith (slot.injected req)
        (sig.arguments (slot.injected req) (extractParamNames slot.segs)) h
        ((routerOf (slot.regs
          (normaliseHandler (sig.routeHandler h) (extractParamNames slot.segs)))).respond req) := by
    intro h
    -- the wrapper was given the names of its own pattern, whatever they were captured under
    obtain ⟨wrapper, hwrapper, hanswers⟩ :=
      sig.answersWith_arguments (extractParamNames slot.segs) h
    rw [hwrapper, respond_eq hserves]
    exact hanswers _
  constructor
  · exact fun h ↦ answersWith_unique hentered h
  · intro h
    rw [ConvertsByType, ← h]
    exact hentered

/-- **When typed parameters convert by their declared type.** For a handler that takes none of them,
exactly on the requests whose segments are all accepted. For a handler that takes them as declared,
exactly when each of them is read as declared, or a segment is rejected and some parameter, which
need not be the same, is no `int` where the wrapper reads one. -/
theorem convertsByType_iff {sig : Signature}
    (hsig : sig.types = [] ∨ sig.types = declaredTypes slot.segs) (hserves : slot.Serves req) :
    slot.ConvertsByType req sig ↔
      (sig.types = [] ∧ slot.AllAccepted req) ∨
        (sig.types ≠ [] ∧ ((∀ p ∈ slot.params req sig, p.Alike) ∨
          (∃ p ∈ slot.params req sig, p.Rejected) ∧ ∃ p ∈ slot.params req sig, p.Misread)) := by
  rw [convertsByType_iff_arguments hserves]
  by_cases hnone : sig.types = []
  · cases sig with
    | request =>
      have hcalled : Signature.request.arguments (slot.injected req) (extractParamNames slot.segs)
          = slot.values req .request ↔ slot.AllAccepted req := values_request_iff
      simpa [Signature.types] using hcalled
    | one t => cases hnone
    | two t₀ t₁ => cases hnone
  · -- all values are there or none, as with the arguments
    rw [values_of_types (hsig.resolve_left hnone), arguments_eq_iff]
    simp only [hnone, false_and, ne_eq, not_false_eq_true, true_and, false_or]

/-- `GET /scale/2` for a handler with a `float` at `/scale/{factor:float}`. -/
theorem convertsByType_scale :
    RouteSlot.ConvertsByType
      { before := [], method := kGet
        segs := [.static (ascii "scale"), .param (ascii "factor") .float], after := [] }
      { parsed := { method := ascii "GET", target := ascii "/scale/2" } } (.one .float) := by
  refine (convertsByType_iff (Or.inr rfl) ⟨by decide, fun _ ↦ rfl⟩).mpr
    (Or.inr ⟨List.cons_ne_nil _ _, Or.inl ?_⟩)
  rintro p hp
  obtain rfl := List.mem_singleton.mp hp
  exact Or.inl ⟨by decide, by decide, by decide⟩

/-- `GET /scale/1.5` for the same handler. -/
theorem not_convertsByType :
    ¬∀ (slot : RouteSlot) (sig : Signature) (req : Request),
      sig.types = [] ∨ sig.types = declaredTypes slot.segs → slot.Serves req →
        slot.ConvertsByType req sig := by
  intro h
  have hserves : RouteSlot.Serves
      { before := [], method := kGet
        segs := [.static (ascii "scale"), .param (ascii "factor") .float], after := [] }
      { parsed := { method := ascii "GET", target := ascii "/scale/1.5" } } :=
    ⟨by decide, fun _ ↦ rfl⟩
  have hcalled := (convertsByType_iff_arguments hserves).mp
    (h _ (.one .float) _ (Or.inr rfl) hserves)
  -- the segment is a `float`, but no `int` is found under the name
  have haccepted : (RouteSlot.values
      { before := [], method := kGet
        segs := [.static (ascii "scale"), .param (ascii "factor") .float], after := [] }
      { parsed := { method := ascii "GET", target := ascii "/scale/1.5" } } (.one .float)).isSome
      = true := by decide
  rw [← hcalled] at haccepted
  revert haccepted
  decide

end RouteSlot

end Aevox
