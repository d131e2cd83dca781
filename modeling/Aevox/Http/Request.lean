import Aevox.Bytes
import Mathlib.Data.List.Nodup

/-!
# Requests

What a handler or a middleware is given. `ParsedRequest` is the parser's result; its header pairs
are views into storage the parser keeps, so the type is generic in what stands for a header pair: a
view when it leaves the parser, the bytes the view shows once a `Request` has been made of it.

The path and the query are the two sides of the first `?` of the target.
-/

namespace Aevox

/-! ## Methods -/

/-- The verbs a request can carry; everything else is `unknown`. -/
inductive HttpMethod where
  | get
  | post
  | put
  | patch
  | delete
  | head
  | options
  | unknown
  deriving DecidableEq, Repr

/-- The number of routable methods. -/
abbrev kMethodCount : ℕ := 7

namespace HttpMethod

/-- `static_cast<std::uint8_t>(method)` -/
def index : HttpMethod → ℕ
  | .get => 0
  | .post => 1
  | .put => 2
  | .patch => 3
  | .delete => 4
  | .head => 5
  | .options => 6
  | .unknown => 7

/-- The verb spelled by `text`, in exactly this case. -/
def ofText (text : Bytes) : HttpMethod :=
  if text = ascii "GET" then .get
  else if text = ascii "POST" then .post
  else if text = ascii "PUT" then .put
  else if text = ascii "PATCH" then .patch
  else if text = ascii "DELETE" then .delete
  else if text = ascii "HEAD" then .head
  else if text = ascii "OPTIONS" then .options
  else .unknown

theorem index_lt_iff {m : HttpMethod} : m.index < kMethodCount ↔ m ≠ .unknown := by
  cases m <;> decide

end HttpMethod

/-- The place of `GET` handlers in a node. -/
def kGet : Fin kMethodCount := ⟨HttpMethod.get.index, by decide⟩

/-! ## Parsed requests -/

/-- `ParsedRequest`, with `η` for its header pairs. -/
structure ParsedRequest (η : Type) where
  method : Bytes := []
  target : Bytes := []
  versionMajor : ℕ := 1
  versionMinor : ℕ := 1
  headers : List η := []
  body : Bytes := []
  upgrade : Bool := false
  keepAlive : Bool := true
  deriving DecidableEq

/-- The same request with its header pairs looked up. -/
def ParsedRequest.mapHeaders {η θ : Type} (f : η → θ) (parsed : ParsedRequest η) :
    ParsedRequest θ :=
  { parsed with headers := parsed.headers.map f }

/-- `Request::Impl`, as far as the framework reads it. -/
structure Request where
  parsed : ParsedRequest (Bytes × Bytes)
  /-- `params_`: the captured path parameters. -/
  params : List (Bytes × Bytes) := []
  /-- `max_payload_`; the connection handler sets it from `AppConfig::max_body_size`. -/
  maxPayload : ℕ := 10 * 1024 * 1024
  deriving DecidableEq

namespace Request

/-- `method()` -/
def method (req : Request) : HttpMethod := .ofText req.parsed.method

/-- `path()`: the target up to its first `?`. -/
def path (req : Request) : Bytes := req.parsed.target.takeWhile (· ≠ 63)

/-- `query()`: what follows the first `?`. -/
def query (req : Request) : Bytes := (req.parsed.target.dropWhile (· ≠ 63)).drop 1

theorem target_eq (req : Request) :
    req.parsed.target = req.path ∨ req.parsed.target = req.path ++ 63 :: req.query := by
  have hsplit := (List.takeWhile_append_dropWhile (p := (· ≠ 63)) (l := req.parsed.target)).symm
  rcases hrest : req.parsed.target.dropWhile (· ≠ 63) with _ | ⟨b, rest⟩
  · rw [hrest, List.append_nil] at hsplit
    exact Or.inl hsplit
  · have hb : b = 63 := by
      have hne : req.parsed.target.dropWhile (· ≠ 63) ≠ [] := by
        rw [hrest]
        exact List.cons_ne_nil b rest
      have hhead := List.head_dropWhile_not _ hne
      simp only [hrest, List.head_cons] at hhead
      simpa using hhead
    rw [hrest, hb] at hsplit
    refine Or.inr (hsplit.trans ?_)
    rw [query, hrest]
    rfl

/-- `header(name)`: the value of the first header of that name, in any letter case. -/
def header (req : Request) (name : Bytes) : Option Bytes :=
  (req.parsed.headers.find? fun pair ↦ equalIgnoreCase pair.1 name).map Prod.snd

/-- `unordered_map::emplace`, which keeps the value a name already has. -/
def emplaceParam (params : List (Bytes × Bytes)) (kv : Bytes × Bytes) : List (Bytes × Bytes) :=
  if kv.1 ∈ params.map Prod.fst then params else params ++ [kv]

/-- The captured parameters replace the ones the request had. -/
def withParams (req : Request) (captured : List (Bytes × Bytes)) : Request :=
  { req with params := captured.foldl emplaceParam [] }

/-- `params_.find(name)` -/
def findParam (req : Request) (name : Bytes) : Option Bytes :=
  (req.params.find? fun kv ↦ kv.1 = name).map Prod.snd

/-- Of several captures of one name the first is kept. -/
theorem find?_foldl_emplaceParam (name : Bytes) (captured : List (Bytes × Bytes)) :
    ∀ params : List (Bytes × Bytes),
      (captured.foldl emplaceParam params).find? (fun kv ↦ kv.1 = name)
        = (params.find? fun kv ↦ kv.1 = name).or (captured.find? fun kv ↦ kv.1 = name) := by
  induction captured with
  | nil => simp
  | cons kv captured ih =>
    intro params
    rw [List.foldl_cons, ih, List.find?_cons, emplaceParam]
    by_cases hmem : kv.1 ∈ params.map Prod.fst
    · rw [if_pos hmem]
      by_cases hkv : kv.1 = name
      · obtain ⟨kv', hkv', hname⟩ := List.mem_map.mp hmem
        have hfound : (params.find? fun kv ↦ kv.1 = name).isSome = true := by
          rw [List.find?_isSome]
          exact ⟨kv', hkv', by simp [hname, hkv]⟩
        obtain ⟨kv₀, hkv₀⟩ := Option.isSome_iff_exists.mp hfound
        rw [hkv₀]
        rfl
      · simp [hkv]
    · rw [if_neg hmem, List.find?_append, Option.or_assoc]
      apply congrArg _
      by_cases hkv : kv.1 = name <;> simp [hkv]

theorem findParam_withParams (req : Request) (captured : List (Bytes × Bytes)) (name : Bytes) :
    (req.withParams captured).findParam name
      = (captured.find? fun kv ↦ kv.1 = name).map Prod.snd := by
  rw [findParam, withParams, find?_foldl_emplaceParam]
  rfl

theorem nodup_foldl_emplaceParam (captured : List (Bytes × Bytes)) :
    ∀ {params : List (Bytes × Bytes)}, (params.map Prod.fst).Nodup →
      ((captured.foldl emplaceParam params).map Prod.fst).Nodup := by
  induction captured with
  | nil => exact fun h ↦ h
  | cons kv captured ih =>
    intro params h
    refine ih ?_
    rw [emplaceParam]
    split_ifs with hmem
    · exact h
    · rw [List.map_append, List.map_singleton]
      exact List.nodup_append_comm.mp (List.nodup_cons.mpr ⟨hmem, h⟩)

theorem mem_params_withParams (req : Request) (captured : List (Bytes × Bytes))
    {kv : Bytes × Bytes} : kv ∈ (req.withParams captured).params ↔
      captured.find? (fun kv' ↦ kv'.1 = kv.1) = some kv := by
  have hfind := find?_foldl_emplaceParam kv.1 captured []
  rw [List.find?_nil, Option.none_or] at hfind
  rw [withParams, ← hfind]
  constructor
  · intro hmem
    obtain ⟨kv', hkv'⟩ : ∃ kv', (captured.foldl emplaceParam []).find?
        (fun kv' ↦ kv'.1 = kv.1) = some kv' := by
      rw [← Option.isSome_iff_exists, List.find?_isSome]
      exact ⟨kv, hmem, decide_eq_true rfl⟩
    have hkey : kv'.1 = kv.1 := by simpa using List.find?_some hkv'
    have hnodup : ((captured.foldl emplaceParam []).map Prod.fst).Nodup :=
      nodup_foldl_emplaceParam captured List.nodup_nil
    rw [hkv', List.inj_on_of_nodup_map hnodup (List.mem_of_find?_eq_some hkv') hmem hkey]
  · exact List.mem_of_find?_eq_some

end Request

/-! ## The upgrade handshake -/

/-- `WebSocketErrorCode` -/
inductive WebSocketErrorCode where
  | invalidHandshake
  | protocolError
  | closed
  | sendFailed
  | frameTooLarge
  deriving DecidableEq, Repr

/-- `WebSocketError` -/
structure WebSocketError where
  code : WebSocketErrorCode
  message : Bytes
  deriving DecidableEq

/-- `ws_icontains`: some window of the haystack equals the needle up to letter case. -/
def containsIgnoreCase (haystack needle : Bytes) : Bool :=
  if needle = [] then true
  else if haystack.length < needle.length then false
  else (List.range (haystack.length - needle.length + 1)).any fun i ↦
    equalIgnoreCase ((haystack.drop i).take needle.length) needle

/-- `HandshakeHeaders` -/
structure HandshakeHeaders where
  upgrade : Bytes
  connection : Bytes
  secWebsocketKey : Bytes

namespace Request

/-- `ws_find_header`: the empty view when there is no such header. -/
def findHeader (req : Request) (name : Bytes) : Bytes := (req.header name).getD []

/-- The three headers `upgrade_websocket` validates. -/
def handshakeHeaders (req : Request) : HandshakeHeaders :=
  { upgrade := req.findHeader (ascii "Upgrade")
    connection := req.findHeader (ascii "Connection")
    secWebsocketKey := req.findHeader (ascii "Sec-WebSocket-Key") }

/-- `is_websocket_upgrade()` -/
def isWebsocketUpgrade (req : Request) : Bool :=
  equalIgnoreCase (req.findHeader (ascii "Upgrade")) (ascii "websocket") &&
    containsIgnoreCase (req.findHeader (ascii "Connection")) (ascii "upgrade") &&
    req.findHeader (ascii "Sec-WebSocket-Key") ≠ []

end Request

/-- `net::validate`: the first check that fails decides the message. -/
def validateHandshake (headers : HandshakeHeaders) : Except WebSocketError Unit :=
  if !equalIgnoreCase headers.upgrade (ascii "websocket") then
    .error ⟨.invalidHandshake, ascii "Upgrade header must be 'websocket'"⟩
  else if !containsIgnoreCase headers.connection (ascii "upgrade") then
    .error ⟨.invalidHandshake, ascii "Connection header must contain 'Upgrade'"⟩
  else if headers.secWebsocketKey = [] then
    .error ⟨.invalidHandshake, ascii "Missing Sec-WebSocket-Key header"⟩
  else .ok ()

/-- The two checks of one handshake agree, so a handler that asks first is never refused for its
headers. -/
theorem validateHandshake_eq_ok_iff {req : Request} :
    validateHandshake req.handshakeHeaders = .ok () ↔ req.isWebsocketUpgrade = true := by
  simp only [validateHandshake, Request.handshakeHeaders, Request.isWebsocketUpgrade,
    Bool.and_eq_true, decide_eq_true_eq]
  by_cases hu : equalIgnoreCase (req.findHeader (ascii "Upgrade")) (ascii "websocket") = true
  · by_cases hc : containsIgnoreCase (req.findHeader (ascii "Connection")) (ascii "upgrade") = true
    · by_cases hk : req.findHeader (ascii "Sec-WebSocket-Key") = [] <;> simp [hu, hc, hk]
    · simp [hu, hc]
  · simp [hu]

end Aevox
