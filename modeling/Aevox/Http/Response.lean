import Aevox.Bytes

/-!
# Responses and their bytes

`Response` and the serializer that puts it on the wire. A response is only ever made by one of the
static factories and then edited with `header` and `content_type`, so its status code is one of
`factoryStatuses` and its header names are pairwise distinct; both facts are fields.

The header map is an unordered one: `entries` lists it in the order one particular iteration
visits it, and nothing below may depend on that order.
-/

namespace Aevox

/-! ## Status codes -/

abbrev kStatusSwitchingProtocols : ℕ := 101
abbrev kStatusOk : ℕ := 200
abbrev kStatusCreated : ℕ := 201
abbrev kStatusNoContent : ℕ := 204
abbrev kStatusBadRequest : ℕ := 400
abbrev kStatusUnauthorized : ℕ := 401
abbrev kStatusForbidden : ℕ := 403
abbrev kStatusNotFound : ℕ := 404
abbrev kStatusMethodNotAllowed : ℕ := 405
abbrev kStatusPayloadTooLarge : ℕ := 413
abbrev kStatusInternalServerError : ℕ := 500

/-- The status codes the static factories use. -/
def factoryStatuses : List ℕ :=
  [kStatusSwitchingProtocols, kStatusOk, kStatusCreated, kStatusBadRequest, kStatusUnauthorized,
    kStatusForbidden, kStatusNotFound, kStatusMethodNotAllowed, kStatusInternalServerError]

/-- `status_text` -/
def statusText (code : ℕ) : Bytes :=
  if code = kStatusOk then ascii "OK"
  else if code = kStatusCreated then ascii "Created"
  else if code = kStatusNoContent then ascii "No Content"
  else if code = kStatusBadRequest then ascii "Bad Request"
  else if code = kStatusUnauthorized then ascii "Unauthorized"
  else if code = kStatusForbidden then ascii "Forbidden"
  else if code = kStatusNotFound then ascii "Not Found"
  else if code = kStatusMethodNotAllowed then ascii "Method Not Allowed"
  else if code = kStatusPayloadTooLarge then ascii "Payload Too Large"
  else if code = kStatusInternalServerError then ascii "Internal Server Error"
  else ascii "Unknown"

/-! ## Header maps -/

/-- An `unordered_map` from header names to values, in the order of one iteration over it. -/
structure HeaderMap where
  /-- The entries. -/
  entries : List (Bytes × Bytes)
  /-- A name is stored once. -/
  nodup : (entries.map Prod.fst).Nodup
  deriving DecidableEq

/-- The entries after `map[name] = value`. -/
def assignEntry (name value : Bytes) (entries : List (Bytes × Bytes)) : List (Bytes × Bytes) :=
  if name ∈ entries.map Prod.fst then
    entries.map fun e ↦ if e.1 = name then (name, value) else e
  else entries ++ [(name, value)]

theorem nodup_assignEntry {name value : Bytes} {entries : List (Bytes × Bytes)}
    (h : (entries.map Prod.fst).Nodup) :
    ((assignEntry name value entries).map Prod.fst).Nodup := by
  rw [assignEntry]
  by_cases hmem : name ∈ entries.map Prod.fst
  · have hkeys : (entries.map fun e ↦ if e.1 = name then (name, value) else e).map Prod.fst
        = entries.map Prod.fst := by
      rw [List.map_map]
      refine List.map_congr_left fun e _ ↦ ?_
      by_cases he : e.1 = name <;> simp [he]
    rwa [if_pos hmem, hkeys]
  · rw [if_neg hmem, List.map_append, List.nodup_append]
    refine ⟨h, by simp, fun a ha b hb ↦ ?_⟩
    rintro rfl
    simp only [List.map_cons, List.map_nil, List.mem_singleton] at hb
    exact hmem (hb ▸ ha)

namespace HeaderMap

/-- A map without entries. -/
def empty : HeaderMap := ⟨[], List.nodup_nil⟩

/-- `map[name] = value` -/
def assign (m : HeaderMap) (name value : Bytes) : HeaderMap :=
  ⟨assignEntry name value m.entries, nodup_assignEntry m.nodup⟩

end HeaderMap

/-! ## Responses -/

/-- `Response::Impl` -/
structure Response.Impl where
  statusCode : ℕ
  body : Bytes
  headers : HeaderMap
  /-- The constructor is private, so a factory chose the status code. -/
  status_mem : statusCode ∈ factoryStatuses
  deriving DecidableEq

/-- A `Response`; without an `Impl` once it has been moved from. -/
structure Response where
  impl : Option Response.Impl
  deriving DecidableEq

namespace Response

/-- The private constructor: an empty content type sets no header. -/
def make (status : ℕ) (body contentType : Bytes) (h : status ∈ factoryStatuses) : Response :=
  ⟨some
    { statusCode := status
      body := body
      headers :=
        if contentType = [] then .empty
        else HeaderMap.empty.assign (ascii "Content-Type") contentType
      status_mem := h }⟩

/-- `status_code()`: zero for a moved-from response. -/
def statusCode (res : Response) : ℕ := (res.impl.map Impl.statusCode).getD 0

/-- `body_view()`: empty for a moved-from response. -/
def bodyView (res : Response) : Bytes := (res.impl.map Impl.body).getD []

/-- `header(name, value)`, which stores the name as given. -/
def header (res : Response) (name value : Bytes) : Response :=
  ⟨res.impl.map fun i ↦ { i with headers := i.headers.assign name value }⟩

/-- `content_type(ct)` -/
def contentType (res : Response) (ct : Bytes) : Response := res.header (ascii "Content-Type") ct

/-! ### Static factories -/

def ok (body : Bytes) : Response := make kStatusOk body (ascii "text/plain") (by decide)
def created (body : Bytes) : Response := make kStatusCreated body (ascii "text/plain") (by decide)
def notFound (body : Bytes) : Response := make kStatusNotFound body (ascii "text/plain") (by decide)
def badRequest (body : Bytes) : Response :=
  make kStatusBadRequest body (ascii "text/plain") (by decide)
def unauthorized (body : Bytes) : Response :=
  make kStatusUnauthorized body (ascii "text/plain") (by decide)
def forbidden (body : Bytes) : Response :=
  make kStatusForbidden body (ascii "text/plain") (by decide)
def json (body : Bytes) : Response := make kStatusOk body (ascii "application/json") (by decide)
def methodNotAllowed (body : Bytes) : Response :=
  make kStatusMethodNotAllowed body (ascii "text/plain") (by decide)

/-- `json(value)`, given what the JSON backend made of the value: its text or its error message. -/
def jsonValue (serialized : Except Bytes Bytes) : Response :=
  match serialized with
  | .ok text => json text
  | .error detail =>
    make kStatusInternalServerError
      (ascii "\x7b\"error\":\"json_serialization_failed\",\"detail\":\"" ++ detail ++
        ascii "\"\x7d")
      (ascii "application/json") (by decide)

/-- `json(value)` in a build without a JSON backend. -/
def jsonWithoutBackend : Response :=
  make kStatusInternalServerError
    (ascii "\x7b\"error\":\"no_json_backend\"," ++
      ascii "\"detail\":\"Set AEVOX_JSON_BACKEND to glaze in CMake.\"\x7d")
    (ascii "application/json") (by decide)

/-- `stream(content_type)`: for now an ordinary response without a body. -/
def stream (contentType : Bytes) : Response := make kStatusOk [] contentType (by decide)

/-- The sentinel that tells the connection loop the stream has been handed over. -/
def switchingProtocols : Response := make kStatusSwitchingProtocols [] [] (by decide)

@[simp] theorem statusCode_header (res : Response) (name value : Bytes) :
    (res.header name value).statusCode = res.statusCode := by
  cases res with | mk impl => cases impl <;> rfl

/-- No response carries a status code the factories do not use, unless it has been moved from. -/
theorem statusCode_mem (res : Response) :
    res.statusCode = 0 ∨ res.statusCode ∈ factoryStatuses := by
  cases res with | mk impl =>
  cases impl with
  | none => exact Or.inl rfl
  | some i => exact Or.inr i.status_mem

end Response

/-! ## The serializer -/

/-- `has_header_case_insensitive` -/
def hasHeaderCaseInsensitive (headers : List (Bytes × Bytes)) (name : Bytes) : Bool :=
  headers.any fun header ↦ equalIgnoreCase header.1 name

/-- `"{name}: {value}\r\n"` -/
def fieldLine (header : Bytes × Bytes) : Bytes := header.1 ++ ascii ": " ++ header.2 ++ crlf

/-- The status line, terminator included. -/
def statusLine (code : ℕ) : Bytes :=
  ascii "HTTP/1.1 " ++ decimal code ++ ascii " " ++ statusText code ++ crlf

/-- The generated `Content-Length` field. -/
def contentLengthField (size : ℕ) : Bytes × Bytes := (ascii "Content-Length", decimal size)

/-- Whether the serializer adds a `Content-Length` of its own, as the fields it adds. -/
def generatedFields (headers : List (Bytes × Bytes)) (size : ℕ) : List (Bytes × Bytes) :=
  if hasHeaderCaseInsensitive headers (ascii "Content-Length") then []
  else [contentLengthField size]

/-- The fields of a response in the order they are written. -/
def Response.wireFields (res : Response) : List (Bytes × Bytes) :=
  match res.impl with
  | some impl => generatedFields impl.headers.entries res.bodyView.length ++ impl.headers.entries
  | none => [contentLengthField res.bodyView.length]

/-- The header section, blank line included. -/
def responseHead (res : Response) : Bytes :=
  statusLine res.statusCode ++ (res.wireFields.flatMap fieldLine) ++ crlf

/-- `serialize_response` -/
def serializeResponse (res : Response) : Bytes := responseHead res ++ res.bodyView

end Aevox
