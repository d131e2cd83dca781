import Aevox.App.Pipeline
import Aevox.Http.Filesystem
import Mathlib.Data.List.DropRight

/-!
# Static files

The middleware that serves a directory. A request path is stripped of the URL prefix, decoded and
split into segments; without dot segments these are put behind the canonical root, and what comes
out of `weakly_canonical` has to have the root as a prefix, element by element. A directory is then
replaced by its index file, in the same way.

The configuration is checked when the middleware is made, the file system is asked again on every
request, so the two may see different trees.

## Decoding

Every `%XX` is decoded once, and neither the characters that stand for themselves nor the decoded
ones may be a backslash, a colon or a control character. Slashes are cut after decoding, so an
encoded slash separates like any other.
-/

namespace Aevox

open Coroutine FileTree Delimited Filesystem

namespace StaticFiles

/-! ## Characters -/

/-- `is_ascii_control` -/
def isAsciiControl (ch : UInt8) : Bool := ch < 0x20 || ch == 0x7F

/-- `is_hex_digit` -/
def isHexDigit (ch : UInt8) : Bool :=
  (48 ≤ ch && ch ≤ 57) || (97 ≤ ch && ch ≤ 102) || (65 ≤ ch && ch ≤ 70)

/-- `hex_value` -/
def hexValue (ch : UInt8) : UInt8 :=
  if 48 ≤ ch ∧ ch ≤ 57 then ch - 48
  else if 97 ≤ ch ∧ ch ≤ 102 then ch - 97 + 10
  else ch - 65 + 10

/-- What a decoded path must not contain: a backslash, a colon or a control character. -/
def isRejected (ch : UInt8) : Bool := ch == 92 || ch == 58 || isAsciiControl ch

/-! ## The configuration -/

/-- `StaticFilesConfig` -/
structure StaticFilesConfig where
  root : Bytes
  urlPrefix : Bytes := ascii "/static"
  indexFile : Bytes := []
  /-- The entries of a map. -/
  mimeOverrides : List (Bytes × Bytes) := []

/-- `StaticFilesConfigError` -/
inductive StaticFilesConfigError where
  | rootEmpty
  | rootRelative
  | rootNotFound
  | rootNotDirectory
  | invalidUrlPrefix
  | invalidIndexFile
  | invalidMimeOverride
  deriving DecidableEq

/-- `has_invalid_url_path_char` -/
def hasInvalidUrlPathChar (value : Bytes) : Bool :=
  value.any fun ch ↦ ch == 63 || ch == 35 || ch == 92 || isAsciiControl ch

/-- `has_path_dot_segment` -/
def hasPathDotSegment (path : Bytes) : Bool :=
  (path.splitOn slash).any fun segment ↦ segment = ascii "." || segment = ascii ".."

/-- `normalize_url_prefix`: drops the slashes at the end, but not the first character. -/
def normalizeUrlPrefix : Bytes → Bytes
  | [] => []
  | ch :: rest => ch :: rest.rdropWhile (· = slash)

/-- `is_valid_url_prefix` -/
def isValidUrlPrefix (urlPrefix : Bytes) : Bool :=
  urlPrefix.head? = some slash && !hasInvalidUrlPathChar urlPrefix && !hasPathDotSegment urlPrefix

/-- `is_valid_index_file` -/
def isValidIndexFile (indexFile : Bytes) : Bool :=
  if indexFile = [] then true
  else if indexFile = ascii "." ∨ indexFile = ascii ".." then false
  else !indexFile.any fun ch ↦ ch == slash || ch == 92 || ch == 58 || isAsciiControl ch

/-- `is_valid_mime_key` -/
def isValidMimeKey (key : Bytes) : Bool :=
  2 ≤ key.length && key.head? = some 46 && key.all fun ch ↦
    (97 ≤ ch && ch ≤ 122) || (48 ≤ ch && ch ≤ 57) || ch == 46 || ch == 43 || ch == 45

/-- `is_valid_mime_value` -/
def isValidMimeValue (value : Bytes) : Bool := value ≠ [] && !value.any isAsciiControl

/-- `StaticFilesState` -/
structure StaticFilesState where
  canonicalRoot : Path
  urlPrefix : Bytes
  indexFile : Bytes
  mimeOverrides : List (Bytes × Bytes)
  /-- The root is a canonical path. -/
  root_names : ∃ place : List FileName, canonicalRoot = place.map .name
  index_valid : isValidIndexFile indexFile = true

/-- `make_state` -/
def makeState (fs : Filesystem) (config : StaticFilesConfig) :
    Except StaticFilesConfigError StaticFilesState :=
  if config.root = [] then .error .rootEmpty
  else if config.root.head? ≠ some slash then .error .rootRelative
  else
    match hroot : fs.canonical (pathElements config.root) with
    | .error _ => .error .rootNotFound
    | .ok canonicalRoot =>
      if fs.isDirectory canonicalRoot ≠ .ok true then .error .rootNotDirectory
      else if isValidUrlPrefix config.urlPrefix = false then .error .invalidUrlPrefix
      else if hindex : isValidIndexFile config.indexFile = true then
        if config.mimeOverrides.any fun entry ↦
          !isValidMimeKey entry.1 || !isValidMimeValue entry.2 then .error .invalidMimeOverride
        else
          .ok
            { canonicalRoot := canonicalRoot
              urlPrefix := normalizeUrlPrefix config.urlPrefix
              indexFile := config.indexFile
              mimeOverrides := config.mimeOverrides
              root_names := (exists_of_canonical hroot).imp fun _ h ↦ h.2.1
              index_valid := hindex }
      else .error .invalidIndexFile

/-! ## From the request path to a file -/

/-- `prefix_matches` -/
def prefixMatches (path urlPrefix : Bytes) : Bool :=
  if urlPrefix = [slash] then path.head? = some slash
  else urlPrefix.isPrefixOf path &&
    (path.length = urlPrefix.length || path[urlPrefix.length]? = some slash)

/-- `strip_prefix` -/
def stripPrefix (path urlPrefix : Bytes) : Bytes :=
  if urlPrefix = [slash] then path
  else if path.drop urlPrefix.length = [] then [slash]
  else path.drop urlPrefix.length

/-- `percent_decode_path`: the input from the position of the loop on. -/
def percentDecodePath : Bytes → Option Bytes
  | [] => some []
  | ch :: rest =>
    if ch ≠ 37 then
      if isRejected ch then none else (percentDecodePath rest).map (ch :: ·)
    else
      match rest with
      | h :: l :: rest =>
        if !isHexDigit h || !isHexDigit l then none
        else if isRejected (hexValue h <<< 4 ||| hexValue l) then none
        else (percentDecodePath rest).map ((hexValue h <<< 4 ||| hexValue l) :: ·)
      -- fewer than two characters are left
      | _ => none

/-- `split_validated_segments` -/
def splitValidatedSegments (path : Bytes) : List Bytes := tokens slash path

/-- `PathResolutionError` -/
inductive PathResolutionError where
  | forbidden
  | notFound
  deriving DecidableEq

/-- `is_within_root` -/
def isWithinRoot : Path → Path → Bool
  | r :: root, c :: candidate => if r ≠ c then false else isWithinRoot root candidate
  | root, _ => root = []

/-- `resolve_candidate` -/
def resolveCandidate (fs : Filesystem) (state : StaticFilesState) (candidate : Path) :
    Except PathResolutionError Path :=
  match fs.weaklyCanonical candidate with
  | .error _ => .error .notFound
  | .ok resolved =>
    if isWithinRoot state.canonicalRoot resolved then .ok resolved else .error .forbidden

/-- What an error of the file system becomes. -/
def errorOf (ec : Errno) : PathResolutionError :=
  if ec = .accessDenied then .forbidden else .notFound

/-- The segments are put behind the candidate, unless one of them is a dot segment. -/
def appendSegments : Path → List Bytes → Except PathResolutionError Path
  | candidate, [] => .ok candidate
  | candidate, segment :: segments =>
    if segment = ascii "." ∨ segment = ascii ".." then .error .forbidden
    else appendSegments (candidate ++ pathElements segment) segments

/-- The index file of a directory; anything else stays as it is. -/
def resolveIndex (fs : Filesystem) (state : StaticFilesState) (resolved : Path) :
    Except PathResolutionError Path :=
  match fs.isDirectory resolved with
  | .ok true =>
    if state.indexFile = [] then .error .notFound
    else resolveCandidate fs state (resolved ++ pathElements state.indexFile)
  | _ => .ok resolved

/-- The last test of `resolve_request_path`. -/
def requireRegularFile (fs : Filesystem) (resolved : Path) : Except PathResolutionError Path :=
  match fs.isRegularFile resolved with
  | .ok true => .ok resolved
  | .ok false => .error .notFound
  | .error ec => .error (errorOf ec)

/-- `resolve_request_path` -/
def resolveRequestPath (fs : Filesystem) (state : StaticFilesState) (requestPath : Bytes) :
    Except PathResolutionError Path :=
  match percentDecodePath requestPath with
  | none => .error .forbidden
  | some decoded =>
    ((appendSegments state.canonicalRoot (splitValidatedSegments decoded)).bind
      (resolveCandidate fs state)).bind fun resolved ↦
        (resolveIndex fs state resolved).bind (requireRegularFile fs)

/-! ## The response -/

/-- `path::extension()` of a file name: from its last dot on, unless that comes first. -/
def extension (filename : Bytes) : Bytes :=
  let tail := filename.rtakeWhile (· ≠ 46)
  if filename = ascii ".." ∨ filename.length ≤ tail.length + 1 then [] else 46 :: tail

/-- `default_mime_type` -/
def defaultMimeType (extension : Bytes) : Bytes :=
  let kDefaults : List (Bytes × Bytes) :=
    [(ascii ".html", ascii "text/html"), (ascii ".htm", ascii "text/html"),
      (ascii ".css", ascii "text/css"), (ascii ".js", ascii "application/javascript"),
      (ascii ".mjs", ascii "application/javascript"), (ascii ".json", ascii "application/json"),
      (ascii ".png", ascii "image/png"), (ascii ".jpg", ascii "image/jpeg"),
      (ascii ".jpeg", ascii "image/jpeg"), (ascii ".gif", ascii "image/gif"),
      (ascii ".svg", ascii "image/svg+xml"), (ascii ".ico", ascii "image/x-icon"),
      (ascii ".woff2", ascii "font/woff2"), (ascii ".txt", ascii "text/plain"),
      (ascii ".pdf", ascii "application/pdf")]
  match kDefaults.find? fun entry ↦ entry.1 = extension with
  | some entry => entry.2
  | none => ascii "application/octet-stream"

/-- `path::filename()` of a path of names. -/
def filename (path : Path) : Bytes :=
  match path.getLast? with
  | some (.name n) => n.bytes
  | _ => []

/-- `mime_type_for` -/
def mimeTypeFor (state : StaticFilesState) (path : Path) : Bytes :=
  let extension := (extension (filename path)).map toLower
  match state.mimeOverrides.find? fun entry ↦ entry.1 = extension with
  | some entry => entry.2
  | none => defaultMimeType extension

/-- `read_file_size` -/
def readFileSize (fs : Filesystem) (path : Path) : Except PathResolutionError ℕ :=
  match fs.fileSize path with
  | .ok size => .ok size
  | .error ec => .error (errorOf ec)

/-- `read_file_body`: the first `size` bytes, if there are so many. -/
def readFileBody (fs : Filesystem) (path : Path) (size : ℕ) : Option Bytes :=
  match fs.openFile path with
  | none => none
  | some contents => if contents.length < size then none else some (contents.take size)

/-- `response_for_resolution_error` -/
def responseForResolutionError : PathResolutionError → Response
  | .forbidden => .forbidden []
  | .notFound => .notFound []

/-- The middleware's coroutine. -/
def serve (fs : Filesystem) (state : StaticFilesState) (req : Request) : MiddlewareCode :=
  if prefixMatches req.path state.urlPrefix = false then .callNext
  else if req.method ≠ .get ∧ req.method ≠ .head then
    ret ((Response.methodNotAllowed []).header (ascii "Allow") (ascii "GET, HEAD"))
  else
    match resolveRequestPath fs state (stripPrefix req.path state.urlPrefix) with
    | .error e => ret (responseForResolutionError e)
    | .ok path =>
      match readFileSize fs path with
      | .error e => ret (responseForResolutionError e)
      | .ok size =>
        let contentLength := decimal size
        let mimeType := mimeTypeFor state path
        if req.method = .head then
          ret (((Response.ok []).contentType mimeType).header (ascii "Content-Length")
            contentLength)
        else
          match readFileBody fs path size with
          | none => ret (.notFound [])
          | some body =>
            ret (((Response.ok body).contentType mimeType).header (ascii "Content-Length")
              contentLength)

/-- `static_files`: the middleware, for the file system as it is when a request comes. -/
def staticFiles (fs : Filesystem) (config : StaticFilesConfig) :
    Except StaticFilesConfigError (Filesystem → Middleware) :=
  (makeState fs config).map fun state fs' ↦ ⟨some (serve fs' state)⟩

end StaticFiles

end Aevox
