import Aevox.Http.Request
import Aevox.Library.Cutting
import Aevox.Library.Vector

/-!
# The incremental parser

`HttpParser` drives llhttp over the bytes of a connection and assembles one request from its
callbacks. llhttp itself is not part of this code base: `Llhttp` is a parameter, and what it did
with a sequence of reads is said by `Llhttp.Completes` and `Llhttp.Runs`.

## Header views

The header pairs of a returned request are views into `headerStorage`, a vector that grows by
moving its strings to a larger block. What a view shows afterwards is left open, since the bytes of
a short string move with it, so a view shows a pair only in the version of the vector it was made
from. `reset` clears the vector and keeps its block.
-/

namespace Aevox

/-! ## Errors and configuration -/

/-- `ParseError` -/
inductive ParseError where
  | incomplete
  | badRequest
  | tooLarge
  | tooManyHeaders
  | unsupported
  deriving DecidableEq, Repr

/-- `ParserConfig` -/
structure ParserConfig where
  maxHeaderCount : ℕ := 100
  maxBodyBytes : ℕ := 1024 * 1024
  deriving DecidableEq

/-! ## Header storage -/

/-- A pair of string views into the header storage. -/
abbrev HeaderView : Type := VectorRef

/-- `header_storage_` -/
abbrev HeaderStorage : Type := GrowingVector (Bytes × Bytes)

/-! ## llhttp -/

/-- What llhttp knows once the header section has ended. -/
structure HeadersInfo where
  httpMajor : ℕ := 1
  httpMinor : ℕ := 1
  shouldKeepAlive : Bool := true
  upgrade : Bool := false
  deriving DecidableEq

/-- The callbacks the parser registers, with their arguments. -/
inductive Callback where
  | onMethod (piece : Bytes)
  | onUrl (piece : Bytes)
  | onHeaderField (piece : Bytes)
  | onHeaderValue (piece : Bytes)
  | onHeadersComplete (info : HeadersInfo)
  | onBody (piece : Bytes)
  | onMessageComplete
  deriving DecidableEq

/-- How one `llhttp_execute` ends when no callback reports an error. -/
inductive Llhttp.Result (σ : Type) where
  /-- `HPE_OK`: all of the data was consumed. -/
  | ok (next : σ)
  /-- `HPE_PAUSED`: `on_message_complete` was called and the data after the message is unread. -/
  | paused (next : σ) (unread : Bytes)
  /-- Any other code. -/
  | error

/-- The state llhttp goes on from; it has none once it has reported an error. -/
def Llhttp.Result.next {σ : Type} : Llhttp.Result σ → Option σ
  | .ok next => some next
  | .paused next _ => some next
  | .error => none

/-- llhttp with its internal state. -/
structure Llhttp (σ : Type) where
  /-- The state after `llhttp_init` and after `llhttp_reset`. -/
  init : σ
  /-- `llhttp_execute`: the callbacks in order, and the result. -/
  execute : σ → Bytes → List Callback × Llhttp.Result σ

namespace Llhttp

variable {σ : Type}

/-- Reading `reads` from `st` produces the callbacks `trace`: every read but the last is consumed
without an error. -/
inductive Runs (L : Llhttp σ) : σ → List Bytes → List Callback → Prop
  | last {st data trace result} (h : L.execute st data = (trace, result)) : Runs L st [data] trace
  | more {st data callbacks next reads trace} (h : L.execute st data = (callbacks, .ok next))
      (hnext : Runs L next reads trace) : Runs L st (data :: reads) (callbacks ++ trace)

/-- Reading `reads` from `st` produces `trace` and pauses at the end of a message, which leaves
`unread` of the last read. -/
inductive Completes (L : Llhttp σ) : σ → List Bytes → List Callback → Bytes → Prop
  | last {st data trace next unread} (h : L.execute st data = (trace, .paused next unread)) :
      Completes L st [data] trace unread
  | more {st data callbacks next reads trace unread}
      (h : L.execute st data = (callbacks, .ok next))
      (hnext : Completes L next reads trace unread) :
      Completes L st (data :: reads) (callbacks ++ trace) unread

end Llhttp

/-! ## The parser's own state -/

/-- `HttpParser::Impl` without llhttp's part of it. -/
structure HttpParser.Impl where
  config : ParserConfig
  methodBuf : Bytes := []
  targetBuf : Bytes := []
  fieldBuf : Bytes := []
  valueBuf : Bytes := []
  /-- True after the first `on_header_value` of the current pair. -/
  inValue : Bool := false
  pending : ParsedRequest HeaderView := {}
  chunkBuf : Bytes := []
  headerStorage : HeaderStorage
  headerCount : ℕ := 0
  bodyByteCount : ℕ := 0
  complete : Bool := false
  lastError : ParseError := .badRequest
  hasError : Bool := false

/-- `HttpParser`: llhttp's state, unless it has reported an error, and the parser's own. -/
structure HttpParser (σ : Type) where
  parser : Option σ
  impl : HttpParser.Impl

namespace HttpParser.Impl

/-! ### Callbacks

Each returns the new state; an error is a callback that returned `HPE_USER`, with the state it
left. -/

/-- `commit_header` -/
def commitHeader (s : Impl) : Except Impl Impl :=
  if s.fieldBuf = [] then .ok s
  else
    let s' := { s with
      headerStorage := s.headerStorage.emplaceBack (s.fieldBuf, s.valueBuf)
      fieldBuf := []
      valueBuf := []
      headerCount := s.headerCount + 1 }
    if s'.headerCount > s'.config.maxHeaderCount then
      .error { s' with hasError := true, lastError := .tooManyHeaders }
    else .ok s'

/-- `refresh_header_views` -/
def refreshHeaderViews (s : Impl) : Impl :=
  { s with pending := { s.pending with headers := s.headerStorage.refs } }

/-- `on_url` -/
def onUrl (s : Impl) (piece : Bytes) : Impl :=
  { s with
    targetBuf := s.targetBuf ++ piece
    pending := { s.pending with target := s.targetBuf ++ piece } }

/-- `on_method` -/
def onMethod (s : Impl) (piece : Bytes) : Impl :=
  { s with
    methodBuf := s.methodBuf ++ piece
    pending := { s.pending with method := s.methodBuf ++ piece } }

/-- `on_header_field`: a name after a value commits the previous pair first. -/
def onHeaderField (s : Impl) (piece : Bytes) : Except Impl Impl :=
  if s.inValue then do
    let s' ← s.commitHeader
    .ok { s' with inValue := false, fieldBuf := s'.fieldBuf ++ piece }
  else .ok { s with fieldBuf := s.fieldBuf ++ piece }

/-- `on_header_value` -/
def onHeaderValue (s : Impl) (piece : Bytes) : Impl :=
  { s with valueBuf := s.valueBuf ++ piece, inValue := true }

/-- `on_headers_complete`: commits the last pair and builds the views. -/
def onHeadersComplete (s : Impl) (info : HeadersInfo) : Except Impl Impl := do
  let s' ← s.commitHeader
  let s' := s'.refreshHeaderViews
  .ok { s' with
    pending :=
      { s'.pending with
        versionMajor := info.httpMajor
        versionMinor := info.httpMinor
        keepAlive := info.shouldKeepAlive
        upgrade := info.upgrade } }

/-- `on_body` -/
def onBody (s : Impl) (piece : Bytes) : Except Impl Impl :=
  let s' := { s with bodyByteCount := s.bodyByteCount + piece.length }
  if s'.bodyByteCount > s'.config.maxBodyBytes then
    .error { s' with hasError := true, lastError := .tooLarge }
  else .ok { s' with chunkBuf := s'.chunkBuf ++ piece }

/-- `on_message_complete`, which pauses llhttp. -/
def onMessageComplete (s : Impl) : Impl := { s with complete := true }

/-- The callback registered for an event. -/
def onCallback (s : Impl) : Callback → Except Impl Impl
  | .onMethod piece => .ok (s.onMethod piece)
  | .onUrl piece => .ok (s.onUrl piece)
  | .onHeaderField piece => s.onHeaderField piece
  | .onHeaderValue piece => .ok (s.onHeaderValue piece)
  | .onHeadersComplete info => s.onHeadersComplete info
  | .onBody piece => s.onBody piece
  | .onMessageComplete => .ok s.onMessageComplete

/-- The callbacks of one `llhttp_execute`, up to the first one that reports an error. -/
def deliver : Impl → List Callback → Except Impl Impl := Gluing.run onCallback

end HttpParser.Impl

/-! ## The parser -/

namespace HttpParser

variable {σ : Type} (L : Llhttp σ)

/-- The constructor. How vectors grow is the standard library's affair. -/
def create (config : ParserConfig) (growth : Growth := .doubling) : HttpParser σ :=
  ⟨some L.init, { config := config, headerStorage := .empty growth }⟩

/-- `feed`, once llhttp has returned: `s` is what the callbacks made of the parser's state. -/
def finishFeed (s : Impl) (result : Llhttp.Result σ) :
    Except ParseError (ParsedRequest HeaderView) × HttpParser σ :=
  if s.hasError then (.error s.lastError, ⟨result.next, s⟩)
  else
    match result with
    | .paused next _ =>
      if s.complete then
        -- the header vector is moved out with the request
        (.ok { s.pending with body := s.chunkBuf },
          ⟨some next, { s with pending := { s.pending with body := s.chunkBuf, headers := [] } }⟩)
      else (.error .badRequest, ⟨some next, s⟩)
    | .ok next => (.error .incomplete, ⟨some next, s⟩)
    | .error => (.error .badRequest, ⟨none, s⟩)

/-- `feed` -/
def feed (p : HttpParser σ) (data : Bytes) :
    Except ParseError (ParsedRequest HeaderView) × HttpParser σ :=
  match p.parser with
  -- llhttp repeats an error without calling back
  | none => finishFeed p.impl .error
  | some st =>
    match p.impl.deliver (L.execute st data).1 with
    | .ok s => finishFeed s (L.execute st data).2
    | .error s => finishFeed s .error

/-- `reset` -/
def reset (p : HttpParser σ) : HttpParser σ :=
  ⟨some L.init,
    { p.impl with
      pending := {}
      chunkBuf := []
      methodBuf := []
      targetBuf := []
      fieldBuf := []
      valueBuf := []
      headerStorage := p.impl.headerStorage.clear
      inValue := false
      headerCount := 0
      bodyByteCount := 0
      complete := false
      hasError := false }⟩

/-- Feeding reads one after another for as long as more data is needed: the first other answer, the
parser after it and the reads that were not fed. -/
def feedReads (p : HttpParser σ) :
    List Bytes → Except ParseError (ParsedRequest HeaderView) × HttpParser σ × List Bytes
  | [] => (.error .incomplete, p, [])
  | data :: reads =>
    match feed L p data with
    | (.error .incomplete, p') => p'.feedReads reads
    | (answer, p') => (answer, p', reads)

/-- Nothing of an earlier request is left in the parser's own state. -/
structure Impl.Blank (s : Impl) : Prop where
  methodBuf : s.methodBuf = []
  targetBuf : s.targetBuf = []
  fieldBuf : s.fieldBuf = []
  valueBuf : s.valueBuf = []
  inValue : s.inValue = false
  pending : s.pending = {}
  chunkBuf : s.chunkBuf = []
  storage : s.headerStorage.entries = []
  headerCount : s.headerCount = 0
  bodyByteCount : s.bodyByteCount = 0
  complete : s.complete = false
  hasError : s.hasError = false

/-- A parser that is ready for a request. -/
structure Fresh (p : HttpParser σ) : Prop where
  parser : p.parser = some L.init
  blank : p.impl.Blank

theorem fresh_create (config : ParserConfig) (growth : Growth := .doubling) :
    Fresh L (create L config growth) := by
  refine ⟨rfl, ?_⟩
  constructor <;> rfl

theorem fresh_reset (p : HttpParser σ) : Fresh L (p.reset L) := by
  refine ⟨rfl, ?_⟩
  constructor <;> rfl

end HttpParser

end Aevox
