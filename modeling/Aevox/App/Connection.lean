import Aevox.App.Pipeline
import Aevox.Http.Fragmentation
import Aevox.Library.Machine

/-!
# The connection handler

`connection_handler` serves one connection: it reads until the parser has a request, dispatches it
through the pipeline, writes the response and reads on. It is a machine whose states are the places
where the coroutine is suspended, and whose events are what it is resumed with: the outcome of a
read, the outcome of a write, the answer to something the application awaits.

The `log` lists what the connection does, in order. It is the only thing that is ever said about a
run, so a statement about it speaks of every way of cutting the input into reads, of every timing,
and of every answer the application may get.
-/

namespace Aevox

open Coroutine

/-- `AppConfig`, as far as connections read it. -/
structure AppConfig where
  maxBodySize : ℕ := 10 * 1024 * 1024
  maxHeaderCount : ℕ := 100

/-- The limits the handler passes on to its parser. -/
def AppConfig.parserConfig (config : AppConfig) : ParserConfig :=
  { maxHeaderCount := config.maxHeaderCount
    maxBodyBytes := config.maxBodySize }

/-! ## States -/

/-- What a connection does. -/
inductive Entry where
  /-- `stream.read` is called. -/
  | read
  /-- A request enters the pipeline. -/
  | dispatch (req : Request)
  /-- The request reaches a stage of the pipeline. -/
  | enter (stage : Stage)
  /-- `upgrade_websocket` writes to the stream. -/
  | upgrade (bytes : Bytes)
  /-- The stream is moved into a session. -/
  | handOver
  /-- The handler writes to the stream. -/
  | write (bytes : Bytes)
  deriving DecidableEq

/-- Where the coroutine is suspended, and what it does with the answer. -/
inductive Phase where
  | reading
  | awaiting (keepAlive : Bool) (k : ℕ → Task Response)
  | upgrading (keepAlive : Bool) (k : Bool → Task Response)
  | responding (keepAlive : Bool)
  /-- In the write of the 400 response to a request that could not be parsed. -/
  | refusing
  /-- The coroutine has returned or ended in an exception. -/
  | finished (outcome : Except Exn Unit)
  /-- The application called an empty function object. -/
  | undefined

/-- A connection with its parser and the request in flight. -/
structure Conn (σ : Type) where
  parser : HttpParser σ
  /-- `req_impl->stream()` is set. -/
  streamRef : Bool
  log : List Entry
  phase : Phase

/-- What a connection is resumed with. -/
inductive Event where
  /-- The outcome of `stream.read`: none on an I/O error, no bytes at the end of the stream. -/
  | readDone (data : Option Bytes)
  /-- Whether the write succeeded. -/
  | writeDone (success : Bool)
  | awaited (answer : ℕ)
  deriving DecidableEq

namespace Conn

variable {σ : Type}

/-! ## Steps -/

/-- One more entry in the log. -/
def record (c : Conn σ) (e : Entry) : Conn σ := { c with log := c.log ++ [e] }

/-- `co_await stream.read(max_read)` -/
def read (c : Conn σ) : Conn σ := { c.record .read with phase := .reading }

/-- The coroutine ends. -/
def finish (c : Conn σ) (outcome : Except Exn Unit) : Conn σ :=
  { c with phase := .finished outcome }

/-- The 400 response to a request that could not be parsed. -/
def refuse (c : Conn σ) : Conn σ :=
  { c.record (.write (serializeResponse (.badRequest (ascii "Bad Request")))) with
    phase := .refusing }

/-- What the handler does with the outcome of the dispatch. Only the status code tells it whether
the stream is still its own. -/
def conclude (keepAlive : Bool) (c : Conn σ) : Except Exn Response → Conn σ
  | .ok res =>
    if res.statusCode = kStatusSwitchingProtocols then c.finish (.ok ())
    else { c.record (.write (serializeResponse res)) with phase := .responding keepAlive }
  | .error e => c.finish (.error e)

/-- The dispatch runs until it is suspended or ends. -/
def advance (keepAlive : Bool) : Task Response → Conn σ → Conn σ
  | .ret res, c => c.conclude keepAlive (.ok res)
  | .raise e, c => c.conclude keepAlive (.error e)
  | .call .await k, c => { c with phase := .awaiting keepAlive k }
  | .call (.enter stage) k, c => advance keepAlive (k ()) (c.record (.enter stage))
  | .call .streamRef k, c => advance keepAlive (k c.streamRef) c
  | .call (.write bytes) k, c =>
    { c.record (.upgrade bytes) with phase := .upgrading keepAlive k }
  | .call .handOver k, c =>
    advance keepAlive (k ()) { c.record .handOver with streamRef := false }
  | .call .callEmpty _, c => { c with phase := .undefined }

variable (L : Llhttp σ) (app : App) (config : AppConfig)

/-- The request made of what the parser returned; its header pairs are what their views show. -/
def requestOf (c : Conn σ) (parsed : ParsedRequest HeaderView) : Request where
  parsed := parsed.mapHeaders fun view ↦
    (c.parser.impl.headerStorage.lookup view).getD (app.platform.stale view)
  maxPayload := config.maxBodySize

/-- The request enters the pipeline, with the stream. -/
def accept (c : Conn σ) (req : Request) : Conn σ :=
  { c.record (.dispatch req) with streamRef := true }

/-- A read has brought data. -/
def receive (c : Conn σ) (data : Bytes) : Conn σ :=
  match c.parser.feed L data with
  | (.ok parsed, p) =>
    let c' := { c with parser := p }
    let req := c'.requestOf app config parsed
    (c'.accept req).advance parsed.keepAlive (app.dispatchWithPipeline req)
  | (.error .incomplete, p) => read { c with parser := p }
  | (.error _, p) => refuse { c with parser := p }

/-- The read is over. -/
def afterRead (c : Conn σ) : Option Bytes → Conn σ
  | none => c.finish (.ok ())
  | some data => if data = [] then c.finish (.ok ()) else c.receive L app config data

/-- The handler is resumed; `none` when it does not wait for this event. -/
def step (c : Conn σ) : Event → Option (Conn σ)
  | .readDone data =>
    match c.phase with
    | .reading => some (c.afterRead L app config data)
    | _ => none
  | .writeDone success =>
    match c.phase with
    | .upgrading keepAlive k => some (c.advance keepAlive (k success))
    | .responding keepAlive =>
      if success ∧ keepAlive then some (read { c with parser := c.parser.reset L })
      else some (c.finish (.ok ()))
    | .refusing => some (c.finish (.ok ()))
    | _ => none
  | .awaited answer =>
    match c.phase with
    | .awaiting keepAlive k => some (c.advance keepAlive (k answer))
    | _ => none

/-- A new connection, which reads. -/
def start : Conn σ :=
  read
    { parser := .create L config.parserConfig app.platform.growth
      streamRef := false
      log := []
      phase := .reading }

/-- The connection after some events. -/
def run (c : Conn σ) (es : List Event) : Option (Conn σ) := Machine.run (step L app config) c es

/-! ## What a step can be -/

/-- The steps of a connection, one by one. -/
inductive Moves : Conn σ → Event → Conn σ → Prop
  /-- The client is gone. -/
  | close {c data} (h : c.phase = .reading) (hdata : data = none ∨ data = some []) :
      Moves c (.readDone data) (c.finish (.ok ()))
  /-- The request is not complete yet. -/
  | more {c data p} (h : c.phase = .reading) (hdata : data ≠ [])
      (hfeed : c.parser.feed L data = (.error .incomplete, p)) :
      Moves c (.readDone (some data)) (read { c with parser := p })
  /-- The request cannot be parsed. -/
  | reject {c data p e} (h : c.phase = .reading) (hdata : data ≠ [])
      (hfeed : c.parser.feed L data = (.error e, p)) (he : e ≠ .incomplete) :
      Moves c (.readDone (some data)) (refuse { c with parser := p })
  /-- The request is complete. -/
  | dispatch {c data parsed p req} (h : c.phase = .reading) (hdata : data ≠ [])
      (hfeed : c.parser.feed L data = (.ok parsed, p))
      (hreq : req = requestOf app config { c with parser := p } parsed) :
      Moves c (.readDone (some data))
        ((accept { c with parser := p } req).advance parsed.keepAlive
          (app.dispatchWithPipeline req))
  /-- An awaited answer arrives. -/
  | resume {c keepAlive k answer} (h : c.phase = .awaiting keepAlive k) :
      Moves c (.awaited answer) (c.advance keepAlive (k answer))
  /-- The 101 response has been written, or not. -/
  | upgrade {c keepAlive k success} (h : c.phase = .upgrading keepAlive k) :
      Moves c (.writeDone success) (c.advance keepAlive (k success))
  /-- The response has been written and the connection goes on. -/
  | next {c} (h : c.phase = .responding true) :
      Moves c (.writeDone true) (read { c with parser := c.parser.reset L })
  /-- The response was the last one. -/
  | hangUp {c keepAlive success} (h : c.phase = .responding keepAlive)
      (hlast : (success && keepAlive) = false) : Moves c (.writeDone success) (c.finish (.ok ()))
  /-- The 400 response is out. -/
  | refused {c success} (h : c.phase = .refusing) :
      Moves c (.writeDone success) (c.finish (.ok ()))

variable {L app config}

theorem receive_of_ok {c : Conn σ} {data : Bytes} {parsed : ParsedRequest HeaderView}
    {p : HttpParser σ} (hfeed : c.parser.feed L data = (.ok parsed, p)) :
    c.receive L app config data
      = (accept { c with parser := p } (requestOf app config { c with parser := p } parsed)).advance
          parsed.keepAlive
          (app.dispatchWithPipeline (requestOf app config { c with parser := p } parsed)) := by
  rw [receive, hfeed]

theorem receive_of_incomplete {c : Conn σ} {data : Bytes} {p : HttpParser σ}
    (hfeed : c.parser.feed L data = (.error .incomplete, p)) :
    c.receive L app config data = read { c with parser := p } := by
  rw [receive, hfeed]

theorem receive_of_error {c : Conn σ} {data : Bytes} {p : HttpParser σ} {e : ParseError}
    (hfeed : c.parser.feed L data = (.error e, p)) (he : e ≠ .incomplete) :
    c.receive L app config data = refuse { c with parser := p } := by
  rw [receive, hfeed]
  rcases e with _ | _ | _ | _ | _
  · exact absurd rfl he
  all_goals rfl

theorem step_readDone {c : Conn σ} (h : c.phase = .reading) {data : Bytes} (hdata : data ≠ []) :
    c.step L app config (.readDone (some data)) = some (c.receive L app config data) := by
  rw [step, h]
  exact congrArg some (if_neg hdata)

theorem moves_receive {c : Conn σ} (h : c.phase = .reading) {data : Bytes} (hdata : data ≠ []) :
    Moves L app config c (.readDone (some data)) (c.receive L app config data) := by
  rcases hfeed : c.parser.feed L data with ⟨e | parsed, p⟩
  · by_cases he : e = .incomplete
    · subst he
      rw [receive_of_incomplete hfeed]
      exact .more h hdata hfeed
    · rw [receive_of_error hfeed he]
      exact .reject h hdata hfeed he
  · rw [receive_of_ok hfeed]
    exact .dispatch h hdata hfeed rfl

theorem step_eq_some_iff {c c' : Conn σ} {e : Event} :
    c.step L app config e = some c' ↔ Moves L app config c e c' := by
  constructor
  · -- each event is awaited in some phases only, and there the step is one move
    intro h
    rcases e with data | success | answer
    · rw [step] at h
      split at h
      · rename_i hphase
        rw [← Option.some.inj h]
        rcases data with _ | data
        · exact .close hphase (Or.inl rfl)
        · rw [afterRead]
          split
          · rename_i hempty
            exact .close hphase (Or.inr (congrArg some hempty))
          · exact moves_receive hphase ‹_›
      · exact absurd h (Option.some_ne_none _).symm
    · rw [step] at h
      split at h
      · rw [← Option.some.inj h]
        exact .upgrade ‹_›
      · rename_i keepAlive hphase
        split at h
        · rename_i hboth
          obtain ⟨rfl, rfl⟩ := hboth
          rw [← Option.some.inj h]
          exact .next hphase
        · rename_i hboth
          rw [← Option.some.inj h]
          refine .hangUp hphase ?_
          rw [← Bool.not_eq_true, Bool.and_eq_true]
          exact hboth
      · rw [← Option.some.inj h]
        exact .refused ‹_›
      · exact absurd h (Option.some_ne_none _).symm
    · rw [step] at h
      split at h
      · rw [← Option.some.inj h]
        exact .resume ‹_›
      · exact absurd h (Option.some_ne_none _).symm
  · rintro (⟨h, rfl | rfl⟩ | ⟨h, hdata, hfeed⟩ | ⟨h, hdata, hfeed, he⟩ | ⟨h, hdata, hfeed, rfl⟩ |
      h | h | h | ⟨h, hlast⟩ | h)
    · rw [step, h]
      rfl
    · rw [step, h]
      rfl
    · rw [step_readDone h hdata, receive_of_incomplete hfeed]
    · rw [step_readDone h hdata, receive_of_error hfeed he]
    · rw [step_readDone h hdata, receive_of_ok hfeed]
    · rw [step, h]
    · rw [step, h]
    · rw [step, h]
      rfl
    · rw [step, h]
      apply if_neg
      rw [← Bool.and_eq_true, hlast]
      exact Bool.false_ne_true
    · rw [step, h]

/-! ## What a dispatch leaves alone -/

end Conn

/-- Entries a dispatch can make: everything but a read and another dispatch. -/
def Entry.isAnswer : Entry → Prop
  | .read => False
  | .dispatch _ => False
  | _ => True

namespace Conn

theorem parser_conclude (keepAlive : Bool) (c : Conn σ) (r : Except Exn Response) :
    (c.conclude keepAlive r).parser = c.parser := by
  rcases r with e | res
  · rfl
  · rw [conclude]
    split <;> rfl

theorem parser_advance (keepAlive : Bool) (task : Task Response) : ∀ c : Conn σ,
    (c.advance keepAlive task).parser = c.parser := by
  induction task with
  | ret res => exact fun c ↦ parser_conclude keepAlive c _
  | raise e => exact fun c ↦ parser_conclude keepAlive c _
  | call op k ih =>
    intro c
    rcases op with _ | stage | _ | bytes | _ | _
    · rfl
    · exact ih () _
    · exact ih c.streamRef c
    · rfl
    · exact ih () _
    · rfl

theorem log_conclude (keepAlive : Bool) (c : Conn σ) (r : Except Exn Response) :
    ∃ entries, (c.conclude keepAlive r).log = c.log ++ entries ∧ ∀ e ∈ entries, e.isAnswer := by
  rcases r with e | res
  · exact ⟨[], (List.append_nil _).symm, fun _ h ↦ absurd h List.not_mem_nil⟩
  · rw [conclude]
    split
    · exact ⟨[], (List.append_nil _).symm, fun _ h ↦ absurd h List.not_mem_nil⟩
    · refine ⟨_, rfl, fun e he ↦ ?_⟩
      rw [List.mem_singleton.mp he]
      trivial

theorem log_advance (keepAlive : Bool) (task : Task Response) : ∀ c : Conn σ,
    ∃ entries, (c.advance keepAlive task).log = c.log ++ entries ∧ ∀ e ∈ entries, e.isAnswer := by
  -- an entry made now stands before those the rest of the task makes
  have hmore : ∀ {c c' : Conn σ} {e : Entry}, e.isAnswer →
      (∃ entries, c'.log = (c.log ++ [e]) ++ entries ∧ ∀ e ∈ entries, e.isAnswer) →
      ∃ entries, c'.log = c.log ++ entries ∧ ∀ e ∈ entries, e.isAnswer := by
    rintro c c' e he ⟨entries, hlog, hall⟩
    refine ⟨e :: entries, by rw [hlog, List.append_assoc, List.singleton_append], fun x hx ↦ ?_⟩
    rcases List.mem_cons.mp hx with rfl | hx
    · exact he
    · exact hall x hx
  induction task with
  | ret res => exact fun c ↦ log_conclude keepAlive c _
  | raise e => exact fun c ↦ log_conclude keepAlive c _
  | call op k ih =>
    intro c
    have hnone : ∃ entries, c.log = c.log ++ entries ∧ ∀ e ∈ entries, e.isAnswer :=
      ⟨[], (List.append_nil _).symm, fun _ h ↦ absurd h List.not_mem_nil⟩
    rcases op with _ | stage | _ | bytes | _ | _
    · exact hnone
    · exact hmore (c := c) (e := .enter stage) trivial (ih () _)
    · exact ih c.streamRef c
    · exact hmore (c := c) (e := .upgrade bytes) trivial
        ⟨[], (List.append_nil _).symm, fun _ h ↦ absurd h List.not_mem_nil⟩
    · exact hmore (c := c) (e := .handOver) trivial (ih () _)
    · exact hnone

theorem dispatch_mem_advance_iff {keepAlive : Bool} {task : Task Response} {c : Conn σ}
    {req : Request} :
    .dispatch req ∈ (c.advance keepAlive task).log ↔ .dispatch req ∈ c.log := by
  obtain ⟨entries, hlog, hall⟩ := log_advance keepAlive task c
  rw [hlog, List.mem_append]
  exact or_iff_left fun h ↦ hall _ h

theorem log_prefix_of_moves {c c' : Conn σ} {e : Event} (h : Moves L app config c e c') :
    c.log <+: c'.log := by
  have hadvance : ∀ {keepAlive : Bool} {task : Task Response} {c : Conn σ},
      c.log <+: (c.advance keepAlive task).log := by
    intro keepAlive task c
    obtain ⟨entries, hlog, -⟩ := log_advance keepAlive task c
    exact ⟨entries, hlog.symm⟩
  rcases h with _ | _ | _ | _ | _ | _ | _ | _ | _
  case close => exact List.prefix_refl _
  case more => exact List.prefix_append _ _
  case reject => exact List.prefix_append _ _
  case dispatch data parsed p req hphase hdata hfeed hreq =>
    exact (List.prefix_append c.log [.dispatch req]).trans
      (hadvance (c := accept { c with parser := p } req))
  case resume => exact hadvance
  case upgrade => exact hadvance
  case next => exact List.prefix_append _ _
  case hangUp => exact List.prefix_refl _
  case refused => exact List.prefix_refl _

theorem config_of_moves {c c' : Conn σ} {e : Event} (h : Moves L app config c e c') :
    c'.parser.impl.config = c.parser.impl.config := by
  have hfeed : ∀ {data answer p}, c.parser.feed L data = (answer, p) →
      p.impl.config = c.parser.impl.config := by
    intro data answer p h
    rw [← HttpParser.config_feed c.parser data, h]
  rcases h with _ | ⟨_, _, h⟩ | ⟨_, _, h, _⟩ | ⟨_, _, h, _⟩ | _ | _ | _ | _ | _
  case more => exact hfeed h
  case reject => exact hfeed h
  case dispatch =>
    rw [parser_advance]
    exact hfeed h
  case resume => rw [parser_advance]
  case upgrade => rw [parser_advance]
  all_goals rfl

theorem config_of_run {es : List Event} {c : Conn σ}
    (hrun : run L app config (start L app config) es = some c) :
    c.parser.impl.config = config.parserConfig := by
  refine Machine.run_invariant
    (I := fun c : Conn σ ↦ c.parser.impl.config = config.parserConfig) ?_ rfl hrun
  exact fun c e c' hc hstep ↦ (config_of_moves (step_eq_some_iff.mp hstep)).trans hc

/-- An invariant of the moves holds after a run, provided that all requests the run has let in have
a property it rests on. -/
theorem run_invariant_of_requests {I : Conn σ → Prop} {R : Request → Prop}
    (hmoves : ∀ {c c' : Conn σ} {e : Event}, I c → Moves L app config c e c' →
      (∀ req, .dispatch req ∈ c'.log → R req) → I c')
    (hstart : I (start L app config)) {es : List Event} {c : Conn σ}
    (hrun : run L app config (start L app config) es = some c)
    (hrequests : ∀ req, .dispatch req ∈ c.log → R req) : I c := by
  refine Machine.run_invariant_of (G := fun c ↦ ∀ req, .dispatch req ∈ c.log → R req)
    ?_ ?_ hstart hrun hrequests
  · intro c e c' hstep h req hmem
    exact h req ((log_prefix_of_moves (step_eq_some_iff.mp hstep)).mem hmem)
  · exact fun c e c' hc hstep h ↦ hmoves hc (step_eq_some_iff.mp hstep) h

/-- A request gets into the log by entering the pipeline. -/
theorem accept_of_moves {c c' : Conn σ} {e : Event} (h : Moves L app config c e c') {req : Request}
    (hnew : .dispatch req ∉ c.log) (hmem : .dispatch req ∈ c'.log) :
    ∃ (c₁ : Conn σ) (keepAlive : Bool),
      c' = (c₁.accept req).advance keepAlive (app.dispatchWithPipeline req) := by
  have hadvance : ∀ {keepAlive : Bool} {task : Task Response},
      .dispatch req ∉ (c.advance keepAlive task).log := by
    intro keepAlive task
    rwa [dispatch_mem_advance_iff]
  rcases h with _ | _ | _ | ⟨_, _, _, rfl⟩ | _ | _ | _ | _ | _
  case dispatch data parsed p hphase hdata hfeed =>
    rw [dispatch_mem_advance_iff] at hmem
    rcases List.mem_append.mp hmem with hmem | hmem
    · exact absurd hmem hnew
    · obtain rfl : req = _ := Entry.dispatch.inj (List.mem_singleton.mp hmem)
      exact ⟨_, _, rfl⟩
  case resume => exact absurd hmem hadvance
  case upgrade => exact absurd hmem hadvance
  case close => exact absurd hmem hnew
  case hangUp => exact absurd hmem hnew
  case refused => exact absurd hmem hnew
  all_goals
    rcases List.mem_append.mp hmem with hmem | hmem
    · exact absurd hmem hnew
    · simp at hmem

end Conn

end Aevox
