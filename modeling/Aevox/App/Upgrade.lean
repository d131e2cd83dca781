import Aevox.App.Dispatch
import Aevox.Http.Replay

/-!
# WebSocket upgrades and the connection's stream

`upgrade_websocket` moves the stream out of the connection handler's hands, and the handler learns
of it only through the status code of the response that comes out of the pipeline: 101 ends the
loop, anything else is written. What keeps the handler off a stream it no longer has is therefore a
property of the application, `Releases`: whatever happens after the hand-over, the pipeline ends in
status 101 or in an exception.

`App::ws` has that property. A handler of its own that upgrades, or a middleware around either, may
not have it.
-/

namespace Aevox

open Coroutine

/-! ## `App::ws` -/

/-- `WebSocketHandler`: how its `on_open` ends, which is called with the open connection. -/
structure WebSocketHandler where
  onOpen : Request → Except Exn Unit

/-- The handler `App::ws` registers, with what `ws_handlers` holds under its pattern. -/
def wsHandler (registered : Option WebSocketHandler) (req : Request) : HandlerCode :=
  if !req.isWebsocketUpgrade then ret (.badRequest (ascii "WebSocket upgrade required"))
  else
    match registered with
    | none => ret (.badRequest (ascii "No WebSocket handler found"))
    | some handler =>
      call .upgradeWebsocket fun (result : Except WebSocketError Unit) ↦
        match result with
        | .error _ => ret (.badRequest (ascii "WebSocket upgrade failed"))
        | .ok () =>
          match handler.onOpen req with
          | .error e => raise e
          -- waits for the session to close
          | .ok () => call .await fun _ ↦ ret .switchingProtocols

/-! ## What is asked of a task and of a log -/

/-- An outcome that makes the handler leave the stream alone. -/
def Released : Except Exn Response → Prop
  | .ok res => res.statusCode = kStatusSwitchingProtocols
  | .error _ => True

/-- A task that has handed over the stream ends in status 101 or in an exception. -/
def Releases (task : Task Response) : Prop :=
  ∀ present r, task.Ends streamContract true present r → present = false → Released r

/-- Reads and writes of the stream. -/
def Entry.touchesStream : Entry → Prop
  | .read => True
  | .write _ => True
  | .upgrade _ => True
  | _ => False

/-- Once the stream has been handed over, it is not touched any more. -/
def LeavesStream (log : List Entry) : Prop :=
  ∀ before after, log = before ++ .handOver :: after → ∀ e ∈ after, ¬e.touchesStream

theorem leavesStream_of_not_mem {log : List Entry} (h : .handOver ∉ log) : LeavesStream log := by
  rintro before after rfl
  exact absurd (List.mem_append_right _ List.mem_cons_self) h

theorem LeavesStream.concat {log : List Entry} (h : LeavesStream log) {e : Entry}
    (he : ¬e.touchesStream) : LeavesStream (log ++ [e]) := by
  intro before after hsplit x hx
  rcases List.eq_nil_or_concat' after with rfl | ⟨after', y, rfl⟩
  · exact absurd hx List.not_mem_nil
  · rw [← List.cons_append, ← List.append_assoc] at hsplit
    obtain ⟨hlog, hlast⟩ := List.append_inj' hsplit rfl
    rcases List.mem_append.mp hx with hx | hx
    · exact h before after' hlog x hx
    · rw [List.mem_singleton.mp hx, ← List.singleton_inj.mp hlast]
      exact he

theorem not_leavesStream_concat {log : List Entry} (h : .handOver ∈ log) {e : Entry}
    (he : e.touchesStream) : ¬LeavesStream (log ++ [e]) := by
  obtain ⟨before, after, rfl⟩ := List.append_of_mem h
  intro hleaves
  refine hleaves before (after ++ [e]) ?_ e (List.mem_append_right _ List.mem_cons_self) he
  rw [List.append_assoc, List.cons_append]

/-- An upgrade that fails leaves the stream with the request. -/
theorem wp_upgradeWebsocket (platform : Platform) (req : Request) :
    (upgradeWebsocket platform req).wp streamContract
      (fun present r ↦ ∀ e, r = .ok (.error e) → present = true) true := by
  refine ⟨trivial, ?_⟩
  rintro present s' ⟨rfl, rfl⟩
  dsimp only
  rw [if_pos rfl]
  split
  · exact fun _ _ ↦ rfl
  · refine ⟨rfl, fun written s'' hs ↦ ?_⟩
    rcases written with _ | _
    · exact fun _ _ ↦ hs
    · exact ⟨hs, fun _ _ _ _ h ↦ by cases h⟩

theorem releases_wsHandler (platform : Platform) (registered : Option WebSocketHandler)
    (req : Request) : Releases ((wsHandler registered req).run platform req) := by
  refine (keeps_run platform req _).wp_iff.mp ?_
  unfold wsHandler
  split
  · exact fun h ↦ absurd h.symm Bool.false_ne_true
  · rcases registered with _ | handler
    · exact fun h ↦ absurd h.symm Bool.false_ne_true
    · refine wp_attempt ?_ (wp_upgradeWebsocket platform req)
      rintro present (e | e | _) h
      · exact fun _ ↦ trivial
      · exact fun hgone ↦ absurd (hgone.symm.trans (h e rfl)) Bool.false_ne_true
      · dsimp only
        split
        · exact fun _ ↦ trivial
        · exact ⟨trivial, fun _ _ _ _ ↦ rfl⟩

namespace Conn

variable {σ : Type} {L : Llhttp σ} {app : App} {config : AppConfig}

/-! ## The invariant -/

/-- During a dispatch: the stream has been left alone so far, and the request refers to it unless
it has been handed over. -/
structure Owns (c : Conn σ) : Prop where
  leaves : LeavesStream c.log
  present : c.streamRef = true → .handOver ∉ c.log

/-- `Releases` as a postcondition. -/
def releasing (present : Bool) (r : Except Exn Response) : Prop := present = false → Released r

/-- The stream has been left alone and will be, whatever the rest of the dispatch does. -/
def Safe (c : Conn σ) : Prop :=
  match c.phase with
  | .awaiting _ k => c.Owns ∧ ∀ answer, (k answer).wp streamContract releasing c.streamRef
  | .upgrading _ k => c.Owns ∧ ∀ success, (k success).wp streamContract releasing c.streamRef
  | .finished _ => LeavesStream c.log
  | .undefined => LeavesStream c.log
  | _ => .handOver ∉ c.log

theorem safe_conclude {keepAlive : Bool} {c : Conn σ} (hc : c.Owns) {r : Except Exn Response}
    (hr : releasing c.streamRef r) : (c.conclude keepAlive r).Safe := by
  rcases r with e | res
  · exact hc.leaves
  · rw [conclude]
    split
    · exact hc.leaves
    · rename_i hcode
      have hpresent : c.streamRef = true := by
        by_contra hgone
        exact hcode (hr (Bool.not_eq_true _ ▸ hgone))
      change Entry.handOver ∉ c.log ++ [_]
      rw [List.mem_append, not_or]
      exact ⟨hc.present hpresent, by simp⟩

theorem preserved_owns : Preserved (Owns (σ := σ)) where
  phase _ hc := ⟨hc.leaves, hc.present⟩
  enter stage hc := ⟨hc.leaves.concat id, fun h ↦ by simpa [record] using hc.present h⟩
  upgrade bytes hpresent hc :=
    -- a write needs the stream, so it has not been handed over
    have hout := by simpa [record] using hc.present hpresent
    ⟨leavesStream_of_not_mem hout, fun _ ↦ hout⟩
  handOver hpresent hc :=
    ⟨(leavesStream_of_not_mem (hc.present hpresent)).concat id, fun h ↦ by cases h⟩

/-- A dispatch that satisfies its weakest precondition leads to a safe state. -/
theorem safe_advance {keepAlive : Bool} {task : Task Response} {c : Conn σ} (hc : c.Owns)
    (hwp : task.wp streamContract releasing c.streamRef) : (c.advance keepAlive task).Safe := by
  have hsettled : Settled Owns releasing keepAlive (c.advance keepAlive task) :=
    settled_advance preserved_owns hc hwp
  generalize c.advance keepAlive task = c' at hsettled ⊢
  rcases hsettled with ⟨hphase, hP, hk⟩ | ⟨hphase, hP, hk⟩ | ⟨hP, hQ⟩ | ⟨hphase, hP⟩
  · rw [Safe, hphase]
    exact ⟨hP, hk⟩
  · rw [Safe, hphase]
    exact ⟨hP, hk⟩
  · exact safe_conclude hP hQ
  · rw [Safe, hphase]
    exact hP.leaves

theorem safe_of_moves {c c' : Conn σ} {e : Event} (hc : c.Safe) (h : Moves L app config c e c')
    (hrel : ∀ req, .dispatch req ∈ c'.log → Releases (app.dispatchWithPipeline req)) : c'.Safe := by
  have hread : c.phase = .reading → .handOver ∉ c.log := by
    intro hphase
    rwa [Safe, hphase] at hc
  rcases h with _ | _ | _ | ⟨hphase, hdata, hfeed, rfl⟩ | hphase | hphase | hphase |
    ⟨hphase, hlast⟩ | hphase
  case close hphase hdata => exact leavesStream_of_not_mem (hread hphase)
  case more hphase hdata hfeed =>
    change Entry.handOver ∉ c.log ++ [_]
    simpa using hread hphase
  case reject hphase hdata hfeed he =>
    change Entry.handOver ∉ c.log ++ [_]
    simpa using hread hphase
  case dispatch data parsed p =>
    have hout : .handOver ∉
        c.log ++ [.dispatch (requestOf app config { c with parser := p } parsed)] := by
      simpa using hread hphase
    refine safe_advance ⟨leavesStream_of_not_mem hout, fun _ ↦ hout⟩ ?_
    refine (App.keeps_dispatchWithPipeline _).wp_iff.mpr (hrel _ ?_)
    rw [dispatch_mem_advance_iff]
    exact List.mem_append_right _ List.mem_cons_self
  case resume =>
    rw [Safe, hphase] at hc
    exact safe_advance hc.1 (hc.2 _)
  case upgrade =>
    rw [Safe, hphase] at hc
    exact safe_advance hc.1 (hc.2 _)
  case next =>
    rw [Safe, hphase] at hc
    change Entry.handOver ∉ c.log ++ [_]
    simpa using hc
  case hangUp =>
    rw [Safe, hphase] at hc
    exact leavesStream_of_not_mem hc
  case refused =>
    rw [Safe, hphase] at hc
    exact leavesStream_of_not_mem hc

theorem Safe.leavesStream {c : Conn σ} (hc : c.Safe) : LeavesStream c.log := by
  rw [Safe] at hc
  split at hc
  · exact hc.1.leaves
  · exact hc.1.leaves
  · exact hc
  · exact hc
  · exact leavesStream_of_not_mem hc

theorem safe_of_run {es : List Event} {c : Conn σ}
    (hrun : run L app config (start L app config) es = some c)
    (hrel : ∀ req, .dispatch req ∈ c.log → Releases (app.dispatchWithPipeline req)) : c.Safe := by
  refine run_invariant_of_requests (fun hc h hrel ↦ safe_of_moves hc h hrel) ?_ hrun hrel
  change Entry.handOver ∉ [_]
  simp

/-! ## Runs decide -/

theorem preserved_gone : Preserved fun c : Conn σ ↦ c.streamRef = false → .handOver ∈ c.log where
  phase _ hc := hc
  enter _ hc h := List.mem_append_left _ (hc h)
  upgrade _ _ hc h := List.mem_append_left _ (hc h)
  handOver _ _ _ := List.mem_append_right _ List.mem_cons_self

theorem releases_of_runs {keepAlive : Bool} {task : Task Response} {c : Conn σ}
    (hkeeps : task.Keeps streamContract) (hpresent : c.streamRef = true)
    (hruns : ∀ es c', run L app config (c.advance keepAlive task) es = some c' →
      LeavesStream c'.log) : Releases task := by
  intro present r hend hgone
  rw [← hpresent] at hend
  obtain ⟨es, c₁, hrun, hout, rfl, -⟩ := exists_run_of_ends preserved_gone
    (fun h ↦ absurd (hpresent.symm.trans h) Bool.false_ne_true.symm) (hkeeps c.streamRef) hend
  rcases r with e | res
  · trivial
  · -- any other status is written, after the hand-over
    by_contra hcode
    have hlog := hruns es _ hrun
    rw [conclude, if_neg (show ¬res.statusCode = kStatusSwitchingProtocols from hcode)] at hlog
    exact not_leavesStream_concat (e := .write _) (hout hgone) trivial hlog

/-- **The stream after an upgrade.** No run of a connection touches the stream after it has been
handed over exactly when every request a run can let in is answered, after a hand-over, by status
101 or an exception. -/
theorem leavesStream_iff :
    (∀ es c, run L app config (start L app config) es = some c → LeavesStream c.log)
      ↔ ∀ es c req, run L app config (start L app config) es = some c → .dispatch req ∈ c.log →
          Releases (app.dispatchWithPipeline req) := by
  constructor
  · -- the runs from where the request was let in are the runs of its task
    intro h es c req hrun hmem
    obtain ⟨es₁, c₁, e, c₂, hrun₁, hnew, hstep, hmem₂, -⟩ :=
      Machine.exists_step_of_run (P := fun c : Conn σ ↦ .dispatch req ∈ c.log)
        (by simp [start, read, record]) hmem hrun
    obtain ⟨c₀, keepAlive, rfl⟩ := accept_of_moves (step_eq_some_iff.mp hstep) hnew hmem₂
    have hruns : ∀ es' c', run L app config
        ((c₀.accept req).advance keepAlive (app.dispatchWithPipeline req)) es' = some c' →
        LeavesStream c'.log := by
      intro es' c' hrun'
      exact h (es₁ ++ e :: es') c'
        (Machine.run_trans hrun₁ (Machine.run_cons_eq_some_iff.mpr ⟨_, hstep, hrun'⟩))
    exact releases_of_runs (App.keeps_dispatchWithPipeline req) rfl hruns
  · exact fun h es c hrun ↦ (safe_of_run hrun fun req ↦ h es c req hrun).leavesStream

end Conn

/-- A handler that upgrades and then answers as usual. -/
def upgradeThenOk : Handler := fun _ ↦
  call .upgradeWebsocket fun _ ↦ ret (.ok (ascii "bye"))

/-- An application with that handler for `GET /ws`. -/
def upgradingApp : App :=
  { platform := ⟨id, fun _ ↦ ([], []), .doubling⟩
    router := routerOf [.route [] kGet [.static (ascii "ws")] (some upgradeThenOk)]
    globalMiddlewares := []
    scopedMiddlewares := [] }

/-- An upgrade request, with what llhttp reports at each byte. -/
def upgradeScript : Llhttp.Script :=
  .request "GET" "/ws"
    [("Upgrade", "websocket"), ("Connection", "Upgrade"), ("Sec-WebSocket-Key", "a2V5")]
    { upgrade := true }

/-- The handler's response is written to the stream that was handed over. -/
theorem not_leavesStream_of_ok_after_upgrade :
    ¬∀ (σ : Type) (L : Llhttp σ) (app : App) (config : AppConfig) (es : List Event) (c : Conn σ),
      Conn.run L app config (Conn.start L app config) es = some c → LeavesStream c.log := by
  intro h
  have hlast : ((Conn.run (Llhttp.replay upgradeScript) upgradingApp {}
      (Conn.start (Llhttp.replay upgradeScript) upgradingApp {})
      [.readDone (some upgradeScript.wire), .writeDone true]).map fun c ↦ c.log.drop 4)
      = some [.handOver, .write (serializeResponse (.ok (ascii "bye")))] := by
    decide +kernel
  obtain ⟨c, hrun, hdrop⟩ := Option.map_eq_some_iff.mp hlast
  refine h _ _ _ _ _ c hrun (c.log.take 4) [.write (serializeResponse (.ok (ascii "bye")))] ?_ _
    List.mem_cons_self trivial
  rw [← hdrop, List.take_append_drop]

end Aevox
