import Aevox.App.Dispatch
import Aevox.Http.Replay
import Aevox.Library.SharedFate

/-!
# Connections that share a process

Every accepted connection is driven by `dispatch_handler`, a coroutine nobody awaits, whose
`unhandled_exception` terminates the process. The server is therefore a host of independent
connections that share one fate: a connection whose coroutine ends in an exception takes all others
with it. The exceptions that get so far are those a handler or a middleware throws and no middleware
around it catches; the framework raises none.
-/

namespace Aevox

open Coroutine SharedFate

variable {σ : Type}

namespace Conn

/-! ## One connection -/

/-- The coroutine has ended in an exception. -/
def threw (c : Conn σ) : Bool :=
  match c.phase with
  | .finished (.error _) => true
  | _ => false

variable (L : Llhttp σ) (app : App) (config : AppConfig)

/-- A connection as the executor drives it: events it does not wait for do not happen, and an
exception that leaves it reaches `std::terminate`. -/
def process : Process (Conn σ) Event where
  step c e := (c.step L app config e).getD c
  fatal := threw
  fatal_step := by
    intro c e h
    rw [threw] at h
    split at h
    · rename_i hphase
      rcases e with data | success | answer
      all_goals
        rw [step, hphase]
        change c.threw = true
        rw [threw, hphase]
    · exact absurd h Bool.false_ne_true

variable {L app config}

/-- The outcome is a response. -/
def returns (_ : Bool) (r : Except Exn Response) : Prop := ∃ res, r = .ok res

/-- The connection has not thrown, and the dispatch in flight will not. -/
def Tame (c : Conn σ) : Prop :=
  match c.phase with
  | .awaiting _ k => ∀ answer, (k answer).wp streamContract returns c.streamRef
  | .upgrading _ k => ∀ success, (k success).wp streamContract returns c.streamRef
  | .finished (.error _) => False
  | _ => True

theorem preserved_true : Preserved fun _ : Conn σ ↦ True where
  phase _ _ := trivial
  enter _ _ := trivial
  upgrade _ _ _ := trivial
  handOver _ _ := trivial

theorem tame_advance {keepAlive : Bool} {task : Task Response} {c : Conn σ}
    (hwp : task.wp streamContract returns c.streamRef) : (c.advance keepAlive task).Tame := by
  have hsettled : Settled (fun _ ↦ True) returns keepAlive (c.advance keepAlive task) :=
    settled_advance preserved_true trivial hwp
  generalize c.advance keepAlive task = c' at hsettled ⊢
  rcases hsettled with ⟨hphase, -, hk⟩ | ⟨hphase, -, hk⟩ | ⟨-, res, rfl⟩ | ⟨hphase, -⟩
  · rw [Tame, hphase]
    exact hk
  · rw [Tame, hphase]
    exact hk
  · rw [conclude]
    split <;> trivial
  · rw [Tame, hphase]
    trivial

theorem tame_of_moves {c c' : Conn σ} {e : Event} (hc : c.Tame) (h : Moves L app config c e c')
    (hreturns : ∀ req, .dispatch req ∈ c'.log →
      (app.dispatchWithPipeline req).wp streamContract returns true) : c'.Tame := by
  rcases h with _ | _ | _ | _ | hphase | hphase | _ | _ | _
  case dispatch =>
    refine tame_advance (hreturns _ ?_)
    rw [dispatch_mem_advance_iff]
    exact List.mem_append_right _ List.mem_cons_self
  case resume =>
    rw [Tame, hphase] at hc
    exact tame_advance (hc _)
  case upgrade =>
    rw [Tame, hphase] at hc
    exact tame_advance (hc _)
  all_goals trivial

/-- **Where exceptions come from.** A connection that throws has let a request into the pipeline
that can end in an exception. -/
theorem exists_ends_of_threw {es : List Event} {c : Conn σ}
    (hrun : run L app config (start L app config) es = some c) (hthrew : c.threw = true) :
    ∃ req present e, .dispatch req ∈ c.log ∧
      (app.dispatchWithPipeline req).Ends streamContract true present (.error e) := by
  by_contra hnone
  -- then every pipeline of the run ends in a response, and so does the run's every dispatch
  have hreturns : ∀ req, .dispatch req ∈ c.log →
      (app.dispatchWithPipeline req).wp streamContract returns true := by
    intro req hmem
    refine (App.keeps_dispatchWithPipeline req).wp_iff.mpr fun present r hend ↦ ?_
    rcases r with e | res
    · exact absurd ⟨req, present, e, hmem, hend⟩ hnone
    · exact ⟨res, rfl⟩
  have htame : c.Tame :=
    run_invariant_of_requests (fun hc h hreturns ↦ tame_of_moves hc h hreturns) trivial hrun
      hreturns
  rw [threw] at hthrew
  split at hthrew
  · rename_i hphase
    rwa [Tame, hphase] at htame
  · exact Bool.false_ne_true hthrew

end Conn

/-! ## The server -/

namespace Server

variable {ι : Type} [DecidableEq ι] (L : Llhttp σ) (app : App) (config : AppConfig)

/-- The server with its connections, before any of them has received anything. -/
def start : Host ι (Conn σ) := ⟨true, fun _ ↦ .start L app config⟩

/-- The server after a schedule: the events of its connections in the order they happened. -/
def run (es : List (ι × Event)) : Host ι (Conn σ) :=
  (start L app config).run (Conn.process L app config) es

/-- A connection served all by itself, with the events a schedule has for it. -/
def alone (es : List (ι × Event)) (i : ι) : Conn σ :=
  (start L app config).alone (Conn.process L app config) es i

/-- The process keeps running and every connection is where it would be without the others. -/
def FaultsContained (es : List (ι × Event)) : Prop :=
  (run L app config es).running = true ∧
    ∀ i, (run L app config es).state i = alone L app config es i

variable {L app config}

theorem running_iff {es : List (ι × Event)} :
    (run L app config es).running = true ↔ ∀ i, (alone L app config es i).threw = false :=
  running_run_iff rfl (fun _ ↦ rfl) es

/-- As long as the process runs, connections do not affect each other. -/
theorem faultsContained_of_running {es : List (ι × Event)}
    (h : (run L app config es).running = true) : FaultsContained L app config es :=
  ⟨h, fun i ↦ state_run h i⟩

/-- **Faults are contained only if there are none.** After a schedule the process is running, with
every connection unaffected by the others, exactly when no connection on its own would have ended in
an exception. -/
theorem faultsContained_iff {es : List (ι × Event)} :
    FaultsContained L app config es ↔ ∀ i, (alone L app config es i).threw = false := by
  constructor
  · exact fun h ↦ running_iff.mp h.1
  · exact fun h ↦ faultsContained_of_running (running_iff.mpr h)

/-- A request for `/boom`. -/
def boomScript : Llhttp.Script := .request "GET" "/boom" [] {}

/-- An application whose handler for `GET /boom` throws. -/
def throwingApp : App :=
  { platform := ⟨id, fun _ ↦ ([], []), .doubling⟩
    router := routerOf [.route [] kGet [.static (ascii "boom")] (some fun _ ↦ raise 0)]
    globalMiddlewares := []
    scopedMiddlewares := [] }

/-- One request whose handler throws stops a server with two connections. -/
theorem not_faultsContained_of_throw :
    ¬∀ (σ : Type) (L : Llhttp σ) (app : App) (config : AppConfig) (es : List (Bool × Event)),
      FaultsContained L app config es := by
  intro h
  have hrunning := (h _ (Llhttp.replay boomScript) throwingApp {}
    [(true, .readDone (some boomScript.wire))]).1
  have hstopped : (run (Llhttp.replay boomScript) throwingApp {}
      [(true, .readDone (some boomScript.wire))]).running = false := by
    decide +kernel
  exact Bool.false_ne_true (hstopped.symm.trans hrunning)

theorem exists_run_eq_alone (es : List (ι × Event)) (i : ι) :
    ∃ es', Conn.run L app config (.start L app config) es' = some (alone L app config es i) := by
  rw [alone, Host.alone]
  induction own i es using List.reverseRecOn with
  | nil => exact ⟨[], rfl⟩
  | append_singleton es e ih =>
    obtain ⟨es', hrun⟩ := ih
    rw [List.foldl_append, List.foldl_cons, List.foldl_nil]
    rcases hstep : (es.foldl (Conn.process L app config).step (.start L app config)).step L app
      config e with _ | c
    · refine ⟨es', hrun.trans (congrArg some ?_)⟩
      exact (congrArg (Option.getD · _) hstep).symm
    · refine ⟨es' ++ [e], Machine.run_trans hrun ?_⟩
      refine Machine.run_cons_eq_some_iff.mpr ⟨c, hstep, congrArg some ?_⟩
      exact (congrArg (Option.getD · _) hstep).symm

/-- If no request can end in an exception, connections never affect each other. -/
theorem faultsContained_of_returns
    (hreturns : ∀ req present e,
      ¬(app.dispatchWithPipeline req).Ends streamContract true present (.error e))
    (es : List (ι × Event)) : FaultsContained L app config es := by
  refine faultsContained_of_running (running_iff.mpr fun i ↦ ?_)
  obtain ⟨es', hrun⟩ := exists_run_eq_alone (L := L) es i
  by_contra hthrew
  rw [Bool.not_eq_false] at hthrew
  obtain ⟨req, present, e, -, hend⟩ := Conn.exists_ends_of_threw hrun hthrew
  exact hreturns req present e hend

end Server

end Aevox
