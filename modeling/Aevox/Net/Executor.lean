import Aevox.Library.Machine
import Mathlib.Logic.Function.Basic

/-!
# The executor

One thread calls `listen` and `run`, any number of others call `stop`. All of them meet in one
atomic state: `listen` takes it from `Idle` to `Configured`, `run` to `Running` and in the end to
`Stopped`, `stop` from `Running` to `Draining` or, before `run`, from `Configured` to `Stopped`.

Each atomic operation is one step, together with what its thread does before the next one; so are
the creation of a thread and each operation that other threads can see. In between, any thread may
take any number of steps.

## The I/O context

A worker leaves the event loop when the context has been stopped or has run out of work, which stops
it as well. Work is the guard that `run` holds, the closing of the acceptors that `stop` has posted,
the accept loops and the connections.
-/

namespace Aevox

namespace AsioExecutor

/-- `AsioExecutor::State` -/
inductive State where
  | idle
  | configured
  | running
  | draining
  | stopped
  deriving DecidableEq

/-- The order of the states. -/
def State.rank : State → ℕ
  | .idle => 0
  | .configured => 1
  | .running => 2
  | .draining => 3
  | .stopped => 4

/-- `ExecutorError` -/
inductive ExecutorError where
  | bindFailed
  | listenFailed
  | alreadyRunning
  deriving DecidableEq

inductive Operation where
  | listen
  | run
  deriving DecidableEq

/-- A call of the thread that listens and runs. -/
structure Call where
  operation : Operation
  /-- What it is rejected with, when it has returned. -/
  error : Option ExecutorError := none
  /-- What it has stored in `state_`. -/
  writes : List State := []
  /-- The worker threads it has started. -/
  started : ℕ := 0
  /-- Before it began, a `stop` had completed after a successful `listen`. -/
  stoppedBefore : Bool := false

/-- The next step of the thread that listens and runs. -/
inductive MainPoint where
  | idle
  | listenLoad
  /-- Opens, binds and registers the acceptor. -/
  | listenBind
  | listenConfigure
  | runLoad
  | runGuard (current : State)
  | runStart (current : State)
  /-- The state has been another one; `current` is what it was. -/
  | runRelease (current : State)
  | runSpawn (left : ℕ)
  | runAccept
  | runJoin
  | runTest
  | runSignal
  | runJoinDrain
  /-- The store of `Stopped`, and success. -/
  | runStop
  deriving DecidableEq

/-- The next step of a `stop` call. -/
inductive StopPoint where
  | casRunning
  | casConfigured
  | closeAcceptors
  | stopContext
  | postClose
  | releaseGuard
  | resetSignal
  | startDrainThread
  deriving DecidableEq

/-- The drain timer thread. -/
inductive DrainThread where
  | waiting
  /-- The grace period is over. -/
  | expired
  | finished
  deriving DecidableEq

end AsioExecutor

open AsioExecutor

/-- `AsioExecutor`, with its threads and its callers. -/
structure AsioExecutor (ι : Type*) where
  threadCount : ℕ
  state : State := .idle
  /-- The acceptors that were registered. -/
  acceptLoops : ℕ := 0
  /-- `work_guard_` has a value. -/
  workGuard : Bool := false
  contextStopped : Bool := false
  closesPosted : ℕ := 0
  acceptorsClosed : Bool := false
  accepting : ℕ := 0
  connections : ℕ := 0
  /-- The workers in the event loop. -/
  workers : ℕ := 0
  /-- The workers that have left it and have not been joined. -/
  exited : ℕ := 0
  /-- `drain_thread_`, if it is joinable. -/
  drainThread : Option DrainThread := none
  drainSignaled : Bool := false
  /-- The future of `drain_signal_` is ready. -/
  signalSet : Bool := false
  main : MainPoint := .idle
  /-- The call that is under way. -/
  call : Call := ⟨.listen, none, [], 0, false⟩
  /-- The calls that have returned. -/
  log : List Call := []
  stops : ι → Option StopPoint
  /-- How often the drain sequence has been started. -/
  drains : ℕ := 0
  /-- A `stop` has completed after a successful `listen` and outside `run`. -/
  stopCompleted : Bool := false

namespace AsioExecutor

/-- A step of a worker, or its end. -/
inductive WorkerEvent where
  | runClose
  | accept
  | acceptEnds
  | connectionEnds
  | exits

/-- What can happen next. -/
inductive Event (ι : Type*) where
  | callListen
  | callRun
  /-- The thread that listens and runs takes its next step. -/
  | main
  /-- The operating system refuses the port, because it is taken or for another reason. -/
  | bindRefused (inUse : Bool)
  | callStop (caller : ι)
  | stop (caller : ι)
  | worker (e : WorkerEvent)
  /-- The grace period ends. -/
  | expire
  /-- The drain timer thread takes its last step. -/
  | drainEnds

/-- `make_executor`: zero threads are as many as the hardware runs, but at least one. -/
def resolveThreadCount (threadCount hardwareConcurrency : ℕ) : ℕ :=
  if threadCount = 0 then max 1 hardwareConcurrency else threadCount

variable {ι : Type*}

/-- `make_executor` -/
def makeExecutor (threadCount hardwareConcurrency : ℕ) : AsioExecutor ι where
  threadCount := resolveThreadCount threadCount hardwareConcurrency
  stops _ := none

namespace MainPoint

/-- The thread is in `run`. -/
def inRun : MainPoint → Bool
  | .idle | .listenLoad | .listenBind | .listenConfigure => false
  | _ => true

/-- `run` has made the transition to `Running` and has not finished joining. -/
def ownsThreads : MainPoint → Bool
  | .runSpawn _ | .runAccept | .runJoin | .runTest | .runSignal | .runJoinDrain => true
  | _ => false

end MainPoint

/-- The drain sequence is under way and its thread has not been created. -/
def StopPoint.startsThread : StopPoint → Bool
  | .postClose | .releaseGuard | .resetSignal | .startDrainThread => true
  | _ => false

/-- The work of the I/O context. -/
def outstanding (s : AsioExecutor ι) : ℕ :=
  s.workGuard.toNat + s.closesPosted + s.accepting + s.connections

/-- A `listen` has succeeded. -/
def listened (s : AsioExecutor ι) : Bool :=
  s.log.any fun c ↦ c.operation = .listen && c.error.isNone

/-- A call begins. -/
def begins (s : AsioExecutor ι) (operation : Operation) (main : MainPoint) : AsioExecutor ι :=
  { s with main, call := { operation, stoppedBefore := s.stopCompleted } }

/-- The call returns. -/
def returns (s : AsioExecutor ι) (error : Option ExecutorError) : AsioExecutor ι :=
  { s with main := .idle, log := s.log ++ [{ s.call with error }] }

/-- The call stores a state. -/
def stores (s : AsioExecutor ι) (state : State) : AsioExecutor ι :=
  { s with state, call := { s.call with writes := s.call.writes ++ [state] } }

/-- `listen` and `run` -/
def mainStep (s : AsioExecutor ι) : Option (AsioExecutor ι) :=
  match s.main with
  | .idle => none
  | .listenLoad =>
    if s.state ≠ .idle ∧ s.state ≠ .configured then some (s.returns (some .alreadyRunning))
    else some { s with main := .listenBind }
  | .listenBind => some { s with acceptLoops := s.acceptLoops + 1, main := .listenConfigure }
  | .listenConfigure =>
    if s.state = .idle then some ((s.stores .configured).returns none) else some (s.returns none)
  | .runLoad =>
    if s.state = .draining ∨ s.state = .stopped then some { s with main := .runStop }
    else if s.state ≠ .configured ∧ s.state ≠ .idle then some (s.returns (some .alreadyRunning))
    else some { s with main := .runGuard s.state }
  | .runGuard current => some { s with workGuard := true, main := .runStart current }
  | .runStart current =>
    if s.state = current then some { s.stores .running with main := .runSpawn s.threadCount }
    else some { s with main := .runRelease s.state }
  | .runRelease current =>
    if current = .draining ∨ current = .stopped then
      some { s with workGuard := false, main := .runStop }
    else some ({ s with workGuard := false }.returns (some .alreadyRunning))
  | .runSpawn 0 => some { s with main := .runAccept }
  | .runSpawn (left + 1) =>
    some { s with
      workers := s.workers + 1
      call := { s.call with started := s.call.started + 1 }
      main := .runSpawn left }
  | .runAccept => some { s with accepting := s.accepting + s.acceptLoops, main := .runJoin }
  | .runJoin =>
    -- joining blocks until a worker has left the event loop
    if s.exited ≠ 0 then some { s with exited := s.exited - 1 }
    else if s.workers = 0 then some { s with main := .runTest }
    else none
  | .runTest =>
    if s.drainThread.isSome then some { s with main := .runSignal }
    else some { s with main := .runStop }
  | .runSignal =>
    some { s with
      drainSignaled := true
      signalSet := if s.drainSignaled then s.signalSet else true
      main := .runJoinDrain }
  | .runJoinDrain =>
    if s.drainThread = some .finished then some { s with drainThread := none, main := .runStop }
    else none
  | .runStop => some ((s.stores .stopped).returns none)

section Steps

variable [DecidableEq ι]

/-- A `stop` call gets to its next step. -/
def stopAt (s : AsioExecutor ι) (caller : ι) (point : StopPoint) : AsioExecutor ι :=
  { s with stops := Function.update s.stops caller (some point) }

/-- A `stop` call returns. -/
def stopReturns (s : AsioExecutor ι) (caller : ι) : AsioExecutor ι :=
  { s with
    stops := Function.update s.stops caller none
    stopCompleted := s.stopCompleted || (s.listened && !s.main.inRun) }

section Callers

variable (s : AsioExecutor ι) {caller i : ι}

theorem stops_stopAt_self (point : StopPoint) :
    (s.stopAt caller point).stops caller = some point := Function.update_self _ _ _

theorem stops_stopAt_of_ne (hi : i ≠ caller) (point : StopPoint) :
    (s.stopAt caller point).stops i = s.stops i := Function.update_of_ne hi _ _

theorem stops_stopReturns_self : (s.stopReturns caller).stops caller = none :=
  Function.update_self _ _ _

theorem stops_stopReturns_of_ne (hi : i ≠ caller) :
    (s.stopReturns caller).stops i = s.stops i := Function.update_of_ne hi _ _

end Callers

/-- `stop` -/
def stopStep (s : AsioExecutor ι) (caller : ι) : StopPoint → AsioExecutor ι
  | .casRunning =>
    if s.state = .running then
      { s with state := .draining, drains := s.drains + 1 }.stopAt caller .postClose
    else s.stopAt caller .casConfigured
  | .casConfigured =>
    if s.state = .configured then { s with state := .stopped }.stopAt caller .closeAcceptors
    -- idle, draining or stopped
    else s.stopReturns caller
  | .closeAcceptors => { s with acceptorsClosed := true }.stopAt caller .stopContext
  | .stopContext => { s with contextStopped := true }.stopReturns caller
  | .postClose => { s with closesPosted := s.closesPosted + 1 }.stopAt caller .releaseGuard
  | .releaseGuard => { s with workGuard := false }.stopAt caller .resetSignal
  | .resetSignal =>
    { s with drainSignaled := false, signalSet := false }.stopAt caller .startDrainThread
  | .startDrainThread => { s with drainThread := some .waiting }.stopReturns caller

end Steps

/-- A worker in the event loop. -/
def workerStep (s : AsioExecutor ι) : WorkerEvent → Option (AsioExecutor ι)
  | .exits =>
    if s.contextStopped ∨ s.outstanding = 0 then
      some { s with workers := s.workers - 1, exited := s.exited + 1, contextStopped := true }
    else none
  | .runClose =>
    if s.contextStopped = false ∧ s.closesPosted ≠ 0 then
      some { s with closesPosted := s.closesPosted - 1, acceptorsClosed := true }
    else none
  | .accept =>
    if s.contextStopped = false ∧ s.accepting ≠ 0 ∧ s.acceptorsClosed = false then
      some { s with connections := s.connections + 1 }
    else none
  | .acceptEnds =>
    if s.contextStopped = false ∧ s.accepting ≠ 0 ∧ s.acceptorsClosed = true then
      some { s with accepting := s.accepting - 1 }
    else none
  | .connectionEnds =>
    if s.contextStopped = false ∧ s.connections ≠ 0 then
      some { s with connections := s.connections - 1 }
    else none

section Run

variable [DecidableEq ι]

/-- What happens, if it can. -/
def step (s : AsioExecutor ι) : Event ι → Option (AsioExecutor ι)
  | .callListen => if s.main = .idle then some (s.begins .listen .listenLoad) else none
  | .callRun => if s.main = .idle then some (s.begins .run .runLoad) else none
  | .main => s.mainStep
  | .bindRefused inUse =>
    if s.main = .listenBind then
      some (s.returns (some (if inUse then .bindFailed else .listenFailed)))
    else none
  | .callStop caller => if s.stops caller = none then some (s.stopAt caller .casRunning) else none
  | .stop caller => (s.stops caller).map (s.stopStep caller)
  | .worker e => if s.workers ≠ 0 then s.workerStep e else none
  | .expire =>
    if s.drainThread = some .waiting ∧ s.signalSet = false then
      some { s with drainThread := some .expired }
    else none
  | .drainEnds =>
    match s.drainThread with
    | some .expired => some { s with drainThread := some .finished, contextStopped := true }
    | some .waiting => if s.signalSet then some { s with drainThread := some .finished } else none
    | _ => none

/-- The state after a sequence of events. -/
def run (s : AsioExecutor ι) (es : List (Event ι)) : Option (AsioExecutor ι) :=
  Machine.run step s es

end Run

/-! ## What a step does -/

variable {s s' : AsioExecutor ι}

/-- **What the thread that listens and runs does**, branch by branch. -/
inductive MainMoves (s : AsioExecutor ι) : AsioExecutor ι → Prop
  | refusesListen (hmain : s.main = .listenLoad)
    (hstate : s.state ≠ .idle ∧ s.state ≠ .configured) :
    MainMoves s (s.returns (some .alreadyRunning))
  | loadsListen (hmain : s.main = .listenLoad) : MainMoves s { s with main := .listenBind }
  | binds (hmain : s.main = .listenBind) :
    MainMoves s { s with acceptLoops := s.acceptLoops + 1, main := .listenConfigure }
  | configures (hmain : s.main = .listenConfigure) (hstate : s.state = .idle) :
    MainMoves s ((s.stores .configured).returns none)
  | keepsState (hmain : s.main = .listenConfigure) (hstate : s.state ≠ .idle) :
    MainMoves s (s.returns none)
  | loadsStopped (hmain : s.main = .runLoad) (hstate : s.state = .draining ∨ s.state = .stopped) :
    MainMoves s { s with main := .runStop }
  | refusesRun (hmain : s.main = .runLoad) (hstate : s.state = .running) :
    MainMoves s (s.returns (some .alreadyRunning))
  | loadsRun (hmain : s.main = .runLoad) (hstate : s.state = .idle ∨ s.state = .configured) :
    MainMoves s { s with main := .runGuard s.state }
  | guards {current} (hmain : s.main = .runGuard current) :
    MainMoves s { s with workGuard := true, main := .runStart current }
  | starts (hmain : s.main = .runStart s.state) :
    MainMoves s { s.stores .running with main := .runSpawn s.threadCount }
  | misses {current} (hmain : s.main = .runStart current) (hstate : s.state ≠ current) :
    MainMoves s { s with main := .runRelease s.state }
  | releases {current} (hmain : s.main = .runRelease current)
    (hcurrent : current = .draining ∨ current = .stopped) :
    MainMoves s { s with workGuard := false, main := .runStop }
  | refusesLate {current} (hmain : s.main = .runRelease current)
    (hcurrent : ¬(current = .draining ∨ current = .stopped)) :
    MainMoves s ({ s with workGuard := false }.returns (some .alreadyRunning))
  | spawned (hmain : s.main = .runSpawn 0) : MainMoves s { s with main := .runAccept }
  | spawns {left} (hmain : s.main = .runSpawn (left + 1)) : MainMoves s { s with
      workers := s.workers + 1
      call := { s.call with started := s.call.started + 1 }
      main := .runSpawn left }
  | accepts (hmain : s.main = .runAccept) :
    MainMoves s { s with accepting := s.accepting + s.acceptLoops, main := .runJoin }
  | joins (hmain : s.main = .runJoin) (hexited : s.exited ≠ 0) :
    MainMoves s { s with exited := s.exited - 1, main := .runJoin }
  | joined (hmain : s.main = .runJoin) (hexited : s.exited = 0) (hworkers : s.workers = 0) :
    MainMoves s { s with main := .runTest }
  | finds (hmain : s.main = .runTest) (hdrain : s.drainThread.isSome = true) :
    MainMoves s { s with main := .runSignal }
  | findsNone (hmain : s.main = .runTest) (hdrain : s.drainThread = none) :
    MainMoves s { s with main := .runStop }
  | signals (hmain : s.main = .runSignal) : MainMoves s { s with
      drainSignaled := true
      signalSet := if s.drainSignaled then s.signalSet else true
      main := .runJoinDrain }
  | joinsDrain (hmain : s.main = .runJoinDrain) (hdrain : s.drainThread = some .finished) :
    MainMoves s { s with drainThread := none, main := .runStop }
  | stops (hmain : s.main = .runStop) : MainMoves s ((s.stores .stopped).returns none)

theorem mainMoves_of_mainStep (h : s.mainStep = some s') : MainMoves s s' := by
  cases hmain : s.main with
  | idle =>
    rw [mainStep, hmain] at h
    exact nomatch h
  | listenLoad =>
    rw [mainStep, hmain] at h
    dsimp only at h
    split at h <;> obtain rfl := Option.some.inj h
    · exact .refusesListen hmain ‹_›
    · exact .loadsListen hmain
  | listenBind =>
    rw [mainStep, hmain] at h
    obtain rfl := Option.some.inj h
    exact .binds hmain
  | listenConfigure =>
    rw [mainStep, hmain] at h
    dsimp only at h
    split at h <;> obtain rfl := Option.some.inj h
    · exact .configures hmain ‹_›
    · exact .keepsState hmain ‹_›
  | runLoad =>
    rw [mainStep, hmain] at h
    dsimp only at h
    split at h
    · obtain rfl := Option.some.inj h
      exact .loadsStopped hmain ‹_›
    · split at h <;> obtain rfl := Option.some.inj h
      · refine .refusesRun hmain ?_
        cases hstate : s.state <;> simp_all
      · refine .loadsRun hmain ?_
        cases hstate : s.state <;> simp_all
  | runGuard current =>
    rw [mainStep, hmain] at h
    obtain rfl := Option.some.inj h
    exact .guards hmain
  | runStart current =>
    rw [mainStep, hmain] at h
    dsimp only at h
    split at h <;> obtain rfl := Option.some.inj h
    next hstate => exact .starts (hstate ▸ hmain)
    · exact .misses hmain ‹_›
  | runRelease current =>
    rw [mainStep, hmain] at h
    dsimp only at h
    split at h <;> obtain rfl := Option.some.inj h
    · exact .releases hmain ‹_›
    · exact .refusesLate hmain ‹_›
  | runSpawn left =>
    rw [mainStep, hmain] at h
    cases left <;> obtain rfl := Option.some.inj h
    · exact .spawned hmain
    · exact .spawns hmain
  | runAccept =>
    rw [mainStep, hmain] at h
    obtain rfl := Option.some.inj h
    exact .accepts hmain
  | runJoin =>
    rw [mainStep, hmain] at h
    dsimp only at h
    split at h
    · obtain rfl := Option.some.inj h
      exact .joins hmain ‹_›
    next hexited =>
      split at h
      · obtain rfl := Option.some.inj h
        exact .joined hmain (not_not.mp hexited) ‹_›
      · exact nomatch h
  | runTest =>
    rw [mainStep, hmain] at h
    dsimp only at h
    split at h <;> obtain rfl := Option.some.inj h
    · exact .finds hmain ‹_›
    · exact .findsNone hmain (Option.not_isSome_iff_eq_none.mp ‹_›)
  | runSignal =>
    rw [mainStep, hmain] at h
    obtain rfl := Option.some.inj h
    exact .signals hmain
  | runJoinDrain =>
    rw [mainStep, hmain] at h
    dsimp only at h
    split at h
    · obtain rfl := Option.some.inj h
      exact .joinsDrain hmain ‹_›
    · exact nomatch h
  | runStop =>
    rw [mainStep, hmain] at h
    obtain rfl := Option.some.inj h
    exact .stops hmain

/-- **What a worker does.** It works off what the context has to do, or leaves the event loop. -/
inductive WorkerMoves (s : AsioExecutor ι) : AsioExecutor ι → Prop
  | works (closesPosted : ℕ) (acceptorsClosed : Bool) (accepting connections : ℕ) :
    WorkerMoves s { s with closesPosted, acceptorsClosed, accepting, connections }
  | exits (hcontext : s.contextStopped = true ∨ s.outstanding = 0) : WorkerMoves s { s with
      workers := s.workers - 1, exited := s.exited + 1, contextStopped := true }

theorem workerMoves_of_workerStep {e : WorkerEvent} (h : s.workerStep e = some s') :
    WorkerMoves s s' := by
  cases e with
  | exits =>
    rw [workerStep] at h
    split at h
    · obtain rfl := Option.some.inj h
      exact .exits ‹_›
    · exact nomatch h
  | _ =>
    rw [workerStep] at h
    split at h
    · obtain rfl := Option.some.inj h
      exact .works _ _ _ _
    · exact nomatch h

/-- **What the drain timer thread does.** It moves on, and may stop the context. -/
inductive DrainMoves (s : AsioExecutor ι) : AsioExecutor ι → Prop
  | moves (drainThread : DrainThread) (contextStopped : Bool) (hdrain : s.drainThread ≠ none)
    (hcontext : s.contextStopped = true → contextStopped = true) :
    DrainMoves s { s with drainThread := some drainThread, contextStopped }

variable [DecidableEq ι]

/-- **What a step does.** -/
inductive Moves (s : AsioExecutor ι) : Event ι → AsioExecutor ι → Prop
  | callListen (hmain : s.main = .idle) : Moves s .callListen (s.begins .listen .listenLoad)
  | callRun (hmain : s.main = .idle) : Moves s .callRun (s.begins .run .runLoad)
  | main {t} (h : MainMoves s t) : Moves s .main t
  | bindRefused {inUse} (error : ExecutorError) (hmain : s.main = .listenBind) :
    Moves s (.bindRefused inUse) (s.returns (some error))
  | callStop {caller} (hcaller : s.stops caller = none) :
    Moves s (.callStop caller) (s.stopAt caller .casRunning)
  | stop {caller point} (hcaller : s.stops caller = some point) :
    Moves s (.stop caller) (s.stopStep caller point)
  | worker {e t} (hworkers : s.workers ≠ 0) (h : WorkerMoves s t) : Moves s (.worker e) t
  | drain {e t} (h : DrainMoves s t) : Moves s e t

theorem moves_of_step {e : Event ι} (h : s.step e = some s') : Moves s e s' := by
  cases e with
  | main => exact .main (mainMoves_of_mainStep h)
  | stop caller =>
    obtain ⟨point, hcaller, rfl⟩ := Option.map_eq_some_iff.mp h
    exact .stop hcaller
  | drainEnds =>
    rw [step] at h
    split at h
    next hdrain =>
      obtain rfl := Option.some.inj h
      exact .drain (.moves .finished true (by simp [hdrain]) fun _ ↦ rfl)
    next hdrain =>
      split at h
      · obtain rfl := Option.some.inj h
        exact .drain (.moves .finished s.contextStopped (by simp [hdrain]) id)
      · exact nomatch h
    · exact nomatch h
  | _ =>
    rw [step] at h
    split at h
    next hguard =>
      first
      | exact .worker hguard (workerMoves_of_workerStep h)
      | obtain rfl := Option.some.inj h
        first
        | exact .callListen hguard
        | exact .callRun hguard
        | exact .bindRefused _ hguard
        | exact .callStop hguard
        | exact .drain (.moves .expired s.contextStopped (by simp [hguard.1]) id)
    · exact nomatch h

end AsioExecutor

end Aevox
