import Aevox.Net.Stopping
import Mathlib.Data.List.Range

/-!
# The lifecycle of an application

One thread installs plugins, calls `listen` and destroys the `App`. `listen` starts the plugins in
the order of their installation, publishes the executor to the signal handlers, and calls `listen`
and `run` of the executor; when `run` returns, it flushes the log, destroys its writer, and stops
the plugins in reverse order. If a plugin
does not start or the port cannot be bound, it stops the plugins that it has started and terminates
the process.

Other threads call `App::stop`, which stops the plugins one after another and then the executor, and
signal handlers stop the executor alone. Each call of a plugin is one step, and so is each step of
the executor, whose threads and callers take theirs in between. Nothing is said here about the log:
its calls return when an event says so, which may be never.

A plugin is named by its place in `plugins`. What the thread that listens has done to the plugins is
determined by where it is (`Follows`), and until it has called `run` the executor has no threads and
no connections (`Fresh`).
-/

namespace Aevox

/-- `PluginError` -/
inductive PluginError where
  | invalidArgument
  | alreadyInstalled
  | installFailed
  | startFailed
  | alreadyRunning
  | notRunning
  | dependencyUnavailable
  | unknown
  deriving DecidableEq

namespace Lifecycle

/-- Who calls `Executor::stop`: the destructor, an `App::stop`, or a signal handler. -/
inductive Caller (ι : Type*) where
  | destructor
  | app (i : ι)
  | signal (i : ι)
  deriving DecidableEq

/-- What has been done to a plugin. A call of `stop` comes from the thread that listens, unless it
comes from the `App::stop` of another one. -/
inductive Entry (ι : Type*) where
  | installed (plugin : ℕ)
  | started (plugin : ℕ)
  | startFailed (plugin : ℕ)
  | stopped (plugin : ℕ) (caller : Option ι)

/-- The entry is one of the thread that listens. -/
def Entry.own {ι : Type*} : Entry ι → Bool
  | stopped _ (some _) => false
  | _ => true

/-- The next step of the thread that listens. -/
inductive Main where
  /-- Outside `listen`, before it has been called. -/
  | idle
  | starting (next : ℕ)
  /-- Stops the plugins that have been started, after the next one or the executor has failed. -/
  | rollingBack (started left : ℕ)
  /-- Stores the executor for the signal handlers, and calls its `listen`. -/
  | publishing
  | listening
  | running
  /-- Waits in `log::flush`, or for the thread of the log's writer to be joined. -/
  | flushing
  | stopping (left : ℕ)
  | clearing
  | returned
  | terminated
  | destroying (next : ℕ)
  | destroyingExecutor
  | destroyed
  deriving DecidableEq

/-- What can happen next. -/
inductive Event (ι : Type*) where
  /-- `install` is called, with a null pointer or a plugin whose own `install` returns this. -/
  | install (plugin : Option (Except PluginError Unit))
  | callListen
  /-- `start` of the next plugin returns. -/
  | start (success : Bool)
  /-- The thread that listens takes its next step. -/
  | main
  /-- `log::flush`, `reset_log_writer` and the destructor of the writer have returned. -/
  | flushed
  | destroy
  /-- The executor, one of its threads or one of its callers goes on. -/
  | executor (e : AsioExecutor.Event (Caller ι))
  | callStop (i : ι)
  /-- An `App::stop` takes its next step. -/
  | stop (i : ι)
  /-- A signal arrives. -/
  | signal (i : ι)

end Lifecycle

/-- An `App` with the threads that deal with it. -/
structure Lifecycle (ι : Type*) where
  executor : AsioExecutor (Lifecycle.Caller ι)
  /-- The size of `plugins`. -/
  plugins : ℕ := 0
  main : Lifecycle.Main := .idle
  /-- The next plugin of each `App::stop` that has not come to the executor. -/
  stops : ι → Option ℕ
  /-- `signal_executor` is not null. -/
  signalExecutor : Bool := false
  log : List (Lifecycle.Entry ι) := []
  /-- Who has taken the executor out of `Configured` or `Running`. -/
  stopper : Option (Lifecycle.Caller ι) := none

namespace Lifecycle

variable {ι : Type*}

/-- `App`, with the executor that `make_executor` makes. -/
def start (threadCount hardwareConcurrency : ℕ) : Lifecycle ι where
  executor := AsioExecutor.makeExecutor threadCount hardwareConcurrency
  stops _ := none

def record (s : Lifecycle ι) (entry : Entry ι) : Lifecycle ι := { s with log := s.log ++ [entry] }

/-- `App::install` -/
def install (s : Lifecycle ι) :
    Option (Except PluginError Unit) → Except PluginError Unit × Lifecycle ι
  | none => (.error .invalidArgument, s)
  | some (.error error) => (.error error, s)
  | some (.ok ()) => (.ok (), { s.record (.installed s.plugins) with plugins := s.plugins + 1 })

/-- The process is alive, and the `App` exists. -/
def alive (s : Lifecycle ι) : Bool :=
  match s.main with
  | .terminated | .destroyed => false
  | _ => true

/-- `listen` has begun, and the destructor has not. -/
def listenBegun (s : Lifecycle ι) : Bool :=
  match s.main with
  | .idle | .terminated | .destroying _ | .destroyingExecutor | .destroyed => false
  | _ => true

/-- What the last call of the executor has returned. -/
def lastError (s : Lifecycle ι) : Option AsioExecutor.ExecutorError :=
  s.executor.log.getLast?.bind (·.error)

/-- Whose `stop` has changed the state. -/
def stopperOf (s : Lifecycle ι) (executor : AsioExecutor (Caller ι)) :
    AsioExecutor.Event (Caller ι) → Option (Caller ι)
  | .stop caller => if executor.state = s.executor.state then s.stopper else some caller
  | _ => s.stopper

section Steps

variable [DecidableEq ι]

/-- `listen` and the destructor, apart from `start` of the plugins and the calls of the log. -/
def mainStep (s : Lifecycle ι) : Option (Lifecycle ι) :=
  match s.main with
  | .idle | .flushing | .returned | .terminated | .destroyed => none
  | .starting next => if next < s.plugins then none else some { s with main := .publishing }
  | .rollingBack started (left + 1) =>
    some { s.record (.stopped left none) with main := .rollingBack started left }
  | .rollingBack _ 0 => some { s with main := .terminated }
  | .publishing =>
    (s.executor.step .callListen).map fun executor ↦
      { s with executor, signalExecutor := true, main := .listening }
  | .listening =>
    if s.executor.main ≠ .idle then none
    else if s.lastError.isSome then some { s with main := .rollingBack s.plugins s.plugins }
    else (s.executor.step .callRun).map fun executor ↦ { s with executor, main := .running }
  | .running => if s.executor.main ≠ .idle then none else some { s with main := .flushing }
  | .stopping (left + 1) => some { s.record (.stopped left none) with main := .stopping left }
  | .stopping 0 => some { s with main := .clearing }
  | .clearing => some { s with signalExecutor := false, main := .returned }
  | .destroying next =>
    if next < s.plugins then
      some { s.record (.stopped next none) with main := .destroying (next + 1) }
    else
      (s.executor.step (.callStop .destructor)).map fun executor ↦
        { s with executor, main := .destroyingExecutor }
  | .destroyingExecutor =>
    if s.executor.stops .destructor = none then some { s with main := .destroyed } else none

/-- `App::stop`, before the plugin `next`, or when it has come to the executor. -/
def stopStep (s : Lifecycle ι) (i : ι) (next : ℕ) : Option (Lifecycle ι) :=
  if next < s.plugins then
    some { s.record (.stopped next (some i)) with
      stops := Function.update s.stops i (some (next + 1)) }
  else
    (s.executor.step (.callStop (.app i))).map fun executor ↦
      { s with executor, stops := Function.update s.stops i none }

/-- What happens, if it can. -/
def step (s : Lifecycle ι) : Event ι → Option (Lifecycle ι)
  | .install plugin => if s.main = .idle then some (s.install plugin).2 else none
  | .callListen => if s.main = .idle then some { s with main := .starting 0 } else none
  | .start success =>
    match s.main with
    | .starting next =>
      if next < s.plugins then
        if success then some { s.record (.started next) with main := .starting (next + 1) }
        else some { s.record (.startFailed next) with main := .rollingBack next next }
      else none
    | _ => none
  | .main => s.mainStep
  | .flushed => if s.main = .flushing then some { s with main := .stopping s.plugins } else none
  | .destroy =>
    if s.main = .idle ∨ s.main = .returned then some { s with main := .destroying 0 } else none
  | .executor e =>
    if s.alive ∧ e.isOwn then
      (s.executor.step e).map fun executor ↦
        { s with executor, stopper := s.stopperOf executor e }
    else none
  | .callStop i =>
    if s.listenBegun ∧ s.stops i = none ∧ s.executor.stops (.app i) = none then
      some { s with stops := Function.update s.stops i (some 0) }
    else none
  | .stop i => if s.alive then (s.stops i).bind (s.stopStep i) else none
  | .signal i =>
    if s.alive ∧ s.signalExecutor then
      (s.executor.step (.callStop (.signal i))).map fun executor ↦ { s with executor }
    else none

/-- The state after a sequence of events. -/
def run (s : Lifecycle ι) (es : List (Event ι)) : Option (Lifecycle ι) := Machine.run step s es

end Steps

/-! ## What a step does -/

section Moves

variable [DecidableEq ι]

/-- **What the thread that listens does**, branch by branch. -/
inductive MainMoves (s : Lifecycle ι) : Lifecycle ι → Prop
  | started {next} (hmain : s.main = .starting next) (hnext : ¬next < s.plugins) :
    MainMoves s { s with main := .publishing }
  | rollsBack {started left} (hmain : s.main = .rollingBack started (left + 1)) :
    MainMoves s { s.record (.stopped left none) with main := .rollingBack started left }
  | terminates {started} (hmain : s.main = .rollingBack started 0) :
    MainMoves s { s with main := .terminated }
  | publishes {executor} (hmain : s.main = .publishing)
    (h : s.executor.step .callListen = some executor) :
    MainMoves s { s with executor, signalExecutor := true, main := .listening }
  | fails (hmain : s.main = .listening) (hidle : s.executor.main = .idle) :
    MainMoves s { s with main := .rollingBack s.plugins s.plugins }
  | runs {executor} (hmain : s.main = .listening) (herror : s.lastError = none)
    (hidle : s.executor.main = .idle) (h : s.executor.step .callRun = some executor) :
    MainMoves s { s with executor, main := .running }
  | flushes (hmain : s.main = .running) (hidle : s.executor.main = .idle) :
    MainMoves s { s with main := .flushing }
  | stops {left} (hmain : s.main = .stopping (left + 1)) :
    MainMoves s { s.record (.stopped left none) with main := .stopping left }
  | stopped (hmain : s.main = .stopping 0) : MainMoves s { s with main := .clearing }
  | clears (hmain : s.main = .clearing) :
    MainMoves s { s with signalExecutor := false, main := .returned }
  | destroys {next} (hmain : s.main = .destroying next) (hnext : next < s.plugins) :
    MainMoves s { s.record (.stopped next none) with main := .destroying (next + 1) }
  | destroysExecutor {next executor} (hmain : s.main = .destroying next)
    (hnext : ¬next < s.plugins)
    (h : s.executor.step (.callStop .destructor) = some executor) :
    MainMoves s { s with executor, main := .destroyingExecutor }
  | destroyed (hmain : s.main = .destroyingExecutor) : MainMoves s { s with main := .destroyed }

theorem mainMoves_of_mainStep {s s' : Lifecycle ι} (h : s.mainStep = some s') :
    MainMoves s s' := by
  unfold mainStep at h
  split at h
  · exact nomatch h
  · exact nomatch h
  · exact nomatch h
  · exact nomatch h
  · exact nomatch h
  · split at h
    · exact nomatch h
    · obtain rfl := Option.some.inj h
      exact .started ‹_› ‹_›
  · obtain rfl := Option.some.inj h
    exact .rollsBack ‹_›
  · obtain rfl := Option.some.inj h
    exact .terminates ‹_›
  · obtain ⟨executor, hexecutor, rfl⟩ := Option.map_eq_some_iff.mp h
    exact .publishes ‹_› hexecutor
  · split at h
    · exact nomatch h
    split at h
    · obtain rfl := Option.some.inj h
      exact .fails ‹_› (not_not.mp ‹_›)
    · obtain ⟨executor, hexecutor, rfl⟩ := Option.map_eq_some_iff.mp h
      refine .runs ‹_› ?_ (not_not.mp ‹_›) hexecutor
      exact Option.not_isSome_iff_eq_none.mp ‹_›
  · split at h
    · exact nomatch h
    · obtain rfl := Option.some.inj h
      exact .flushes ‹_› (not_not.mp ‹_›)
  · obtain rfl := Option.some.inj h
    exact .stops ‹_›
  · obtain rfl := Option.some.inj h
    exact .stopped ‹_›
  · obtain rfl := Option.some.inj h
    exact .clears ‹_›
  · split at h
    · obtain rfl := Option.some.inj h
      exact .destroys ‹_› ‹_›
    · obtain ⟨executor, hexecutor, rfl⟩ := Option.map_eq_some_iff.mp h
      exact .destroysExecutor ‹_› ‹_› hexecutor
  · split at h
    · obtain rfl := Option.some.inj h
      exact .destroyed ‹_›
    · exact nomatch h

/-- **What a step does.** -/
inductive Moves (s : Lifecycle ι) : Event ι → Lifecycle ι → Prop
  | refuses {plugin} (hmain : s.main = .idle) : Moves s (.install plugin) s
  | installs {plugin} (hmain : s.main = .idle) : Moves s (.install plugin)
      { s.record (.installed s.plugins) with plugins := s.plugins + 1 }
  | callListen (hmain : s.main = .idle) : Moves s .callListen { s with main := .starting 0 }
  | starts {next} (hmain : s.main = .starting next) (hnext : next < s.plugins) :
    Moves s (.start true) { s.record (.started next) with main := .starting (next + 1) }
  | startFails {next} (hmain : s.main = .starting next) (hnext : next < s.plugins) :
    Moves s (.start false) { s.record (.startFailed next) with main := .rollingBack next next }
  | main {t} (h : MainMoves s t) : Moves s .main t
  | flushed (hmain : s.main = .flushing) : Moves s .flushed { s with main := .stopping s.plugins }
  | destroy (hmain : s.main = .idle ∨ s.main = .returned) :
    Moves s .destroy { s with main := .destroying 0 }
  | executor {e executor} (hown : e.isOwn = true) (h : s.executor.step e = some executor) :
    Moves s (.executor e) { s with executor, stopper := s.stopperOf executor e }
  | callStop {i} (hbegun : s.listenBegun = true) (hexecutor : s.executor.stops (.app i) = none) :
    Moves s (.callStop i) { s with stops := Function.update s.stops i (some 0) }
  | stopPlugin {i next} (hstop : s.stops i = some next) (hnext : next < s.plugins) :
    Moves s (.stop i) { s.record (.stopped next (some i)) with
      stops := Function.update s.stops i (some (next + 1)) }
  | stopExecutor {i next executor} (hstop : s.stops i = some next) (hnext : ¬next < s.plugins)
    (h : s.executor.step (.callStop (.app i)) = some executor) :
    Moves s (.stop i) { s with executor, stops := Function.update s.stops i none }
  | signal {i executor} (hsignal : s.signalExecutor = true)
    (h : s.executor.step (.callStop (.signal i)) = some executor) :
    Moves s (.signal i) { s with executor }

theorem moves_of_step {s s' : Lifecycle ι} {e : Event ι} (h : s.step e = some s') :
    Moves s e s' := by
  cases e with
  | install plugin =>
    rw [step] at h
    split at h
    · obtain rfl := Option.some.inj h
      rcases plugin with _ | error | ⟨⟩
      · exact .refuses ‹_›
      · exact .refuses ‹_›
      · exact .installs ‹_›
    · exact nomatch h
  | callListen =>
    rw [step] at h
    split at h
    · obtain rfl := Option.some.inj h
      exact .callListen ‹_›
    · exact nomatch h
  | start success =>
    rw [step] at h
    split at h
    · split at h
      · cases success with
        | true =>
          obtain rfl := Option.some.inj h
          exact .starts ‹_› ‹_›
        | false =>
          obtain rfl := Option.some.inj h
          exact .startFails ‹_› ‹_›
      · exact nomatch h
    · exact nomatch h
  | main => exact .main (mainMoves_of_mainStep h)
  | flushed =>
    rw [step] at h
    split at h
    · obtain rfl := Option.some.inj h
      exact .flushed ‹_›
    · exact nomatch h
  | destroy =>
    rw [step] at h
    split at h
    · obtain rfl := Option.some.inj h
      exact .destroy ‹_›
    · exact nomatch h
  | executor e =>
    rw [step] at h
    split at h
    · obtain ⟨executor, hexecutor, rfl⟩ := Option.map_eq_some_iff.mp h
      exact .executor (And.right ‹_›) hexecutor
    · exact nomatch h
  | callStop i =>
    rw [step] at h
    split at h
    · obtain rfl := Option.some.inj h
      exact .callStop (And.left ‹_›) (And.right (And.right ‹_›))
    · exact nomatch h
  | stop i =>
    rw [step] at h
    split at h
    · obtain ⟨next, hnext, hstep⟩ := Option.bind_eq_some_iff.mp h
      rw [stopStep] at hstep
      split at hstep
      · obtain rfl := Option.some.inj hstep
        exact .stopPlugin hnext ‹_›
      · obtain ⟨executor, hexecutor, rfl⟩ := Option.map_eq_some_iff.mp hstep
        exact .stopExecutor hnext ‹_› hexecutor
    · exact nomatch h
  | signal i =>
    rw [step] at h
    split at h
    · obtain ⟨executor, hexecutor, rfl⟩ := Option.map_eq_some_iff.mp h
      exact .signal (And.right ‹_›) hexecutor
    · exact nomatch h

end Moves

/-! ## What the thread that listens has done -/

/-- The first `n` plugins have been installed. -/
def installs (n : ℕ) : List (Entry ι) := (List.range n).map .installed

/-- The first `n` plugins have been started. -/
def starts (n : ℕ) : List (Entry ι) := (List.range n).map .started

/-- The first `started` plugins of `n` have been started, and the next one, if there is one, has
failed. -/
def attempt (n started : ℕ) : List (Entry ι) :=
  starts started ++ if started < n then [.startFailed started] else []

/-- The plugins from `left` to `n` have been stopped, the last one first. -/
def stopsFrom (n left : ℕ) : List (Entry ι) :=
  (List.range' left (n - left)).reverse.map (.stopped · none)

/-- The first `n` plugins have been stopped by the destructor. -/
def stopsUpTo (n : ℕ) : List (Entry ι) := (List.range n).map (.stopped · none)

theorem installs_succ (n : ℕ) :
    (installs (n + 1) : List (Entry ι)) = installs n ++ [.installed n] := by
  rw [installs, List.range_succ, List.map_append]
  rfl

theorem starts_succ (n : ℕ) : (starts (n + 1) : List (Entry ι)) = starts n ++ [.started n] := by
  rw [starts, List.range_succ, List.map_append]
  rfl

theorem stopsUpTo_succ (n : ℕ) :
    (stopsUpTo (n + 1) : List (Entry ι)) = stopsUpTo n ++ [.stopped n none] := by
  rw [stopsUpTo, List.range_succ, List.map_append]
  rfl

theorem stopsFrom_self (n : ℕ) : (stopsFrom n n : List (Entry ι)) = [] := by
  rw [stopsFrom, Nat.sub_self]
  rfl

theorem stopsFrom_eq {n left : ℕ} (h : left < n) :
    (stopsFrom n left : List (Entry ι)) = stopsFrom n (left + 1) ++ [.stopped left none] := by
  have hlen : n - left = (n - (left + 1)) + 1 := by omega
  rw [stopsFrom, hlen, List.range'_succ, List.reverse_cons, List.map_append]
  rfl

/-- What the thread that listens has done. -/
def own (s : Lifecycle ι) : List (Entry ι) := s.log.filter Entry.own

theorem own_record {s : Lifecycle ι} {entry : Entry ι} (h : entry.own = true) :
    (s.record entry).own = s.own ++ [entry] := by
  rw [own, record, List.filter_append, List.filter_cons_of_pos h]
  rfl

theorem own_record_of_other {s : Lifecycle ι} {entry : Entry ι} (h : entry.own = false) :
    (s.record entry).own = s.own := by
  have hneg : ¬entry.own = true := by rw [h]; exact Bool.false_ne_true
  rw [own, record, List.filter_append, List.filter_cons_of_neg hneg]
  exact List.append_nil _

/-! ## Where the thread that listens is -/

/-- `listen` of the executor has not been called. -/
structure Untouched (x : AsioExecutor (Caller ι)) : Prop where
  fresh : x.Fresh
  main : x.main = .idle
  state : x.state = .idle
  acceptLoops : x.acceptLoops = 0
  log : x.log = []

/-- `listen` of the executor has been called, and has configured it if it has returned without an
error. -/
structure Listened (x : AsioExecutor (Caller ι)) : Prop where
  fresh : x.Fresh
  before : x.main ≠ .idle → x.state = .idle ∧ x.log = []
  after : x.main = .idle → ∃ c, x.log = [c] ∧ (c.error = none → x.state ≠ .idle)

/-- `run` of the executor has returned, after a `stop`. -/
structure Over (x : AsioExecutor (Caller ι)) (stopper : Option (Caller ι)) : Prop where
  main : x.main = .idle
  stopper : stopper ≠ none

/-- The destructor has done this behind what was there before. -/
inductive Ended (x : AsioExecutor (Caller ι)) (stopper : Option (Caller ι)) (n : ℕ)
    (done : List (Entry ι)) : List (Entry ι) → Prop
  | untouched (h : Untouched x) : Ended x stopper n done (installs n ++ done)
  | returned (h : Over x stopper) :
    Ended x stopper n done (installs n ++ starts n ++ stopsFrom n 0 ++ done)

/-- What is known of the executor and of what the thread that listens has done to `n` plugins when
it is at a point. -/
def At (x : AsioExecutor (Caller ι)) (stopper : Option (Caller ι)) (n : ℕ) (own : List (Entry ι)) :
    Main → Prop
  | .idle => Untouched x ∧ own = installs n
  | .starting next => Untouched x ∧ next ≤ n ∧ own = installs n ++ starts next
  | .publishing => Untouched x ∧ own = installs n ++ starts n
  | .rollingBack started left => x.Fresh ∧ (started < n → Untouched x) ∧
      (left ≤ started ∧ started ≤ n) ∧
      own = installs n ++ attempt n started ++ stopsFrom started left
  | .terminated => x.Fresh ∧ ∃ started ≤ n, (started < n → Untouched x) ∧
      own = installs n ++ attempt n started ++ stopsFrom started 0
  | .listening => Listened x ∧ own = installs n ++ starts n
  | .running => (x.main.inRun = true ∨ Over x stopper) ∧ x.state ≠ .idle ∧
      own = installs n ++ starts n
  | .flushing => Over x stopper ∧ own = installs n ++ starts n
  | .stopping left => Over x stopper ∧ left ≤ n ∧
      own = installs n ++ starts n ++ stopsFrom n left
  | .clearing | .returned => Over x stopper ∧ own = installs n ++ starts n ++ stopsFrom n 0
  | .destroying next => next ≤ n ∧ Ended x stopper n (stopsUpTo next) own
  | .destroyingExecutor | .destroyed => Ended x stopper n (stopsUpTo n) own

/-- What holds in every state that is reached. -/
structure Inv (s : Lifecycle ι) : Prop where
  executor : s.executor.Inv
  timing : s.executor.Timing
  joined : s.executor.Joined
  unstopped : s.stopper = none → s.executor.Unstopped
  stopped : s.stopper ≠ none → 3 ≤ s.executor.state.rank
  main : At s.executor s.stopper s.plugins s.own s.main

theorem Inv.at_of {s : Lifecycle ι} (hs : s.Inv) {p : Main} (hmain : s.main = p) :
    At s.executor s.stopper s.plugins s.own p := hmain ▸ hs.main

theorem inv_start (threadCount hardwareConcurrency : ℕ) :
    (start threadCount hardwareConcurrency : Lifecycle ι).Inv where
  executor := AsioExecutor.inv_makeExecutor threadCount hardwareConcurrency
  timing := (AsioExecutor.threads_makeExecutor threadCount hardwareConcurrency).timing
  joined _ _ _ := ⟨rfl, rfl⟩
  unstopped _ := AsioExecutor.unstopped_makeExecutor threadCount hardwareConcurrency
  stopped h := absurd rfl h
  main := ⟨⟨⟨rfl, rfl, rfl, rfl, rfl, rfl⟩, rfl, rfl, rfl, rfl⟩, rfl⟩

theorem stopperOf_eq_none {s : Lifecycle ι} {executor : AsioExecutor (Caller ι)}
    {e : AsioExecutor.Event (Caller ι)} (h : s.stopperOf executor e = none) :
    s.stopper = none ∧ ∀ caller, e = .stop caller → executor.state = s.executor.state := by
  cases e with
  | stop caller =>
    rw [stopperOf] at h
    split at h
    · exact ⟨h, fun _ _ ↦ ‹_›⟩
    · exact nomatch h
  | _ => exact ⟨h, fun _ h ↦ nomatch h⟩

theorem of_stopperOf {s : Lifecycle ι} {executor : AsioExecutor (Caller ι)}
    {e : AsioExecutor.Event (Caller ι)} (h : s.stopperOf executor e ≠ none)
    (hnone : s.stopper = none) :
    ∃ caller, e = .stop caller ∧ executor.state ≠ s.executor.state := by
  cases e with
  | stop caller =>
    refine ⟨caller, rfl, fun hstate ↦ h ?_⟩
    rw [stopperOf, if_pos hstate, hnone]
  | _ => exact absurd hnone h

section Steps

variable [DecidableEq ι] {s s' : Lifecycle ι}

theorem idle_step {x x' : AsioExecutor (Caller ι)} {e : AsioExecutor.Event (Caller ι)}
    (h : x.step e = some x') (hlisten : e ≠ .callListen) (hrun : e ≠ .callRun)
    (hmain : x.main = .idle) : x'.main = .idle ∧ x'.acceptLoops = x.acceptLoops ∧
      x'.log = x.log ∧ (x.state = .idle → x'.state = .idle) := by
  cases AsioExecutor.moves_of_step h with
  | callListen => exact absurd rfl hlisten
  | callRun => exact absurd rfl hrun
  | main hmoves =>
    rw [AsioExecutor.step, AsioExecutor.mainStep, hmain] at h
    exact absurd h.symm (Option.some_ne_none x')
  | bindRefused error hat => exact absurd (hmain.symm.trans hat) (by simp)
  | callStop => exact ⟨hmain, rfl, rfl, id⟩
  | @stop caller point =>
    obtain ⟨hkeeps, -, -, -, -, hloops, hlog, -⟩ := AsioExecutor.stopStep_keeps x caller point
    exact ⟨hkeeps.trans hmain, hloops, hlog,
      fun hstate ↦ AsioExecutor.stopStep_of_idle hstate caller point⟩
  | worker _ hmoves =>
    cases hmoves with
    | works => exact ⟨hmain, rfl, rfl, id⟩
    | exits => exact ⟨hmain, rfl, rfl, id⟩
  | drain hmoves =>
    cases hmoves with
    | moves => exact ⟨hmain, rfl, rfl, id⟩

theorem ne_idle_step {x x' : AsioExecutor (Caller ι)} {e : AsioExecutor.Event (Caller ι)}
    (hx : x.Inv) (h : x.step e = some x') (hstate : x.state ≠ .idle) : x'.state ≠ .idle := by
  intro hidle
  have hrank := Nat.le_trans (AsioExecutor.one_le_rank hstate) (AsioExecutor.inv_step hx h).2
  rw [hidle] at hrank
  exact absurd hrank (by decide)

omit [DecidableEq ι] in
theorem log_returns {x : AsioExecutor (Caller ι)} (h : x.log = [])
    {error : Option AsioExecutor.ExecutorError} :
    (x.returns error).log = [{ x.call with error }] := by
  rw [AsioExecutor.returns, h]
  rfl

theorem listened_step {x x' : AsioExecutor (Caller ι)} {e : AsioExecutor.Event (Caller ι)}
    (hinv : x.Inv) (htiming : x.Timing) (hx : Listened x) (h : x.step e = some x')
    (hlisten : e ≠ .callListen) (hrun : e ≠ .callRun) : Listened x' := by
  have hne := ne_idle_step hinv h
  have hfresh := AsioExecutor.fresh_step hinv htiming hx.fresh hrun h
  have hbefore {p : AsioExecutor.MainPoint} (hp : x.main = p) (hpoint : p ≠ .idle) :
      x.state = .idle ∧ x.log = [] := hx.before (hp ▸ hpoint)
  have hnot {p : AsioExecutor.MainPoint} (hp : x.main = p) (hinRun : p.inRun = true) : False := by
    have hmain := hx.fresh.main
    rw [hp, hinRun] at hmain
    exact Bool.false_ne_true hmain.symm
  have hsame (hmain : x'.main = x.main) (hlog : x'.log = x.log)
      (hstate : x.state = .idle → x'.state = .idle) : Listened x' := by
    refine ⟨hfresh, fun hmoves ↦ ?_, fun hidle ↦ ?_⟩
    · obtain ⟨h₁, h₂⟩ := hx.before (hmain ▸ hmoves)
      exact ⟨hstate h₁, hlog.trans h₂⟩
    · obtain ⟨c, hc, hconfigured⟩ := hx.after (hmain ▸ hidle)
      exact ⟨c, hlog.trans hc, fun herror ↦ hne (hconfigured herror)⟩
  cases AsioExecutor.moves_of_step h with
  | callListen => exact absurd rfl hlisten
  | callRun => exact absurd rfl hrun
  | main hmoves =>
    cases hmoves with
    | refusesListen hat hstate =>
      exact absurd (hbefore hat (by simp)).1 hstate.1
    | loadsListen hat => exact ⟨hfresh, fun _ ↦ hbefore hat (by simp), fun hidle ↦ nomatch hidle⟩
    | binds hat => exact ⟨hfresh, fun _ ↦ hbefore hat (by simp), fun hidle ↦ nomatch hidle⟩
    | configures hat =>
      refine ⟨hfresh, fun hmoves ↦ absurd rfl hmoves, fun _ ↦ ?_⟩
      refine ⟨_, log_returns (x := x.stores .configured) (hbefore hat (by simp)).2, fun _ ↦ ?_⟩
      exact AsioExecutor.State.noConfusion
    | keepsState hat hstate => exact absurd (hbefore hat (by simp)).1 hstate
    | _ => exact (hnot ‹_› rfl).elim
  | bindRefused error hat =>
    refine ⟨hfresh, fun hmoves ↦ absurd rfl hmoves, fun _ ↦ ?_⟩
    refine ⟨_, log_returns (hbefore hat (by simp)).2, fun herror ↦ ?_⟩
    exact absurd herror (Option.some_ne_none error)
  | callStop => exact hsame rfl rfl id
  | @stop caller point =>
    obtain ⟨hmain, -, -, -, -, -, hlog, -⟩ := AsioExecutor.stopStep_keeps x caller point
    exact hsame hmain hlog fun hstate ↦ AsioExecutor.stopStep_of_idle hstate caller point
  | worker hworkers => exact absurd hx.fresh.workers hworkers
  | drain hmoves =>
    cases hmoves with
    | moves => exact hsame rfl rfl id

theorem Inv.executor_step (hs : s.Inv) {e : AsioExecutor.Event (Caller ι)}
    {executor : AsioExecutor (Caller ι)} (h : s.executor.step e = some executor) :
    executor.Inv ∧ executor.Timing ∧ executor.Joined ∧
      (s.stopperOf executor e = none → executor.Unstopped) ∧
      (s.stopperOf executor e ≠ none → 3 ≤ executor.state.rank) := by
  obtain ⟨hinv, hrank⟩ := AsioExecutor.inv_step hs.executor h
  refine ⟨hinv, AsioExecutor.timing_step hs.executor hs.timing h,
    AsioExecutor.joined_step hs.joined h, fun hnone ↦ ?_, fun hsome ↦ ?_⟩
  · obtain ⟨hstopper, hstate⟩ := stopperOf_eq_none hnone
    exact AsioExecutor.unstopped_step (hs.unstopped hstopper) h hstate
  · by_cases hstopper : s.stopper = none
    · obtain ⟨caller, rfl, hne⟩ := of_stopperOf hsome hstopper
      exact AsioExecutor.three_le_rank_of_stop h hne
    · exact (hs.stopped hstopper).trans hrank

/-- What is known at a point stays known while the executor, its threads and its callers move. -/
theorem Inv.at_step (hs : s.Inv) {e : AsioExecutor.Event (Caller ι)}
    {executor : AsioExecutor (Caller ι)} (h : s.executor.step e = some executor)
    (hlisten : e ≠ .callListen) (hrun : e ≠ .callRun) :
    At executor (s.stopperOf executor e) s.plugins s.own s.main := by
  have hfresh (hx : s.executor.Fresh) : executor.Fresh :=
    AsioExecutor.fresh_step hs.executor hs.timing hx hrun h
  have huntouched (hx : Untouched s.executor) : Untouched executor := by
    obtain ⟨hmain, hloops, hlog, hstate⟩ := idle_step h hlisten hrun hx.main
    exact ⟨hfresh hx.fresh, hmain, hstate hx.state, hloops.trans hx.acceptLoops,
      hlog.trans hx.log⟩
  have hover (hx : Over s.executor s.stopper) : Over executor (s.stopperOf executor e) :=
    ⟨(idle_step h hlisten hrun hx.main).1, fun hnone ↦ hx.stopper (stopperOf_eq_none hnone).1⟩
  have hended {done : List (Entry ι)} (hx : Ended s.executor s.stopper s.plugins done s.own) :
      Ended executor (s.stopperOf executor e) s.plugins done s.own := by
    generalize s.own = own at hx
    cases hx with
    | untouched hx => exact .untouched (huntouched hx)
    | returned hx => exact .returned (hover hx)
  have hat := hs.main
  cases hmain : s.main <;> rw [hmain] at hat
  case idle => exact ⟨huntouched hat.1, hat.2⟩
  case starting => exact ⟨huntouched hat.1, hat.2⟩
  case publishing => exact ⟨huntouched hat.1, hat.2⟩
  case rollingBack => exact ⟨hfresh hat.1, fun hlt ↦ huntouched (hat.2.1 hlt), hat.2.2⟩
  case terminated =>
    obtain ⟨hx, started, hstarted, huntouched', hown⟩ := hat
    exact ⟨hfresh hx, started, hstarted, fun hlt ↦ huntouched (huntouched' hlt), hown⟩
  case listening =>
    exact ⟨listened_step hs.executor hs.timing hat.1 h hlisten hrun, hat.2⟩
  case running =>
    refine ⟨?_, ne_idle_step hs.executor h hat.2.1, hat.2.2⟩
    rcases hat.1 with hinRun | hx
    · rcases AsioExecutor.inRun_or_idle hinRun h with hinRun' | hidle
      · exact Or.inl hinRun'
      · refine Or.inr ⟨hidle, fun hnone ↦ ?_⟩
        have hstays := (hs.unstopped (stopperOf_eq_none hnone).1).inRun hinRun h
        rw [hidle] at hstays
        exact Bool.false_ne_true hstays
    · exact Or.inr (hover hx)
  case flushing => exact ⟨hover hat.1, hat.2⟩
  case stopping => exact ⟨hover hat.1, hat.2⟩
  case clearing => exact ⟨hover hat.1, hat.2⟩
  case returned => exact ⟨hover hat.1, hat.2⟩
  case destroying => exact ⟨hat.1, hended hat.2⟩
  case destroyingExecutor => exact hended hat
  case destroyed => exact hended hat

theorem Inv.of_executor (hs : s.Inv) {e : AsioExecutor.Event (Caller ι)}
    {executor : AsioExecutor (Caller ι)} (h : s.executor.step e = some executor)
    (hlisten : e ≠ .callListen) (hrun : e ≠ .callRun) (stops : ι → Option ℕ) :
    Inv { s with executor, stops, stopper := s.stopperOf executor e } := by
  obtain ⟨hinv, htiming, hjoined, hunstopped, hstopped⟩ := hs.executor_step h
  exact ⟨hinv, htiming, hjoined, hunstopped, hstopped, hs.at_step h hlisten hrun⟩

omit [DecidableEq ι] in
theorem Inv.of_main (hs : s.Inv) (hexecutor : s'.executor = s.executor)
    (hstopper : s'.stopper = s.stopper)
    (hmain : At s.executor s.stopper s'.plugins s'.own s'.main) : s'.Inv := by
  refine ⟨hexecutor ▸ hs.executor, hexecutor ▸ hs.timing, hexecutor ▸ hs.joined, ?_, ?_, ?_⟩
  · rw [hexecutor, hstopper]
    exact hs.unstopped
  · rw [hexecutor, hstopper]
    exact hs.stopped
  · rw [hexecutor, hstopper]
    exact hmain

omit [DecidableEq ι] in
theorem own_stop (s : Lifecycle ι) (plugin : ℕ) :
    (s.record (.stopped plugin none)).own = s.own ++ [.stopped plugin none] := own_record rfl

theorem inv_of_mainMoves (hs : s.Inv) (h : MainMoves s s') : s'.Inv := by
  cases h with
  | started hmain hnext =>
    obtain ⟨huntouched, hle, hown⟩ := hs.at_of hmain
    refine hs.of_main rfl rfl ⟨huntouched, ?_⟩
    rw [Nat.le_antisymm hle (Nat.not_lt.mp hnext)] at hown
    exact hown
  | @rollsBack started left hmain =>
    obtain ⟨hfresh, huntouched, ⟨hleft, hstarted⟩, hown⟩ := hs.at_of hmain
    refine hs.of_main rfl rfl ⟨hfresh, huntouched, ⟨Nat.le_of_succ_le hleft, hstarted⟩, ?_⟩
    change (s.record (.stopped left none)).own
      = installs s.plugins ++ attempt s.plugins started ++ stopsFrom started left
    rw [own_stop, hown, stopsFrom_eq (Nat.lt_of_succ_le hleft), List.append_assoc]
  | terminates hmain =>
    obtain ⟨hfresh, huntouched, ⟨-, hstarted⟩, hown⟩ := hs.at_of hmain
    exact hs.of_main rfl rfl ⟨hfresh, _, hstarted, huntouched, hown⟩
  | @publishes executor hmain hx =>
    obtain ⟨huntouched, hown⟩ := hs.at_of hmain
    obtain ⟨hinv, htiming, hjoined, hunstopped, hstopped⟩ := hs.executor_step hx
    have hfresh := AsioExecutor.fresh_step hs.executor hs.timing huntouched.fresh (by simp) hx
    refine ⟨hinv, htiming, hjoined, hunstopped, hstopped, ⟨⟨hfresh, ?_, ?_⟩, hown⟩⟩
    all_goals
      rw [AsioExecutor.step, if_pos huntouched.main] at hx
      obtain rfl := Option.some.inj hx
    · exact fun _ ↦ ⟨huntouched.state, huntouched.log⟩
    · exact fun hidle ↦ AsioExecutor.MainPoint.noConfusion hidle
  | fails hmain =>
    obtain ⟨hlistened, hown⟩ := hs.at_of hmain
    refine hs.of_main rfl rfl ⟨hlistened.fresh, fun hlt ↦ absurd hlt (Nat.lt_irrefl _),
      ⟨Nat.le_refl _, Nat.le_refl _⟩, ?_⟩
    rw [stopsFrom_self, List.append_nil, attempt, if_neg (Nat.lt_irrefl _), List.append_nil]
    exact hown
  | @runs executor hmain herror hidle h =>
    obtain ⟨hlistened, hown⟩ := hs.at_of hmain
    obtain ⟨hinv, htiming, hjoined, hunstopped, hstopped⟩ := hs.executor_step h
    obtain ⟨c, hlog, hstate⟩ := hlistened.after hidle
    rw [lastError, hlog] at herror
    have hconfigured := ne_idle_step hs.executor h (hstate herror)
    refine ⟨hinv, htiming, hjoined, hunstopped, hstopped, ⟨Or.inl ?_, hconfigured, hown⟩⟩
    rw [AsioExecutor.step, if_pos hidle] at h
    rw [← Option.some.inj h]
    rfl
  | flushes hmain hidle =>
    obtain ⟨hinRun | hover, -, hown⟩ := hs.at_of hmain
    · rw [hidle] at hinRun
      exact absurd hinRun Bool.false_ne_true
    · exact hs.of_main rfl rfl ⟨hover, hown⟩
  | @stops left hmain =>
    obtain ⟨hover, hleft, hown⟩ := hs.at_of hmain
    refine hs.of_main rfl rfl ⟨hover, Nat.le_of_succ_le hleft, ?_⟩
    change (s.record (.stopped left none)).own
      = installs s.plugins ++ starts s.plugins ++ stopsFrom s.plugins left
    rw [own_stop, hown, stopsFrom_eq (Nat.lt_of_succ_le hleft), List.append_assoc]
  | stopped hmain =>
    obtain ⟨hover, -, hown⟩ := hs.at_of hmain
    exact hs.of_main rfl rfl ⟨hover, hown⟩
  | clears hmain =>
    have hat := hs.at_of hmain
    exact hs.of_main rfl rfl hat
  | @destroys next hmain hnext =>
    obtain ⟨-, hended⟩ := hs.at_of hmain
    refine hs.of_main rfl rfl ⟨hnext, ?_⟩
    change Ended _ _ s.plugins _ (s.record (.stopped next none)).own
    rw [own_stop, stopsUpTo_succ]
    generalize s.own = own at hended
    cases hended with
    | untouched h =>
      rw [List.append_assoc]
      exact .untouched h
    | returned h =>
      rw [List.append_assoc]
      exact .returned h
  | @destroysExecutor next executor hmain hnext h =>
    obtain ⟨hle, hended⟩ := hs.at_of hmain
    obtain ⟨hinv, htiming, hjoined, hunstopped, hstopped⟩ := hs.executor_step h
    refine ⟨hinv, htiming, hjoined, hunstopped, hstopped, ?_⟩
    have hat := hs.at_step h (by simp) (by simp)
    rw [hmain, Nat.le_antisymm hle (Nat.not_lt.mp hnext)] at hat
    exact hat.2
  | destroyed hmain =>
    have hat := hs.at_of hmain
    exact hs.of_main rfl rfl hat

theorem inv_step {e : Event ι} (hs : s.Inv) (h : s.step e = some s') : s'.Inv := by
  cases moves_of_step h with
  | refuses => exact hs
  | installs hmain =>
    obtain ⟨huntouched, hown⟩ := hs.at_of hmain
    refine hs.of_main rfl rfl ?_
    change At _ _ (s.plugins + 1) (s.record (.installed s.plugins)).own s.main
    rw [hmain, own_record rfl, hown, ← installs_succ]
    exact ⟨huntouched, rfl⟩
  | callListen hmain =>
    obtain ⟨huntouched, hown⟩ := hs.at_of hmain
    refine hs.of_main rfl rfl ⟨huntouched, Nat.zero_le _, ?_⟩
    exact hown.trans (List.append_nil _).symm
  | @starts next hmain hnext =>
    obtain ⟨huntouched, -, hown⟩ := hs.at_of hmain
    refine hs.of_main rfl rfl ⟨huntouched, hnext, ?_⟩
    change (s.record (.started next)).own = installs s.plugins ++ starts (next + 1)
    rw [own_record rfl, hown, starts_succ, List.append_assoc]
  | @startFails next hmain hnext =>
    obtain ⟨huntouched, -, hown⟩ := hs.at_of hmain
    refine hs.of_main rfl rfl ⟨huntouched.fresh, fun _ ↦ huntouched,
      ⟨Nat.le_refl _, hnext.le⟩, ?_⟩
    change (s.record (.startFailed next)).own
      = installs s.plugins ++ attempt s.plugins next ++ stopsFrom next next
    rw [own_record rfl, hown, stopsFrom_self, List.append_nil, attempt, if_pos hnext,
      List.append_assoc]
  | main hmoves => exact inv_of_mainMoves hs hmoves
  | flushed hmain =>
    obtain ⟨hover, hown⟩ := hs.at_of hmain
    refine hs.of_main rfl rfl ⟨hover, Nat.le_refl _, ?_⟩
    rw [stopsFrom_self, List.append_nil]
    exact hown
  | destroy hmain =>
    refine hs.of_main rfl rfl ⟨Nat.zero_le _, ?_⟩
    change Ended _ _ s.plugins [] s.own
    rcases hmain with hmain | hmain
    · obtain ⟨huntouched, hown⟩ := hs.at_of hmain
      rw [hown, ← List.append_nil (installs s.plugins)]
      exact .untouched huntouched
    · obtain ⟨hover, hown⟩ := hs.at_of hmain
      rw [hown, ← List.append_nil (_ ++ stopsFrom s.plugins 0)]
      exact .returned hover
  | @executor e executor hown hx =>
    refine hs.of_executor hx ?_ ?_ s.stops
    · rintro rfl
      exact Bool.false_ne_true hown
    · rintro rfl
      exact Bool.false_ne_true hown
  | callStop => exact ⟨hs.executor, hs.timing, hs.joined, hs.unstopped, hs.stopped, hs.main⟩
  | @stopPlugin i next =>
    refine hs.of_main rfl rfl ?_
    change At _ _ s.plugins (s.record (.stopped next (some i))).own s.main
    rw [own_record_of_other rfl]
    exact hs.main
  | stopExecutor _ _ hx => exact hs.of_executor hx (by simp) (by simp) _
  | signal _ hx => exact hs.of_executor hx (by simp) (by simp) s.stops

theorem inv_of_run {threadCount hardwareConcurrency : ℕ} {es : List (Event ι)}
    (hrun : (start threadCount hardwareConcurrency).run es = some s) : s.Inv :=
  Machine.run_invariant (fun _ _ _ hs hstep ↦ inv_step hs hstep)
    (inv_start threadCount hardwareConcurrency) hrun

/-! ## Who calls `App::stop` -/

/-- The first `n` plugins, stopped by the `App::stop` of this thread. -/
def stopsBy (i : ι) (n : ℕ) : List (Entry ι) := (List.range n).map (.stopped · (some i))

omit [DecidableEq ι] in
theorem stopsBy_succ (i : ι) (n : ℕ) :
    stopsBy i (n + 1) = stopsBy i n ++ [.stopped n (some i)] := by
  rw [stopsBy, List.range_succ, List.map_append]
  rfl

/-- An `App::stop` that has come to a plugin has stopped those in front of it, and one that has come
to the executor all of them. -/
structure Stops (s : Lifecycle ι) : Prop where
  plugins : ∀ i next, s.stops i = some next →
    next ≤ s.plugins ∧ (stopsBy i next).Sublist s.log
  executor : ∀ i, s.executor.stops (.app i) ≠ none → (stopsBy i s.plugins).Sublist s.log
  stopper : ∀ i, s.stopper = some (.app i) → (stopsBy i s.plugins).Sublist s.log
  idle : s.main = .idle → (∀ i, s.stops i = none) ∧ (∀ caller, s.executor.stops caller = none) ∧
    s.stopper = none ∧ s.signalExecutor = false

omit [DecidableEq ι] in
theorem stops_start (threadCount hardwareConcurrency : ℕ) :
    (start threadCount hardwareConcurrency : Lifecycle ι).Stops where
  plugins _ _ h := nomatch h
  executor _ h := absurd rfl h
  stopper _ h := nomatch h
  idle _ := ⟨fun _ ↦ rfl, fun _ ↦ rfl, rfl, rfl⟩

omit [DecidableEq ι] in
theorem Stops.of_main (hs : s.Stops) (hexecutor : s'.executor.stops = s.executor.stops)
    (hstops : s'.stops = s.stops) (hplugins : s'.plugins = s.plugins)
    (hstopper : s'.stopper = s.stopper) (hlog : s.log <+: s'.log) (hmain : s'.main ≠ .idle) :
    s'.Stops where
  plugins i next h := by
    rw [hstops] at h
    obtain ⟨hle, hsub⟩ := hs.plugins i next h
    exact ⟨hplugins ▸ hle, hsub.trans hlog.sublist⟩
  executor i h := by
    rw [hexecutor] at h
    exact hplugins ▸ (hs.executor i h).trans hlog.sublist
  stopper i h := by
    rw [hstopper] at h
    exact hplugins ▸ (hs.stopper i h).trans hlog.sublist
  idle h := absurd h hmain

theorem Stops.of_executor (hs : s.Stops) {e : AsioExecutor.Event (Caller ι)}
    {executor : AsioExecutor (Caller ι)} (h : s.executor.step e = some executor)
    (hcall : ∀ i, e = .callStop (.app i) → (stopsBy i s.plugins).Sublist s.log)
    (hidle : s.main = .idle → ∀ caller, e ≠ .callStop caller)
    {stops : ι → Option ℕ} (hstops : ∀ i, stops i ≠ none → stops i = s.stops i) :
    Stops { s with executor, stops, stopper := s.stopperOf executor e } where
  plugins i next hi := by
    have hi' : stops i = some next := hi
    have hsame := hstops i (by rw [hi']; exact Option.some_ne_none next)
    exact hs.plugins i next (hsame.symm.trans hi')
  executor i hi := by
    rcases AsioExecutor.stops_of_step h hi with hbefore | hbegins
    · exact hs.executor i hbefore
    · exact hcall i hbegins
  stopper i hi := by
    by_cases hsame : s.stopper = some (.app i)
    · exact hs.stopper i hsame
    · have hi' : s.stopperOf executor e = some (.app i) := hi
      cases e with
      | stop caller =>
        rw [stopperOf] at hi'
        split at hi'
        · exact absurd hi' hsame
        · obtain rfl := Option.some.inj hi'
          refine hs.executor i fun hnone ↦ ?_
          rw [AsioExecutor.step, hnone] at h
          exact absurd h.symm (Option.some_ne_none executor)
      | _ => exact absurd hi' hsame
  idle hmain := by
    obtain ⟨h₁, h₂, h₃, h₄⟩ := hs.idle hmain
    refine ⟨fun i ↦ ?_, fun caller ↦ ?_, ?_, h₄⟩
    · by_contra hne
      exact hne ((hstops i hne).trans (h₁ i))
    · by_contra hne
      rcases AsioExecutor.stops_of_step h hne with hbefore | hbegins
      · exact hbefore (h₂ caller)
      · exact hidle hmain caller hbegins
    · by_contra hne
      obtain ⟨caller, rfl, -⟩ := of_stopperOf hne h₃
      rw [AsioExecutor.step, h₂ caller] at h
      exact absurd h.symm (Option.some_ne_none executor)

theorem stops_of_mainMoves (hs : s.Stops) (h : MainMoves s s') : s'.Stops := by
  have hrecord (entry : Entry ι) : s.log <+: (s.record entry).log := List.prefix_append _ _
  have hlisten {executor : AsioExecutor (Caller ι)} {e : AsioExecutor.Event (Caller ι)}
      (hx : s.executor.step e = some executor) (hcall : ∀ i, e ≠ .callStop (.app i))
      (hmain : s.main ≠ .idle) :
      Stops { s with executor, stopper := s.stopperOf executor e } :=
    hs.of_executor hx (fun i hi ↦ absurd hi (hcall i)) (fun h ↦ absurd h hmain) fun _ _ ↦ rfl
  cases h with
  | started => exact hs.of_main rfl rfl rfl rfl List.prefix_rfl (by simp)
  | rollsBack => exact hs.of_main rfl rfl rfl rfl (hrecord _) (by simp)
  | terminates => exact hs.of_main rfl rfl rfl rfl List.prefix_rfl (by simp)
  | publishes hmain hx =>
    exact (hlisten hx (by simp) (by simp [hmain])).of_main rfl rfl rfl rfl List.prefix_rfl (by simp)
  | fails => exact hs.of_main rfl rfl rfl rfl List.prefix_rfl (by simp)
  | runs hmain _ _ hx =>
    exact (hlisten hx (by simp) (by simp [hmain])).of_main rfl rfl rfl rfl List.prefix_rfl (by simp)
  | flushes => exact hs.of_main rfl rfl rfl rfl List.prefix_rfl (by simp)
  | stops => exact hs.of_main rfl rfl rfl rfl (hrecord _) (by simp)
  | stopped => exact hs.of_main rfl rfl rfl rfl List.prefix_rfl (by simp)
  | clears => exact hs.of_main rfl rfl rfl rfl List.prefix_rfl (by simp)
  | destroys => exact hs.of_main rfl rfl rfl rfl (hrecord _) (by simp)
  | destroysExecutor hmain _ hx =>
    exact (hlisten hx (by simp) (by simp [hmain])).of_main rfl rfl rfl rfl List.prefix_rfl (by simp)
  | destroyed => exact hs.of_main rfl rfl rfl rfl List.prefix_rfl (by simp)

theorem stops_step {e : Event ι} (hs : s.Stops) (h : s.step e = some s') : s'.Stops := by
  cases moves_of_step h with
  | refuses => exact hs
  | installs hmain =>
    obtain ⟨hstops, hexecutor, hstopper, hsignal⟩ := hs.idle hmain
    refine ⟨fun i next hi ↦ ?_, fun i hi ↦ absurd (hexecutor _) hi, fun i hi ↦ ?_,
      fun _ ↦ ⟨hstops, hexecutor, hstopper, hsignal⟩⟩
    · exact absurd ((hstops i).symm.trans hi) (by simp)
    · exact absurd (hstopper.symm.trans hi) (by simp)
  | callListen => exact hs.of_main rfl rfl rfl rfl List.prefix_rfl (by simp)
  | starts => exact hs.of_main rfl rfl rfl rfl (List.prefix_append _ _) (by simp)
  | startFails => exact hs.of_main rfl rfl rfl rfl (List.prefix_append _ _) (by simp)
  | main hmoves => exact stops_of_mainMoves hs hmoves
  | flushed => exact hs.of_main rfl rfl rfl rfl List.prefix_rfl (by simp)
  | destroy => exact hs.of_main rfl rfl rfl rfl List.prefix_rfl (by simp)
  | @executor e executor hown hx =>
    have hnot (caller : Caller ι) : e ≠ .callStop caller := by
      rintro rfl
      exact Bool.false_ne_true hown
    exact hs.of_executor hx (fun i hi ↦ absurd hi (hnot _)) (fun _ ↦ hnot) fun _ _ ↦ rfl
  | @callStop i hbegun =>
    refine ⟨fun j next hj ↦ ?_, hs.executor, hs.stopper, fun hmain ↦ ?_⟩
    · change Function.update s.stops i (some 0) j = some next at hj
      by_cases hji : j = i
      · rw [hji, Function.update_self] at hj
        rw [← Option.some.inj hj]
        exact ⟨Nat.zero_le _, List.nil_sublist _⟩
      · rw [Function.update_of_ne hji] at hj
        exact hs.plugins j next hj
    · have hidle : s.main = .idle := hmain
      rw [listenBegun, hidle] at hbegun
      exact absurd hbegun Bool.false_ne_true
  | @stopPlugin i next hstop hnext =>
    have hlog : s.log <+: (s.record (.stopped next (some i))).log := List.prefix_append _ _
    refine ⟨fun j next' hj ↦ ?_, fun j hj ↦ (hs.executor j hj).trans hlog.sublist,
      fun j hj ↦ (hs.stopper j hj).trans hlog.sublist, fun hmain ↦ ?_⟩
    · change Function.update s.stops i (some (next + 1)) j = some next' at hj
      by_cases hji : j = i
      · subst hji
        rw [Function.update_self] at hj
        rw [← Option.some.inj hj, stopsBy_succ]
        exact ⟨hnext, (hs.plugins j next hstop).2.append (List.Sublist.refl _)⟩
      · rw [Function.update_of_ne hji] at hj
        obtain ⟨hle, hsub⟩ := hs.plugins j next' hj
        exact ⟨hle, hsub.trans hlog.sublist⟩
    · exact absurd (((hs.idle hmain).1 i).symm.trans hstop) (by simp)
  | @stopExecutor i next executor hstop hnext hx =>
    obtain ⟨hle, hsub⟩ := hs.plugins i next hstop
    have hall : next = s.plugins := Nat.le_antisymm hle (Nat.not_lt.mp hnext)
    refine hs.of_executor hx (fun j hj ↦ ?_) (fun hmain ↦ ?_) fun j hj ↦ ?_
    · obtain rfl := Caller.app.inj (AsioExecutor.Event.callStop.inj hj)
      exact hall ▸ hsub
    · exact absurd (((hs.idle hmain).1 i).symm.trans hstop) (by simp)
    · by_cases hji : j = i
      · rw [hji, Function.update_self] at hj
        exact absurd rfl hj
      · exact Function.update_of_ne hji _ _
  | signal hsignal hx =>
    refine hs.of_executor hx (fun i hi ↦ by simp at hi) (fun hmain ↦ ?_) fun _ _ ↦ rfl
    exact absurd ((hs.idle hmain).2.2.2.symm.trans hsignal) Bool.false_ne_true

theorem stops_of_run {threadCount hardwareConcurrency : ℕ} {es : List (Event ι)}
    (hrun : (start threadCount hardwareConcurrency).run es = some s) : s.Stops :=
  Machine.run_invariant (fun _ _ _ hs hstep ↦ stops_step hs hstep)
    (stops_start threadCount hardwareConcurrency) hrun

/-! ## Start, failure and return -/

variable {threadCount hardwareConcurrency : ℕ}

omit [DecidableEq ι] in
/-- After `run` has returned, or before it has been called, there are no workers. -/
theorem Inv.no_workers (hs : s.Inv) (hmain : s.executor.main = .idle) :
    s.executor.workers = 0 ∧ s.executor.exited = 0 :=
  hs.joined (by simp [hmain]) (by simp [hmain]) (by simp [hmain])

/-- **The application serves with all its plugins.** Whatever other threads do, once the port is
bound, and in particular while there are connections, all plugins have been started, each once and
in the order of their installation; while the executor has threads, the thread that listens has
done nothing else to them. -/
theorem started_before_served {es : List (Event ι)}
    (hrun : (start threadCount hardwareConcurrency).run es = some s) :
    (s.executor.acceptLoops ≠ 0 ∨ s.executor.connections ≠ 0 →
      installs s.plugins ++ starts s.plugins <+: s.own) ∧
    (s.executor.workers ≠ 0 → s.own = installs s.plugins ++ starts s.plugins) := by
  have hs := inv_of_run hrun
  have huntouched (hx : Untouched s.executor) {P Q : Prop} :
      (s.executor.acceptLoops ≠ 0 ∨ s.executor.connections ≠ 0 → P) ∧
        (s.executor.workers ≠ 0 → Q) := by
    refine ⟨fun h ↦ ?_, fun h ↦ absurd hx.fresh.workers h⟩
    rcases h with h | h
    · exact absurd hx.acceptLoops h
    · exact absurd hx.fresh.connections h
  have hover (hx : Over s.executor s.stopper) {Q : Prop} : s.executor.workers ≠ 0 → Q :=
    fun h ↦ absurd (hs.no_workers hx.main).1 h
  have hended {done : List (Entry ι)} (hx : Ended s.executor s.stopper s.plugins done s.own) :
      (s.executor.acceptLoops ≠ 0 ∨ s.executor.connections ≠ 0 →
        installs s.plugins ++ starts s.plugins <+: s.own) ∧
      (s.executor.workers ≠ 0 → s.own = installs s.plugins ++ starts s.plugins) := by
    generalize s.own = own at hx
    cases hx with
    | untouched hx => exact huntouched hx
    | returned hx =>
      rw [List.append_assoc]
      exact ⟨fun _ ↦ List.prefix_append _ _, hover hx⟩
  have hattempt {started : ℕ} (hstarted : started ≤ s.plugins) {rest : List (Entry ι)}
      (hx : s.executor.Fresh) (h : started < s.plugins → Untouched s.executor)
      (hown : s.own = installs s.plugins ++ attempt s.plugins started ++ rest) :
      (s.executor.acceptLoops ≠ 0 ∨ s.executor.connections ≠ 0 →
        installs s.plugins ++ starts s.plugins <+: s.own) ∧
      (s.executor.workers ≠ 0 → s.own = installs s.plugins ++ starts s.plugins) := by
    rcases Nat.lt_or_eq_of_le hstarted with hlt | rfl
    · exact huntouched (h hlt)
    · refine ⟨fun _ ↦ ?_, fun h ↦ absurd hx.workers h⟩
      rw [hown, attempt, if_neg (Nat.lt_irrefl _), List.append_nil]
      exact List.prefix_append _ _
  have hat := hs.main
  cases hmain : s.main <;> rw [hmain] at hat
  case idle => exact huntouched hat.1
  case starting => exact huntouched hat.1
  case publishing => exact huntouched hat.1
  case rollingBack => exact hattempt hat.2.2.1.2 hat.1 hat.2.1 hat.2.2.2
  case terminated =>
    obtain ⟨hx, started, hstarted, huntouched', hown⟩ := hat
    exact hattempt hstarted hx huntouched' hown
  case listening => exact ⟨fun _ ↦ hat.2 ▸ List.prefix_rfl, fun _ ↦ hat.2⟩
  case running => exact ⟨fun _ ↦ hat.2.2 ▸ List.prefix_rfl, fun _ ↦ hat.2.2⟩
  case flushing => exact ⟨fun _ ↦ hat.2 ▸ List.prefix_rfl, fun _ ↦ hat.2⟩
  case stopping =>
    rw [hat.2.2]
    exact ⟨fun _ ↦ List.prefix_append _ _, hover hat.1⟩
  case clearing =>
    rw [hat.2]
    exact ⟨fun _ ↦ List.prefix_append _ _, hover hat.1⟩
  case returned =>
    rw [hat.2]
    exact ⟨fun _ ↦ List.prefix_append _ _, hover hat.1⟩
  case destroying => exact hended hat.2
  case destroyingExecutor => exact hended hat
  case destroyed => exact hended hat

/-- Two plugins are installed and started, and `listen` and `run` of the executor are called. -/
def serving : List (Event Bool) :=
  [Event.install (some (.ok ())), .install (some (.ok ())), .callListen, .start true, .start true,
    .main, .main] ++ List.replicate 3 (Event.executor .main) ++ [Event.main] ++
    List.replicate 6 (Event.executor .main) ++ [Event.executor (.worker .accept)]

/-- A connection has been accepted. -/
theorem started_before_served_accept : ∃ s : Lifecycle Bool,
    (start 1 4).run serving = some s ∧ s.executor.connections ≠ 0 ∧
    installs s.plugins ++ starts s.plugins <+: s.own ∧
    s.own = installs s.plugins ++ starts s.plugins := by
  obtain ⟨s, hrun, hconnections, hworkers⟩ : ∃ s : Lifecycle Bool,
      (start 1 4).run serving = some s ∧ s.executor.connections = 1 ∧ s.executor.workers = 1 :=
    ⟨_, rfl, rfl, rfl⟩
  have hconnections' : s.executor.connections ≠ 0 := by rw [hconnections]; exact Nat.one_ne_zero
  obtain ⟨hserved, hown⟩ := started_before_served hrun
  exact ⟨s, hrun, hconnections', hserved (Or.inr hconnections'),
    hown (by rw [hworkers]; exact Nat.one_ne_zero)⟩

/-- **A failed start is undone.** When `listen` terminates the process, the thread that listens has
started some plugins in order, one has failed unless these were all, and it has stopped exactly
those it has started, the last one first. The executor has no threads and no connections, and if a
plugin has failed, the port has not been bound. -/
theorem stops_started {es : List (Event ι)}
    (hrun : (start threadCount hardwareConcurrency).run es = some s)
    (hmain : s.main = .terminated) :
    (∃ started ≤ s.plugins, (started < s.plugins → s.executor.acceptLoops = 0) ∧
      s.own = installs s.plugins ++ attempt s.plugins started ++ stopsFrom started 0) ∧
    s.executor.workers = 0 ∧ s.executor.connections = 0 := by
  obtain ⟨hx, started, hstarted, huntouched, hown⟩ := (inv_of_run hrun).at_of hmain
  exact ⟨⟨started, hstarted, fun hlt ↦ (huntouched hlt).acceptLoops, hown⟩, hx.workers,
    hx.connections⟩

/-- The second of three plugins does not start. -/
theorem stops_started_one : ∃ s : Lifecycle Bool, (start 1 4).run
      [.install (some (.ok ())), .install (some (.ok ())), .install (some (.ok ())), .callListen,
        .start true, .start false, .main, .main] = some s ∧
    (∃ started ≤ s.plugins, (started < s.plugins → s.executor.acceptLoops = 0) ∧
      s.own = installs s.plugins ++ attempt s.plugins started ++ stopsFrom started 0) ∧
    s.executor.workers = 0 ∧ s.executor.connections = 0 := by
  obtain ⟨s, hrun, hmain⟩ : ∃ s : Lifecycle Bool, (start 1 4).run
      [.install (some (.ok ())), .install (some (.ok ())), .install (some (.ok ())), .callListen,
        .start true, .start false, .main, .main] = some s ∧ s.main = .terminated := ⟨_, rfl, rfl⟩
  exact ⟨s, hrun, stops_started hrun hmain⟩

/-- **`listen` returns after a `stop`.** When it has returned, it has started all plugins in order
and stopped them in reverse order, every thread of the executor has been joined, and somebody has
stopped the executor; if this was an `App::stop`, it had stopped all plugins before. -/
theorem stopped_when_returned {es : List (Event ι)}
    (hrun : (start threadCount hardwareConcurrency).run es = some s) (hmain : s.main = .returned) :
    s.own = installs s.plugins ++ starts s.plugins ++ stopsFrom s.plugins 0 ∧
      s.executor.workers = 0 ∧ s.executor.exited = 0 ∧ s.executor.state = .stopped ∧
      ∃ caller, s.stopper = some caller ∧
        ∀ i, caller = .app i → (stopsBy i s.plugins).Sublist s.log := by
  have hs := inv_of_run hrun
  obtain ⟨⟨hidle, hstopper⟩, hown⟩ := hs.at_of hmain
  obtain ⟨hworkers, hexited⟩ := hs.no_workers hidle
  obtain ⟨caller, hcaller⟩ := Option.ne_none_iff_exists'.mp hstopper
  refine ⟨hown, hworkers, hexited, ?_, caller, hcaller, fun i hi ↦ ?_⟩
  · have houtside := hs.executor.outside (by rw [hidle]; rfl)
    have hrank := houtside.stopped (Nat.le_of_succ_le (hs.stopped hstopper))
    cases hstate : s.executor.state <;> rw [hstate] at hrank
    all_goals exact absurd hrank (by decide)
  · exact (stops_of_run hrun).stopper i (hi ▸ hcaller)

/-- A thread calls `App::stop`, the connection ends and so does `listen`. -/
def stopping : List (Event Bool) :=
  [Event.callStop true, .stop true, .stop true, .stop true] ++
    List.replicate 5 (Event.executor (.stop (.app true))) ++
    [Event.executor (.worker .runClose), .executor (.worker .acceptEnds),
      .executor (.worker .connectionEnds), .executor (.worker .exits)] ++
    List.replicate 4 (Event.executor .main) ++ [Event.executor .drainEnds] ++
    List.replicate 2 (Event.executor .main) ++ [Event.main, .flushed] ++
    List.replicate 4 Event.main

theorem stopped_when_returned_app : ∃ s : Lifecycle Bool,
    (start 1 4).run (serving ++ stopping) = some s ∧
    s.own = installs s.plugins ++ starts s.plugins ++ stopsFrom s.plugins 0 ∧
    s.executor.workers = 0 ∧ s.executor.exited = 0 ∧ s.executor.state = .stopped ∧
    ∃ caller, s.stopper = some caller ∧
      ∀ i, caller = .app i → (stopsBy i s.plugins).Sublist s.log := by
  obtain ⟨s, hrun, hmain⟩ : ∃ s : Lifecycle Bool,
      (start 1 4).run (serving ++ stopping) = some s ∧ s.main = .returned := ⟨_, rfl, rfl⟩
  exact ⟨s, hrun, stopped_when_returned hrun hmain⟩

end Steps

end Lifecycle

end Aevox
