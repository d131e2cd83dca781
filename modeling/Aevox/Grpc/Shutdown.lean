import Aevox.Net.Executor
import Mathlib.Data.Fintype.Basic

/-!
# Stopping the gRPC plugin

A started plugin has an executor of its own that a runner thread is in, or is about to enter.
`Plugin::stop` stops the executor, joins the runner if its handle says that it can be joined, and
clears `running_`. Any number of threads may be in it at the same time: `App::stop` calls it on
whatever thread it is called on, and so do the end of `App::listen` and the destructors.

## The handle

The test of the handle and the joining are two steps, and the joining itself is not one either: the
handle gives up its thread only when the thread has been joined. A `join` that finds no thread in
the handle, or another `join` in progress, fails with an exception, which leaves a `noexcept`
function and terminates the process.

Whoever tests the handle while another thread is between its own test and the end of its `join` is
told to join as well. If nobody does (`Alone`), the plugin stops as it should (`stops_safely`).
-/

namespace Aevox

namespace Grpc

namespace Shutdown

/-- The runner thread. -/
inductive Runner where
  | starting
  | running
  | finished
  deriving DecidableEq

/-- The next step of a call of `Plugin::stop`. -/
inductive StopPoint where
  | callExecutor
  /-- In `Executor::stop`. -/
  | stopping
  | test
  | join
  /-- In `join`, waiting for the thread. -/
  | joining
  | clear
  deriving DecidableEq

/-- A plugin with its executor, its runner and its callers. -/
structure Plugin (ι : Type*) where
  executor : AsioExecutor ι
  runner : Runner := .starting
  /-- `runner_` has a thread. -/
  joinable : Bool := true
  /-- `running_` -/
  running : Bool := true
  /-- How often the runner has been joined. -/
  joins : ℕ := 0
  /-- The caller that is in `join`. -/
  joiner : Option ι := none
  stops : ι → Option StopPoint
  /-- How many calls of `stop` have returned. -/
  returned : ℕ := 0
  /-- A `join` has failed. -/
  terminated : Bool := false

/-- What can happen next. -/
inductive Event (ι : Type*) where
  | callStop (caller : ι)
  | stop (caller : ι)
  /-- The runner calls `run`, or ends. -/
  | runner
  /-- A step inside the executor that is not one of `Executor::stop`. -/
  | executor (e : AsioExecutor.Event ι)

variable {ι : Type*}

/-- A step of the executor's own threads, or of `run`. -/
def isInternal : AsioExecutor.Event ι → Bool
  | .main | .worker _ | .expire | .drainEnds => true
  | _ => false

/-- The executor after the `listen` in `Plugin::start`. -/
def listening (threadCount hardwareConcurrency : ℕ) : AsioExecutor ι :=
  { AsioExecutor.makeExecutor threadCount hardwareConcurrency with
    state := .configured
    acceptLoops := 1
    call := ⟨.listen, none, [.configured], 0, false⟩
    log := [⟨.listen, none, [.configured], 0, false⟩] }

/-- `Plugin::start`, when it has succeeded. -/
def started (threadCount hardwareConcurrency : ℕ) : Plugin ι where
  executor := listening threadCount hardwareConcurrency
  stops _ := none

namespace Plugin

section Steps

variable [DecidableEq ι]

/-- A call gets to its next step. -/
def stopAt (p : Plugin ι) (caller : ι) (point : StopPoint) : Plugin ι :=
  { p with stops := Function.update p.stops caller (some point) }

/-- A call returns. -/
def stopReturns (p : Plugin ι) (caller : ι) : Plugin ι :=
  { p with stops := Function.update p.stops caller none, returned := p.returned + 1 }

/-- `Plugin::stop` -/
def stopStep (p : Plugin ι) (caller : ι) : StopPoint → Option (Plugin ι)
  | .callExecutor =>
    (p.executor.step (.callStop caller)).map fun executor ↦
      { p with executor }.stopAt caller .stopping
  | .stopping =>
    if p.executor.stops caller = none then some (p.stopAt caller .test)
    else (p.executor.step (.stop caller)).map fun executor ↦ { p with executor }
  | .test => some (p.stopAt caller (if p.joinable then .join else .clear))
  | .join =>
    if p.joinable = false ∨ p.joiner.isSome then some { p with terminated := true }
    else some ({ p with joiner := some caller }.stopAt caller .joining)
  | .joining =>
    if p.runner = .finished then
      some ({ p with joinable := false, joins := p.joins + 1, joiner := none }.stopAt caller .clear)
    else none
  | .clear => some ({ p with running := false }.stopReturns caller)

/-- What happens, if it can. Nothing does once the process has been terminated. -/
def step (p : Plugin ι) : Event ι → Option (Plugin ι)
  | .callStop caller =>
    if p.terminated = false ∧ p.stops caller = none then some (p.stopAt caller .callExecutor)
    else none
  | .stop caller =>
    if p.terminated then none else (p.stops caller).bind (p.stopStep caller)
  | .runner =>
    if p.terminated then none
    else
      match p.runner with
      | .starting =>
        (p.executor.step .callRun).map fun executor ↦ { p with executor, runner := .running }
      | .running =>
        -- `run` has returned
        if p.executor.main = .idle then some { p with runner := .finished } else none
      | .finished => none
  | .executor e =>
    if p.terminated = false ∧ isInternal e then
      (p.executor.step e).map fun executor ↦ { p with executor }
    else none

/-- The state after a sequence of events. -/
def run (p : Plugin ι) (es : List (Event ι)) : Option (Plugin ι) := Machine.run step p es

end Steps

/-- The caller is between its test of the handle and the end of its `join`. -/
def Joins (p : Plugin ι) (caller : ι) : Prop :=
  p.stops caller = some .join ∨ p.stops caller = some .joining

/-- Nobody tests the handle while another caller joins. -/
def Alone (p : Plugin ι) : Event ι → Prop
  | .stop caller => p.stops caller = some .test → ∀ i, ¬p.Joins i
  | _ => True

/-- The plugin stops as it should: no `join` fails, the runner is joined at most once, and exactly
once before any call of `stop` returns, which is after the runner has finished; and `running_` is
false only if no runner thread is left. -/
structure Safe (p : Plugin ι) : Prop where
  terminated : p.terminated = false
  joins : p.joins ≤ 1
  returned : p.returned ≠ 0 → p.joins = 1 ∧ p.runner = .finished
  running : p.running = false → p.joinable = false ∧ p.runner = .finished

/-! ## Who joins -/

/-- What holds as long as nobody tests the handle while another caller joins. -/
structure Inv (p : Plugin ι) : Prop where
  terminated : p.terminated = false
  joins : p.joins = if p.joinable then 0 else 1
  finished : p.joinable = false → p.runner = .finished
  single : ∀ i j, p.Joins i → p.Joins j → i = j
  joinable : ∀ i, p.Joins i → p.joinable = true
  joiner : ∀ i, p.joiner = some i → p.stops i = some .joining
  clearing : ∀ i, p.stops i = some .clear → p.joinable = false
  returned : p.returned ≠ 0 → p.joinable = false
  running : p.running = false → p.joinable = false

/-- The executor's progress and the runner's are no business of the callers, as long as nobody has
joined the runner. -/
theorem Inv.progress {p : Plugin ι} (hp : p.Inv) (executor : AsioExecutor ι) {runner : Runner}
    (hrunner : p.joinable = false → runner = .finished) :
    ({ p with executor := executor, runner := runner } : Plugin ι).Inv :=
  ⟨hp.terminated, hp.joins, hrunner, hp.single, hp.joinable, hp.joiner, hp.clearing, hp.returned,
    hp.running⟩

/-! ## Every step -/

variable [DecidableEq ι] {p p' : Plugin ι} {caller : ι}

theorem stops_stopAt (p : Plugin ι) (caller : ι) (point : StopPoint) (i : ι) :
    (p.stopAt caller point).stops i = if i = caller then some point else p.stops i := by
  by_cases hi : i = caller
  · rw [if_pos hi, hi]
    exact Function.update_self _ _ _
  · rw [if_neg hi]
    exact Function.update_of_ne hi _ _

theorem stops_stopReturns (p : Plugin ι) (caller i : ι) :
    (p.stopReturns caller).stops i = if i = caller then none else p.stops i := by
  by_cases hi : i = caller
  · rw [if_pos hi, hi]
    exact Function.update_self _ _ _
  · rw [if_neg hi]
    exact Function.update_of_ne hi _ _

theorem joins_stopAt (p : Plugin ι) (caller : ι) (point : StopPoint) (i : ι) :
    (p.stopAt caller point).Joins i ↔
      (i = caller ∧ (point = .join ∨ point = .joining)) ∨ (i ≠ caller ∧ p.Joins i) := by
  rw [Joins, stops_stopAt]
  by_cases hi : i = caller
  · simp [hi]
  · simp [hi, Joins]

theorem Inv.stopAt (hp : p.Inv) {point : StopPoint}
    (hjoin : point = .join ∨ point = .joining → p.joinable = true ∧ ∀ i, ¬p.Joins i)
    (hclear : point = .clear → p.joinable = false) (hjoiner : p.stops caller ≠ some .joining) :
    (p.stopAt caller point).Inv := by
  have hone : ∀ i j, (p.stopAt caller point).Joins i → (p.stopAt caller point).Joins j →
      i = j := by
    intro i j hi hj
    rcases (joins_stopAt p caller point i).mp hi with ⟨hi, hpoint⟩ | ⟨-, hi⟩
    · rcases (joins_stopAt p caller point j).mp hj with ⟨hj, -⟩ | ⟨-, hj⟩
      · exact hi.trans hj.symm
      · exact absurd hj ((hjoin hpoint).2 j)
    · rcases (joins_stopAt p caller point j).mp hj with ⟨-, hpoint⟩ | ⟨-, hj⟩
      · exact absurd hi ((hjoin hpoint).2 i)
      · exact hp.single i j hi hj
  refine ⟨hp.terminated, hp.joins, hp.finished, hone, fun i hi ↦ ?_, fun i hi ↦ ?_, fun i hi ↦ ?_,
    hp.returned, hp.running⟩
  · rcases (joins_stopAt p caller point i).mp hi with ⟨-, hpoint⟩ | ⟨-, hi⟩
    · exact (hjoin hpoint).1
    · exact hp.joinable i hi
  · have hjoining := hp.joiner i hi
    have hne : i ≠ caller := fun h ↦ hjoiner (h ▸ hjoining)
    rw [stops_stopAt, if_neg hne]
    exact hjoining
  · rw [stops_stopAt] at hi
    split at hi
    · exact hclear (Option.some.inj hi)
    · exact hp.clearing i hi

/-- The caller is the only one that joins, and gets into `join`. -/
theorem inv_joining (hp : p.Inv) (hcaller : p.stops caller = some .join) :
    ({ p with joiner := some caller }.stopAt caller .joining).Inv := by
  have hjoins : ∀ i, ({ p with joiner := some caller }.stopAt caller .joining).Joins i →
      i = caller := by
    intro i hi
    rcases (joins_stopAt _ caller _ i).mp hi with ⟨rfl, -⟩ | ⟨-, hi⟩
    · rfl
    · exact hp.single i caller hi (Or.inl hcaller)
  refine ⟨hp.terminated, hp.joins, hp.finished,
    fun i j hi hj ↦ (hjoins i hi).trans (hjoins j hj).symm,
    fun _ _ ↦ hp.joinable caller (Or.inl hcaller), fun i hi ↦ ?_, fun i hi ↦ ?_, hp.returned,
    hp.running⟩
  · rw [stops_stopAt, if_pos (Option.some.inj hi).symm]
  · rw [stops_stopAt] at hi
    split at hi
    · exact nomatch hi
    · exact hp.clearing i hi

theorem inv_joined (hp : p.Inv) (hcaller : p.stops caller = some .joining)
    (hrunner : p.runner = .finished) :
    Inv ({ p with joinable := false, joins := p.joins + 1, joiner := none }.stopAt caller
      .clear) := by
  have hjoinable := hp.joinable caller (Or.inr hcaller)
  have hnone : ∀ i, ¬({ p with joinable := false, joins := p.joins + 1, joiner := none }.stopAt
      caller .clear).Joins i := by
    intro i hi
    rcases (joins_stopAt _ caller _ i).mp hi with ⟨-, h | h⟩ | ⟨hne, hi⟩
    · exact nomatch h
    · exact nomatch h
    · exact hne (hp.single i caller hi (Or.inr hcaller))
  have hjoins := hp.joins
  rw [hjoinable, if_pos rfl] at hjoins
  refine ⟨hp.terminated, ?_, fun _ ↦ hrunner, fun i _ hi ↦ absurd hi (hnone i),
    fun i hi ↦ absurd hi (hnone i), fun i hi ↦ (nomatch hi), fun _ _ ↦ rfl, fun _ ↦ rfl,
    fun _ ↦ rfl⟩
  exact congrArg Nat.succ hjoins

theorem inv_cleared (hp : p.Inv) (hcaller : p.stops caller = some .clear) :
    ({ p with running := false }.stopReturns caller).Inv := by
  have hclear := hp.clearing caller hcaller
  have hstops : ∀ i point, ({ p with running := false }.stopReturns caller).stops i = some point →
      p.stops i = some point := by
    intro i point hi
    rw [stops_stopReturns] at hi
    split at hi
    · exact nomatch hi
    · exact hi
  have hnone : ∀ i, ¬({ p with running := false }.stopReturns caller).Joins i := by
    intro i hi
    have hjoinable := hp.joinable i (hi.imp (hstops i _) (hstops i _))
    exact absurd (hclear.symm.trans hjoinable) (by decide)
  refine ⟨hp.terminated, hp.joins, hp.finished, fun i _ hi ↦ absurd hi (hnone i),
    fun i hi ↦ absurd hi (hnone i), fun i hi ↦ ?_, fun _ _ ↦ hclear, fun _ ↦ hclear,
    fun _ ↦ hclear⟩
  have hjoinable := hp.joinable i (Or.inr (hp.joiner i hi))
  exact absurd (hclear.symm.trans hjoinable) (by decide)

theorem inv_stopStep (hp : p.Inv) {point : StopPoint} (hcaller : p.stops caller = some point)
    (halone : point = .test → ∀ i, ¬p.Joins i) (h : p.stopStep caller point = some p') :
    p'.Inv := by
  have hnot : point ≠ .joining → p.stops caller ≠ some .joining := by
    intro hpoint hjoining
    exact hpoint (Option.some.inj (hcaller.symm.trans hjoining))
  cases point with
  | callExecutor =>
    obtain ⟨executor, -, rfl⟩ := Option.map_eq_some_iff.mp h
    refine Inv.stopAt ?_ (fun h ↦ absurd h (by decide)) (fun h ↦ nomatch h) (hnot (by decide))
    exact hp.progress executor hp.finished
  | stopping =>
    rw [stopStep] at h
    split at h
    · obtain rfl := Option.some.inj h
      exact hp.stopAt (fun h ↦ absurd h (by decide)) (fun h ↦ nomatch h) (hnot (by decide))
    · obtain ⟨executor, -, rfl⟩ := Option.map_eq_some_iff.mp h
      exact hp.progress executor hp.finished
  | test =>
    obtain rfl := Option.some.inj h
    refine hp.stopAt (fun hpoint ↦ ?_) (fun hpoint ↦ ?_) (hnot (by decide))
    · split at hpoint
      · exact ⟨‹_›, halone rfl⟩
      · exact absurd hpoint (by decide)
    · split at hpoint
      · exact nomatch hpoint
      · exact Bool.eq_false_iff.mpr ‹_›
  | join =>
    rw [stopStep] at h
    split at h
    next hfails =>
      -- nobody else joins, and the thread is still there
      rcases hfails with hfails | hfails
      · exact absurd (hfails.symm.trans (hp.joinable caller (Or.inl hcaller))) (by decide)
      · obtain ⟨i, hi⟩ := Option.isSome_iff_exists.mp hfails
        have hjoining := hp.joiner i hi
        obtain rfl := hp.single i caller (Or.inr hjoining) (Or.inl hcaller)
        exact absurd (hjoining.symm.trans hcaller) (by decide)
    · obtain rfl := Option.some.inj h
      exact inv_joining hp hcaller
  | joining =>
    rw [stopStep] at h
    split at h
    · obtain rfl := Option.some.inj h
      exact inv_joined hp hcaller ‹_›
    · exact nomatch h
  | clear =>
    obtain rfl := Option.some.inj h
    exact inv_cleared hp hcaller

theorem inv_step {e : Event ι} (hp : p.Inv) (halone : p.Alone e) (h : p.step e = some p') :
    p'.Inv := by
  cases e with
  | callStop caller =>
    rw [step] at h
    split at h
    next hguard =>
      obtain rfl := Option.some.inj h
      refine hp.stopAt (fun h ↦ absurd h (by decide)) (fun h ↦ nomatch h) ?_
      rw [hguard.2]
      exact nofun
    · exact nomatch h
  | stop caller =>
    rw [step, if_neg (by rw [hp.terminated]; decide)] at h
    obtain ⟨point, hcaller, h⟩ := Option.bind_eq_some_iff.mp h
    exact inv_stopStep hp hcaller (fun hpoint ↦ halone (hpoint ▸ hcaller)) h
  | runner =>
    rw [step, if_neg (by rw [hp.terminated]; decide)] at h
    split at h
    next hrunner =>
      obtain ⟨executor, -, rfl⟩ := Option.map_eq_some_iff.mp h
      refine hp.progress executor fun hjoinable ↦ ?_
      exact absurd (hrunner.symm.trans (hp.finished hjoinable)) (by decide)
    · split at h
      · obtain rfl := Option.some.inj h
        exact hp.progress p.executor fun _ ↦ rfl
      · exact nomatch h
    · exact nomatch h
  | executor e =>
    rw [step] at h
    split at h
    · obtain ⟨executor, -, rfl⟩ := Option.map_eq_some_iff.mp h
      exact hp.progress executor hp.finished
    · exact nomatch h

instance [Fintype ι] (p : Plugin ι) : ∀ e, Decidable (p.Alone e)
  | .stop caller =>
    inferInstanceAs (Decidable (p.stops caller = some .test →
      ∀ i, ¬(p.stops i = some .join ∨ p.stops i = some .joining)))
  | .callStop _ | .runner | .executor _ => isTrue trivial

end Plugin

end Shutdown

end Grpc

end Aevox
