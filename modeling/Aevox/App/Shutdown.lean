import Aevox.App.Lifecycle
import Aevox.Net.Termination

/-!
# When `listen` returns

`listen` returns only after a `stop` has taken the executor out of `Configured` or `Running`. A
`stop` that has come to the executor before it was configured is lost: it finds the executor idle,
and returns. So is one whose second attempt finds it running, because `run` has begun after the
first one.

Whether `listen` can still return is decided by the calls that are under way (`Pending`): if one of
them can still succeed, the threads can be scheduled so that it does, and then the executor comes to
rest. Behind `run`, `listen` waits for the log, and comes to its end only if the log lets it
(`returns_iff`).
-/

namespace Aevox

namespace Lifecycle

variable {ι : Type*}

/-- Nobody calls `App::stop`, and no signal arrives. -/
def Event.isOwn : Event ι → Bool
  | callStop _ | signal _ => false
  | _ => true

/-- A call of `stop` is under way and can still change the state. -/
inductive Pending (s : Lifecycle ι) : Prop
  | plugins {i next} (h : s.stops i = some next)
  | first {caller} (h : s.executor.stops caller = some .casRunning)
  | second {caller} (h : s.executor.stops caller = some .casConfigured)
    (hrank : s.executor.state.rank ≤ 1)

theorem Pending.of_eq {s s' : Lifecycle ι} (h : s.Pending) (hstops : s'.stops = s.stops)
    (hexecutor : s'.executor.stops = s.executor.stops)
    (hstate : s'.executor.state = s.executor.state) : s'.Pending := by
  cases h with
  | plugins hi => exact .plugins (hstops ▸ hi)
  | first hcaller => exact .first (hexecutor ▸ hcaller)
  | second hcaller hrank => exact .second (hexecutor ▸ hcaller) (hstate ▸ hrank)

/-- `listen` is on the way to `run`, in it, or on the way to the end of the process. -/
def Main.unreturned : Main → Bool
  | starting _ | publishing | listening | running | rollingBack _ _ | terminated => true
  | _ => false

/-- `listen` has begun, and has not come past the calls of the log. -/
def Main.beforeLog : Main → Bool
  | flushing => true
  | p => p.unreturned

/-- `listen` is under way, and nothing has failed. -/
def UnderWay (s : Lifecycle ι) : Prop :=
  match s.main with
  | .starting _ | .publishing | .running | .flushing | .stopping _ | .clearing => True
  | .listening => s.executor.main ≠ .idle ∨ s.lastError = none
  | _ => False

theorem UnderWay.of_eq {s s' : Lifecycle ι} (h : s.UnderWay) (hmain : s'.main = s.main)
    (hexecutor : s'.executor.main = s.executor.main) (hlog : s'.executor.log = s.executor.log) :
    s'.UnderWay := by
  rwa [UnderWay, lastError, hmain, hexecutor, hlog]

section Steps

variable [DecidableEq ι] {s s' : Lifecycle ι}

/-! ## What holds in every state -/

theorem executor_of_mainMoves (h : MainMoves s s') :
    s'.executor = s.executor ∨ ∃ e, s.executor.step e = some s'.executor := by
  cases h with
  | publishes _ hx => exact Or.inr ⟨_, hx⟩
  | runs _ _ _ hx => exact Or.inr ⟨_, hx⟩
  | destroysExecutor _ _ hx => exact Or.inr ⟨_, hx⟩
  | _ => exact Or.inl rfl

theorem executor_of_step {e : Event ι} (h : s.step e = some s') :
    s'.executor = s.executor ∨ ∃ e, s.executor.step e = some s'.executor := by
  cases moves_of_step h with
  | main hmoves => exact executor_of_mainMoves hmoves
  | executor _ hx => exact Or.inr ⟨_, hx⟩
  | stopExecutor _ _ hx => exact Or.inr ⟨_, hx⟩
  | signal _ hx => exact Or.inr ⟨_, hx⟩
  | _ => exact Or.inl rfl

/-- An `App::stop` that has not come to the executor has not called its `stop`. -/
def Exclusive (s : Lifecycle ι) : Prop :=
  ∀ i, s.stops i ≠ none → s.executor.stops (.app i) = none

theorem Exclusive.of_executor (hs : s.Exclusive) {e : AsioExecutor.Event (Caller ι)}
    {executor : AsioExecutor (Caller ι)} (h : s.executor.step e = some executor)
    {stops : ι → Option ℕ} (hstops : ∀ i, stops i ≠ none → s.stops i ≠ none)
    (he : ∀ i, stops i ≠ none → e ≠ .callStop (.app i)) (i : ι) (hi : stops i ≠ none) :
    executor.stops (.app i) = none := by
  by_contra hne
  rcases AsioExecutor.stops_of_step h hne with hbefore | hbegins
  · exact hbefore (hs i (hstops i hi))
  · exact he i hi hbegins

theorem exclusive_step {e : Event ι} (hs : s.Exclusive) (h : s.step e = some s') :
    s'.Exclusive := by
  cases moves_of_step h with
  | main hmoves =>
    cases hmoves with
    | publishes _ hx => exact hs.of_executor hx (fun _ ↦ id) (by simp)
    | runs _ _ _ hx => exact hs.of_executor hx (fun _ ↦ id) (by simp)
    | destroysExecutor _ _ hx => exact hs.of_executor hx (fun _ ↦ id) (by simp)
    | _ => exact hs
  | executor hown hx =>
    refine hs.of_executor hx (fun _ ↦ id) fun i _ hcall ↦ ?_
    subst hcall
    exact Bool.false_ne_true hown
  | @callStop i hbegun hexecutor =>
    intro j hj
    by_cases hji : j = i
    · exact hji ▸ hexecutor
    · refine hs j ?_
      change Function.update s.stops i (some 0) j ≠ none at hj
      rwa [Function.update_of_ne hji] at hj
  | @stopPlugin i next hstop =>
    intro j hj
    by_cases hji : j = i
    · exact hs j (by rw [hji, hstop]; exact Option.some_ne_none next)
    · refine hs j ?_
      change Function.update s.stops i (some (next + 1)) j ≠ none at hj
      rwa [Function.update_of_ne hji] at hj
  | @stopExecutor i next executor hstop hnext hx =>
    have hne {j : ι} (hj : Function.update s.stops i none j ≠ none) : j ≠ i := by
      rintro rfl
      exact hj (Function.update_self _ _ _)
    refine hs.of_executor hx (fun j hj ↦ ?_) fun j hj hcall ↦ ?_
    · change Function.update s.stops i none j ≠ none at hj
      rwa [Function.update_of_ne (hne hj)] at hj
    · exact hne hj (Caller.app.inj (AsioExecutor.Event.callStop.inj hcall)).symm
  | signal _ hx => exact hs.of_executor hx (fun _ ↦ id) (by simp)
  | _ => exact hs

/-- What holds in every state that is reached. -/
structure Reached (s : Lifecycle ι) : Prop where
  inv : s.Inv
  sound : s.executor.Sound
  exclusive : s.Exclusive

theorem reached_step {e : Event ι} (hs : s.Reached) (h : s.step e = some s') : s'.Reached := by
  refine ⟨inv_step hs.inv h, ?_, exclusive_step hs.exclusive h⟩
  rcases executor_of_step h with hsame | ⟨e', hx⟩
  · exact hsame ▸ hs.sound
  · exact AsioExecutor.sound_step hs.sound hx

theorem reached_of_run {threadCount hardwareConcurrency : ℕ} {es : List (Event ι)}
    (hrun : (start threadCount hardwareConcurrency).run es = some s) : s.Reached :=
  Machine.run_invariant (fun _ _ _ hs hstep ↦ reached_step hs hstep)
    ⟨inv_start threadCount hardwareConcurrency,
      AsioExecutor.sound_makeExecutor threadCount hardwareConcurrency, fun _ _ ↦ rfl⟩ hrun

/-! ## A lost `stop` -/

/-- `run` has not returned, and nobody is going to stop the executor. -/
structure Lost (s : Lifecycle ι) : Prop where
  stopper : s.stopper = none
  pending : ¬s.Pending
  main : s.main.unreturned = true

omit [DecidableEq ι] in
theorem Lost.not_at (hs : s.Lost) {p : Main} (hp : p.unreturned = false) : s.main ≠ p := by
  rintro rfl
  exact Bool.false_ne_true (hp.symm.trans hs.main)

/-- No call that begins makes a `stop` succeed: without one, the state is changed by those that are
under way. -/
theorem Lost.of_executor (hinv : s.executor.Inv) (hs : s.Lost)
    {e : AsioExecutor.Event (Caller ι)} {executor : AsioExecutor (Caller ι)}
    (h : s.executor.step e = some executor) (he : e.isOwn = true) :
    Lost { s with executor, stopper := s.stopperOf executor e } := by
  refine ⟨?_, fun hpending ↦ hs.pending ?_, hs.main⟩
  · by_contra hne
    obtain ⟨caller, rfl, hstate⟩ := of_stopperOf hne hs.stopper
    rcases AsioExecutor.undecided_of_stop h hstate with hfirst | ⟨hsecond, hconfigured⟩
    · exact hs.pending (.first hfirst)
    · refine hs.pending (.second hsecond ?_)
      rw [hconfigured]
      exact Nat.le_refl 1
  · cases hpending with
    | plugins hi => exact .plugins hi
    | first hcaller =>
      rcases AsioExecutor.undecided_of_step h he hcaller rfl with hbefore | ⟨hbefore, -⟩
      · exact .first hbefore
      · exact .first hbefore
    | second hcaller hrank =>
      rcases AsioExecutor.undecided_of_step h he hcaller rfl with hbefore | ⟨hbefore, -⟩
      · exact .second hbefore (Nat.le_trans (AsioExecutor.inv_step hinv h).2 hrank)
      · exact .first hbefore

omit [DecidableEq ι] in
theorem Lost.of_main (hs : s.Lost) (hstops : s'.stops = s.stops)
    (hexecutor : s'.executor.stops = s.executor.stops)
    (hstate : s'.executor.state = s.executor.state) (hstopper : s'.stopper = s.stopper)
    (hmain : s'.main.unreturned = true) : s'.Lost :=
  ⟨hstopper.trans hs.stopper,
    fun hpending ↦ hs.pending (hpending.of_eq hstops.symm hexecutor.symm hstate.symm), hmain⟩

theorem lost_of_mainMoves (hinv : s.Inv) (hs : s.Lost) (h : MainMoves s s') : s'.Lost := by
  cases h with
  | started => exact hs.of_main rfl rfl rfl rfl rfl
  | rollsBack => exact hs.of_main rfl rfl rfl rfl rfl
  | terminates => exact hs.of_main rfl rfl rfl rfl rfl
  | publishes hmain hx =>
    rw [AsioExecutor.step] at hx
    split at hx
    · obtain rfl := Option.some.inj hx
      exact hs.of_main rfl rfl rfl rfl rfl
    · exact absurd hx.symm (Option.some_ne_none _)
  | fails => exact hs.of_main rfl rfl rfl rfl rfl
  | runs hmain _ hidle hx =>
    rw [AsioExecutor.step, if_pos hidle] at hx
    obtain rfl := Option.some.inj hx
    exact hs.of_main rfl rfl rfl rfl rfl
  | flushes hmain hidle =>
    -- `run` has not returned
    obtain ⟨hinRun | hover, -⟩ := hinv.at_of hmain
    · rw [hidle] at hinRun
      exact absurd hinRun Bool.false_ne_true
    · exact absurd hs.stopper hover.stopper
  | stops hmain => exact absurd hmain (hs.not_at rfl)
  | stopped hmain => exact absurd hmain (hs.not_at rfl)
  | clears hmain => exact absurd hmain (hs.not_at rfl)
  | destroys hmain => exact absurd hmain (hs.not_at rfl)
  | destroysExecutor hmain => exact absurd hmain (hs.not_at rfl)
  | destroyed hmain => exact absurd hmain (hs.not_at rfl)

theorem lost_step {e : Event ι} (hinv : s.Inv) (hs : s.Lost) (he : e.isOwn = true)
    (h : s.step e = some s') : s'.Lost := by
  cases moves_of_step h with
  | refuses => exact hs
  | installs hmain => exact absurd hmain (hs.not_at rfl)
  | callListen hmain => exact absurd hmain (hs.not_at rfl)
  | starts => exact hs.of_main rfl rfl rfl rfl rfl
  | startFails => exact hs.of_main rfl rfl rfl rfl rfl
  | main hmoves => exact lost_of_mainMoves hinv hs hmoves
  | flushed hmain => exact absurd hmain (hs.not_at rfl)
  | destroy hmain =>
    rcases hmain with hmain | hmain
    · exact absurd hmain (hs.not_at rfl)
    · exact absurd hmain (hs.not_at rfl)
  | executor hown hx => exact hs.of_executor hinv.executor hx hown
  | callStop => exact absurd he Bool.false_ne_true
  | stopPlugin hstop => exact absurd (.plugins hstop) hs.pending
  | stopExecutor hstop => exact absurd (.plugins hstop) hs.pending
  | signal => exact absurd he Bool.false_ne_true

/-- Nobody stops the executor any more, so `listen` does not return. -/
theorem lost_of_run {es : List (Event ι)} (hinv : s.Inv) (hs : s.Lost)
    (hes : ∀ e ∈ es, e.isOwn = true) (hrun : s.run es = some s') : s'.Lost :=
  (Machine.run_invariant_on (E := fun e ↦ e.isOwn = true) (I := fun s ↦ s.Inv ∧ s.Lost)
    (fun _ _ _ he hs h ↦ ⟨inv_step hs.1 h, lost_step hs.1 hs.2 he h⟩) hes ⟨hinv, hs⟩ hrun).2

/-! ## The way to the end -/

/-- `listen` can be brought to its end without another `stop` or signal, if the log returns. -/
def CanReturn (s : Lifecycle ι) : Prop :=
  Machine.CanReach step (·.isOwn = true) (·.main = .returned) s

theorem canReturn_of_returned (hmain : s.main = .returned) : s.CanReturn := .of_goal hmain

theorem run_executor {es : List (AsioExecutor.Event (Caller ι))} :
    ∀ {s : Lifecycle ι} {executor : AsioExecutor (Caller ι)}, s.alive = true →
      (∀ e ∈ es, e.isOwn = true) → s.executor.run es = some executor →
      ∃ s', s.run (es.map .executor) = some s' ∧ s'.executor = executor ∧ s'.main = s.main := by
  induction es with
  | nil =>
    intro s executor _ _ hrun
    exact ⟨s, rfl, Option.some.inj hrun, rfl⟩
  | cons e es ih =>
    intro s executor halive hes hrun
    obtain ⟨he, hes⟩ := List.forall_mem_cons.mp hes
    obtain ⟨x, hx, hrest⟩ := Machine.run_cons_eq_some_iff.mp hrun
    have hstep : s.step (.executor e)
        = some { s with executor := x, stopper := s.stopperOf x e } := by
      rw [step, if_pos ⟨halive, he⟩, hx]
      rfl
    obtain ⟨s', hrun', hexecutor, hmain⟩ := ih (s := { s with
      executor := x, stopper := s.stopperOf x e }) halive hes hrest
    exact ⟨s', Machine.run_cons_eq_some_iff.mpr ⟨_, hstep, hrun'⟩, hexecutor, hmain⟩

theorem canReturn_of_clearing (hmain : s.main = .clearing) : s.CanReturn := by
  have hstep : s.step .main = some { s with signalExecutor := false, main := .returned } := by
    rw [step, mainStep, hmain]
  exact .cons rfl hstep (canReturn_of_returned rfl)

theorem canReturn_of_stopping (left : ℕ) : ∀ {s : Lifecycle ι}, s.main = .stopping left →
    s.CanReturn := by
  induction left with
  | zero =>
    intro s hmain
    have hstep : s.step .main = some { s with main := .clearing } := by
      rw [step, mainStep, hmain]
    exact .cons rfl hstep (canReturn_of_clearing rfl)
  | succ left ih =>
    intro s hmain
    have hstep : s.step .main
        = some { s.record (.stopped left none) with main := .stopping left } := by
      rw [step, mainStep, hmain]
    exact .cons rfl hstep (ih rfl)

theorem canReturn_of_flushing (hmain : s.main = .flushing) : s.CanReturn := by
  have hstep : s.step .flushed = some { s with main := .stopping s.plugins } := by
    rw [step, if_pos hmain]
  exact .cons rfl hstep (canReturn_of_stopping _ rfl)

theorem canReturn_of_idle (hmain : s.main = .running) (hidle : s.executor.main = .idle) :
    s.CanReturn := by
  have hstep : s.step .main = some { s with main := .flushing } := by
    rw [step, mainStep, hmain]
    exact if_neg (not_not.mpr hidle)
  exact .cons rfl hstep (canReturn_of_flushing rfl)

/-- `run` is under way, and the executor has been stopped. -/
theorem canReturn_of_running (hs : s.Reached) (hmain : s.main = .running)
    (hrank : 3 ≤ s.executor.state.rank) : s.CanReturn := by
  rcases (hs.inv.at_of hmain).1 with hinRun | hover
  · obtain ⟨es, x, hes, hrun, hidle⟩ := AsioExecutor.canReturn ⟨hs.sound, hrank⟩ hinRun
    have halive : s.alive = true := by rw [alive, hmain]
    obtain ⟨s', hrun', rfl, hsame⟩ := run_executor halive hes hrun
    refine .of_run (fun e he ↦ ?_) hrun' (canReturn_of_idle (hsame.trans hmain) hidle)
    obtain ⟨e', -, rfl⟩ := List.mem_map.mp he
    rfl
  · exact canReturn_of_idle hmain hover.main

/-- The executor has been configured, and somebody has stopped it before `run`. -/
theorem canReturn_of_listening (hs : s.Reached) (hmain : s.main = .listening)
    (hidle : s.executor.main = .idle) (herror : s.lastError = none)
    (hrank : 3 ≤ s.executor.state.rank) : s.CanReturn := by
  have hcall : s.executor.step .callRun = some (s.executor.begins .run .runLoad) := by
    rw [AsioExecutor.step]
    exact if_pos hidle
  have hstep : s.step .main
      = some { s with executor := s.executor.begins .run .runLoad, main := .running } := by
    rw [step, mainStep, hmain]
    dsimp only
    rw [if_neg (not_not.mpr hidle), herror, if_neg (by simp), hcall]
    rfl
  exact .cons rfl hstep (canReturn_of_running (reached_step hs hstep) rfl hrank)

/-- **A stopped application comes to rest.** -/
theorem canReturn_of_stopper (hs : s.Reached) (hway : s.UnderWay) (hstopper : s.stopper ≠ none) :
    s.CanReturn := by
  have hrank := hs.inv.stopped hstopper
  have hnot (hstate : s.executor.state = .idle) : False := by
    rw [hstate] at hrank
    exact absurd hrank (by decide)
  cases hmain : s.main <;> rw [UnderWay, hmain] at hway
  case idle => exact hway.elim
  case starting => exact (hnot (hs.inv.at_of hmain).1.state).elim
  case rollingBack => exact hway.elim
  case publishing => exact (hnot (hs.inv.at_of hmain).1.state).elim
  case listening =>
    have hlistened := (hs.inv.at_of hmain).1
    by_cases hidle : s.executor.main = .idle
    · exact canReturn_of_listening hs hmain hidle (hway.resolve_left (not_not.mpr hidle)) hrank
    · exact (hnot (hlistened.before hidle).1).elim
  case running => exact canReturn_of_running hs hmain hrank
  case flushing => exact canReturn_of_flushing hmain
  case stopping left => exact canReturn_of_stopping left hmain
  case clearing => exact canReturn_of_clearing hmain
  case returned => exact hway.elim
  case terminated => exact hway.elim
  case destroying => exact hway.elim
  case destroyingExecutor => exact hway.elim
  case destroyed => exact hway.elim

/-! ## A `stop` that can succeed -/

omit [DecidableEq ι] in
theorem UnderWay.alive (h : s.UnderWay) : s.alive = true := by
  cases hmain : s.main <;> rw [UnderWay, hmain] at h
  all_goals first
  | exact h.elim
  | rw [Lifecycle.alive, hmain]

theorem stop_step (hway : s.UnderWay) {caller : Caller ι} {point : AsioExecutor.StopPoint}
    (h : s.executor.stops caller = some point) :
    ∃ s', s.step (.executor (.stop caller)) = some s' ∧
      s'.executor = s.executor.stopStep caller point ∧ s'.UnderWay ∧
      s'.stopper = s.stopperOf (s.executor.stopStep caller point) (.stop caller) := by
  have hx : s.executor.step (.stop caller) = some (s.executor.stopStep caller point) := by
    rw [AsioExecutor.step, h]
    rfl
  refine ⟨{ s with
    executor := s.executor.stopStep caller point
    stopper := s.stopperOf (s.executor.stopStep caller point) (.stop caller) }, ?_, rfl, ?_, rfl⟩
  · rw [step, if_pos ⟨hway.alive, rfl⟩, hx]
    rfl
  · obtain ⟨hmain, -, -, -, -, -, hlog, -⟩ :=
      AsioExecutor.stopStep_keeps s.executor caller point
    exact hway.of_eq rfl hmain hlog

theorem canReturn_of_changes (hs : s.Reached) (hway : s.UnderWay) {caller : Caller ι}
    {point : AsioExecutor.StopPoint} (h : s.executor.stops caller = some point)
    (hne : (s.executor.stopStep caller point).state ≠ s.executor.state) : s.CanReturn := by
  obtain ⟨s', hstep, -, hway', hstopper⟩ := stop_step hway h
  refine .cons rfl hstep (canReturn_of_stopper (reached_step hs hstep) hway' ?_)
  rw [hstopper, stopperOf, if_neg hne]
  exact Option.some_ne_none caller

theorem canReturn_of_second (hs : s.Reached) (hway : s.UnderWay)
    (hstate : s.executor.state = .configured) {caller : Caller ι}
    (h : s.executor.stops caller = some .casConfigured) : s.CanReturn := by
  refine canReturn_of_changes hs hway h ?_
  rw [AsioExecutor.stopStep, if_pos hstate, hstate]
  exact AsioExecutor.State.noConfusion

theorem canReturn_of_first (hs : s.Reached) (hway : s.UnderWay)
    (hstate : s.executor.state = .configured ∨ s.executor.state = .running) {caller : Caller ι}
    (h : s.executor.stops caller = some .casRunning) : s.CanReturn := by
  rcases hstate with hstate | hstate
  · obtain ⟨s', hstep, hexecutor, hway', -⟩ := stop_step hway h
    have hne : s.executor.state ≠ .running := by
      rw [hstate]
      exact AsioExecutor.State.noConfusion
    rw [AsioExecutor.stopStep, if_neg hne] at hexecutor
    have hconfigured : s'.executor.state = .configured := by
      rw [hexecutor]
      exact hstate
    have hsecond : s'.executor.stops caller = some .casConfigured := by
      rw [hexecutor]
      exact AsioExecutor.stops_stopAt_self _ _
    exact .cons rfl hstep
      (canReturn_of_second (reached_step hs hstep) hway' hconfigured hsecond)
  · refine canReturn_of_changes hs hway h ?_
    rw [AsioExecutor.stopStep, if_pos hstate, hstate]
    exact AsioExecutor.State.noConfusion

/-- An `App::stop` comes to the executor, when it has stopped the plugins that are left. -/
theorem canReturn_of_plugins (n : ℕ) : ∀ {s : Lifecycle ι} {i : ι} {next : ℕ}, s.Reached →
    s.UnderWay → (s.executor.state = .configured ∨ s.executor.state = .running) →
    s.stops i = some next → s.plugins - next = n → s.CanReturn := by
  induction n with
  | zero =>
    intro s i next hs hway hstate hi hn
    have hfree : s.executor.stops (.app i) = none :=
      hs.exclusive i (by rw [hi]; exact Option.some_ne_none next)
    have hstep : s.step (.stop i) = some { s with
        executor := s.executor.stopAt (.app i) .casRunning
        stops := Function.update s.stops i none } := by
      rw [step, if_pos hway.alive, hi, Option.bind_some, stopStep,
        if_neg (Nat.not_lt.mpr (Nat.sub_eq_zero_iff_le.mp hn)), AsioExecutor.step, if_pos hfree]
      rfl
    have hfirst : (s.executor.stopAt (.app i) .casRunning).stops (.app i) = some .casRunning :=
      AsioExecutor.stops_stopAt_self _ _
    refine .cons rfl hstep (canReturn_of_first (reached_step hs hstep) ?_ hstate hfirst)
    exact hway.of_eq rfl rfl rfl
  | succ n ih =>
    intro s i next hs hway hstate hi hn
    have hstep : s.step (.stop i) = some { s.record (.stopped next (some i)) with
        stops := Function.update s.stops i (some (next + 1)) } := by
      rw [step, if_pos hway.alive, hi, Option.bind_some, stopStep, if_pos (by omega)]
    refine .cons rfl hstep (ih (reached_step hs hstep) ?_ hstate (Function.update_self _ _ _) ?_)
    · exact hway.of_eq rfl rfl rfl
    · change s.plugins - (next + 1) = n
      omega

theorem canReturn_of_configured (hs : s.Reached) (hway : s.UnderWay) (hpending : s.Pending)
    (hstate : s.executor.state = .configured ∨ s.executor.state = .running) : s.CanReturn := by
  cases hpending with
  | plugins hi => exact canReturn_of_plugins _ hs hway hstate hi rfl
  | first hcaller => exact canReturn_of_first hs hway hstate hcaller
  | second hcaller hrank =>
    rcases hstate with hstate | hstate
    · exact canReturn_of_second hs hway hstate hcaller
    · rw [hstate] at hrank
      exact absurd hrank (by decide)

theorem listen_step (hmain : s.main = .listening) {executor : AsioExecutor (Caller ι)}
    (hx : s.executor.step .main = some executor) :
    s.step (.executor .main) = some { s with executor } := by
  rw [step, if_pos ⟨by rw [alive, hmain], rfl⟩, hx]
  rfl

theorem canReturn_of_listenConfigure (hs : s.Reached) (hmain : s.main = .listening)
    (hat : s.executor.main = .listenConfigure) (hpending : s.Pending) : s.CanReturn := by
  have hidle := ((hs.inv.at_of hmain).1.before (by simp [hat])).1
  have hx : s.executor.step .main = some ((s.executor.stores .configured).returns none) := by
    rw [AsioExecutor.step, AsioExecutor.mainStep, hat]
    exact if_pos hidle
  have hstep := listen_step hmain hx
  refine .cons rfl hstep (canReturn_of_configured (reached_step hs hstep) ?_ ?_ (Or.inl rfl))
  · rw [UnderWay, lastError]
    simp only [hmain]
    refine Or.inr ?_
    rw [AsioExecutor.returns, List.getLast?_concat]
    rfl
  · cases hpending with
    | plugins hi => exact .plugins hi
    | first hcaller => exact .first hcaller
    | second hcaller => exact .second hcaller (Nat.le_refl 1)

theorem canReturn_of_listenBind (hs : s.Reached) (hmain : s.main = .listening)
    (hat : s.executor.main = .listenBind) (hpending : s.Pending) : s.CanReturn := by
  have hx : s.executor.step .main = some { s.executor with
      acceptLoops := s.executor.acceptLoops + 1, main := .listenConfigure } := by
    rw [AsioExecutor.step, AsioExecutor.mainStep, hat]
  have hstep := listen_step hmain hx
  exact .cons rfl hstep (canReturn_of_listenConfigure (reached_step hs hstep) hmain rfl
    (hpending.of_eq rfl rfl rfl))

theorem canReturn_of_listenLoad (hs : s.Reached) (hmain : s.main = .listening)
    (hat : s.executor.main = .listenLoad) (hpending : s.Pending) : s.CanReturn := by
  have hidle := ((hs.inv.at_of hmain).1.before (by simp [hat])).1
  have hx : s.executor.step .main = some { s.executor with main := .listenBind } := by
    rw [AsioExecutor.step, AsioExecutor.mainStep, hat]
    exact if_neg fun h ↦ h.1 hidle
  have hstep := listen_step hmain hx
  exact .cons rfl hstep (canReturn_of_listenBind (reached_step hs hstep) hmain rfl
    (hpending.of_eq rfl rfl rfl))

theorem canReturn_of_publishing (hs : s.Reached) (hmain : s.main = .publishing)
    (hpending : s.Pending) : s.CanReturn := by
  have hidle := (hs.inv.at_of hmain).1.main
  have hstep : s.step .main = some { s with
      executor := s.executor.begins .listen .listenLoad, signalExecutor := true
      main := .listening } := by
    rw [step, mainStep, hmain]
    dsimp only
    rw [AsioExecutor.step, if_pos hidle]
    rfl
  exact .cons rfl hstep (canReturn_of_listenLoad (reached_step hs hstep) rfl rfl
    (hpending.of_eq rfl rfl rfl))

theorem canReturn_of_starting (n : ℕ) : ∀ {s : Lifecycle ι} {next : ℕ}, s.Reached →
    s.main = .starting next → s.Pending → s.plugins - next = n → s.CanReturn := by
  induction n with
  | zero =>
    intro s next hs hmain hpending hn
    have hstep : s.step .main = some { s with main := .publishing } := by
      rw [step, mainStep, hmain]
      exact if_neg (Nat.not_lt.mpr (Nat.sub_eq_zero_iff_le.mp hn))
    exact .cons rfl hstep (canReturn_of_publishing (reached_step hs hstep) rfl
      (hpending.of_eq rfl rfl rfl))
  | succ n ih =>
    intro s next hs hmain hpending hn
    have hnext : next < s.plugins := by omega
    have hstep : s.step (.start true)
        = some { s.record (.started next) with main := .starting (next + 1) } := by
      rw [step, hmain]
      dsimp only
      rw [if_pos hnext, if_pos rfl]
    refine .cons rfl hstep (ih (reached_step hs hstep) rfl (hpending.of_eq rfl rfl rfl) ?_)
    change s.plugins - (next + 1) = n
    omega

/-- **A `stop` that is under way can succeed**: it waits until the executor has been configured. -/
theorem canReturn_of_pending (hs : s.Reached) (hway : s.UnderWay) (hnone : s.stopper = none)
    (hpending : s.Pending) : s.CanReturn := by
  have hover (h : Over s.executor s.stopper) : False := h.stopper hnone
  have hconfigured (hstate : s.executor.state ≠ .idle) : s.CanReturn := by
    refine canReturn_of_configured hs hway hpending ?_
    have hrank := (hs.inv.unstopped hnone).rank
    cases hx : s.executor.state <;> rw [hx] at hrank hstate
    case idle => exact absurd rfl hstate
    case configured => exact Or.inl rfl
    case running => exact Or.inr rfl
    all_goals exact absurd hrank (by decide)
  cases hmain : s.main <;> rw [UnderWay, hmain] at hway
  case idle => exact hway.elim
  case starting next => exact canReturn_of_starting _ hs hmain hpending rfl
  case rollingBack => exact hway.elim
  case publishing => exact canReturn_of_publishing hs hmain hpending
  case listening =>
    have hlistened := (hs.inv.at_of hmain).1
    cases hat : s.executor.main
    case idle =>
      obtain ⟨c, hlog, hstate⟩ := hlistened.after hat
      have herror := hway.resolve_left (not_not.mpr hat)
      rw [lastError, hlog] at herror
      exact hconfigured (hstate herror)
    case listenLoad => exact canReturn_of_listenLoad hs hmain hat hpending
    case listenBind => exact canReturn_of_listenBind hs hmain hat hpending
    case listenConfigure => exact canReturn_of_listenConfigure hs hmain hat hpending
    all_goals
      have hrun := hlistened.fresh.main
      rw [hat] at hrun
      exact absurd hrun.symm Bool.false_ne_true
  case running => exact hconfigured (hs.inv.at_of hmain).2.1
  case flushing => exact (hover (hs.inv.at_of hmain).1).elim
  case stopping => exact (hover (hs.inv.at_of hmain).1).elim
  case clearing => exact (hover (hs.inv.at_of hmain).1).elim
  case returned => exact hway.elim
  case terminated => exact hway.elim
  case destroying => exact hway.elim
  case destroyingExecutor => exact hway.elim
  case destroyed => exact hway.elim

omit [DecidableEq ι] in
theorem UnderWay.unreturned (h : s.UnderWay) (hs : s.Inv) (hnone : s.stopper = none) :
    s.main.unreturned = true := by
  have hover (h : Over s.executor s.stopper) : False := h.stopper hnone
  cases hmain : s.main <;> rw [UnderWay, hmain] at h
  case flushing => exact (hover (hs.at_of hmain).1).elim
  case stopping => exact (hover (hs.at_of hmain).1).elim
  case clearing => exact (hover (hs.at_of hmain).1).elim
  all_goals first
  | exact h.elim
  | rfl

/-! ## The log -/

theorem beforeLog_of_mainMoves (hs : s.main.beforeLog = true) (h : MainMoves s s') :
    s'.main.beforeLog = true := by
  have hnot {p : Main} (hp : p.beforeLog = false) (hmain : s.main = p) : False := by
    rw [hmain, hp] at hs
    exact Bool.false_ne_true hs
  cases h with
  | stops hmain => exact (hnot rfl hmain).elim
  | stopped hmain => exact (hnot rfl hmain).elim
  | clears hmain => exact (hnot rfl hmain).elim
  | destroys hmain => exact (hnot rfl hmain).elim
  | destroysExecutor hmain => exact (hnot rfl hmain).elim
  | destroyed hmain => exact (hnot rfl hmain).elim
  | _ => rfl

/-- Only the log lets the thread that listens past its calls. -/
theorem beforeLog_step {e : Event ι} (hs : s.main.beforeLog = true) (he : e ≠ .flushed)
    (h : s.step e = some s') : s'.main.beforeLog = true := by
  cases moves_of_step h with
  | installs => exact hs
  | callListen => rfl
  | starts => rfl
  | startFails => rfl
  | main hmoves => exact beforeLog_of_mainMoves hs hmoves
  | flushed => exact absurd rfl he
  | destroy hmain =>
    rcases hmain with hmain | hmain
    · rw [hmain] at hs
      exact absurd hs Bool.false_ne_true
    · rw [hmain] at hs
      exact absurd hs Bool.false_ne_true
  | _ => exact hs

theorem beforeLog_of_run {es : List (Event ι)} (hs : s.main.beforeLog = true)
    (hes : .flushed ∉ es) (hrun : s.run es = some s') : s'.main.beforeLog = true :=
  Machine.run_invariant_on (E := fun e ↦ e ≠ .flushed) (I := fun s ↦ s.main.beforeLog = true)
    (fun _ _ _ he hs h ↦ beforeLog_step hs he h) (fun _ he ↦ ne_of_mem_of_not_mem he hes) hs hrun

/-- **When `listen` returns.** Wherever the thread that listens, those of the executor and the
callers of `stop` are: if nobody calls `App::stop` and no signal arrives from now on, and the log
returns when it is called, `listen` can still return if and only if a `stop` has succeeded or one
that is under way can. In particular a `stop` that has found the executor idle is lost. Whatever
happens, `listen` does not return without the log. -/
theorem returns_iff {threadCount hardwareConcurrency : ℕ} {es : List (Event ι)}
    (hrun : (start threadCount hardwareConcurrency).run es = some s) (hway : s.UnderWay) :
    (s.CanReturn ↔ s.stopper ≠ none ∨ s.Pending) ∧
    (s.main.beforeLog = true →
      ∀ es' s', s.run es' = some s' → s'.main = .returned → .flushed ∈ es') := by
  have hs := reached_of_run hrun
  refine ⟨⟨?_, ?_⟩, fun hbefore es' s' hrun' hreturned ↦ ?_⟩
  · rintro ⟨es', s', hes', hrun', hmain⟩
    by_contra hnot
    obtain ⟨hnone, hpending⟩ := not_or.mp hnot
    have hstopper := not_not.mp hnone
    have hlost : s.Lost := ⟨hstopper, hpending, hway.unreturned hs.inv hstopper⟩
    exact (lost_of_run hs.inv hlost hes' hrun').not_at rfl hmain
  · rintro (hstopper | hpending)
    · exact canReturn_of_stopper hs hway hstopper
    · by_cases hnone : s.stopper = none
      · exact canReturn_of_pending hs hway hnone hpending
      · exact canReturn_of_stopper hs hway hnone
  · by_contra hlog
    have hbefore' := beforeLog_of_run hbefore hlog hrun'
    rw [hreturned] at hbefore'
    exact Bool.false_ne_true hbefore'

/-- While the first of two plugins starts, another thread calls `App::stop`, and this call
returns. -/
def stoppedEarly : List (Event Unit) :=
  [.install (some (.ok ())), .install (some (.ok ())), .callListen, .callStop (), .stop (),
    .stop (), .stop (), .executor (.stop (.app ())), .executor (.stop (.app ()))]

/-- Nobody has stopped the executor, so `listen` does not return. -/
theorem returns_iff_early : ∃ s, (start 1 4).run stoppedEarly = some s ∧
    s.own = installs 2 ∧ s.log = installs 2 ++ stopsBy () 2 ∧ ¬s.CanReturn := by
  obtain ⟨s, hrun, hmain, hown, hlog, hstopper, hstops, hexecutor⟩ : ∃ s,
      (start 1 4).run stoppedEarly = some s ∧ s.main = .starting 0 ∧ s.own = installs 2 ∧
        s.log = installs 2 ++ stopsBy () 2 ∧ s.stopper = none ∧ s.stops () = none ∧
        s.executor.stops = fun _ ↦ none := by
    refine ⟨_, rfl, rfl, rfl, rfl, rfl, rfl, funext fun caller ↦ ?_⟩
    cases caller <;> rfl
  have hway : s.UnderWay := by rw [UnderWay, hmain]; trivial
  refine ⟨s, hrun, hown, hlog, fun hreturns ↦ ?_⟩
  rcases (returns_iff hrun hway).1.mp hreturns with hne | hpending
  · exact hne hstopper
  · cases hpending with
    | plugins hi => exact absurd (hstops.symm.trans hi) (by simp)
    | first hcaller => exact absurd (hcaller.symm.trans (congrFun hexecutor _)) (by simp)
    | second hcaller => exact absurd (hcaller.symm.trans (congrFun hexecutor _)) (by simp)

end Steps

end Lifecycle

end Aevox
