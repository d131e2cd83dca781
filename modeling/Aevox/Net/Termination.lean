import Aevox.Net.Stopping

/-!
# A stopped executor comes to rest

Once a `stop` has changed the state, `run` can be brought to its end without anything new
(`canFinish`): the callers of `stop` take the steps that remain to them, the grace period ends, the
drain timer thread stops the context, the workers leave the event loop and are joined, and so is
the drain timer thread, unless `run` has missed it. At no point do the threads wait for each other.

`run` waits for its workers in one place and for the drain timer thread in another. In the first,
somebody is about to stop the context (`Threads`), and in the second the drain timer thread has been
signalled (`Signals`).
-/

namespace Aevox

namespace AsioExecutor

variable {ι : Type*} {s s' : AsioExecutor ι}

/-! ## The signal -/

/-- `run` has made the transition to `Running` and not signalled the drain timer thread. -/
def MainPoint.unsignaled : MainPoint → Bool
  | .runSpawn _ | .runAccept | .runJoin | .runTest | .runSignal => true
  | _ => false

/-- The signal is given by `run`, when it has joined its workers. -/
structure Signals (s : AsioExecutor ι) : Prop where
  unset : s.state.rank ≤ 2 ∨ s.main.unsignaled = true →
    s.signalSet = false ∧ s.drainSignaled = false
  set : s.main = .runJoinDrain → s.drainThread = some .waiting → s.signalSet = true
  finished : s.drainThread = some .finished → s.contextStopped = true ∨ s.signalSet = true

/-- What holds in every state that is reached. -/
structure Sound (s : AsioExecutor ι) : Prop where
  inv : s.Inv
  timing : s.Timing
  threads : s.Threads ∨ s.Abandoned
  signals : s.Signals

theorem sound_makeExecutor (threadCount hardwareConcurrency : ℕ) :
    (makeExecutor threadCount hardwareConcurrency : AsioExecutor ι).Sound where
  inv := inv_makeExecutor threadCount hardwareConcurrency
  timing := (threads_makeExecutor threadCount hardwareConcurrency).timing
  threads := Or.inl (threads_makeExecutor threadCount hardwareConcurrency)
  signals := ⟨fun _ ↦ ⟨rfl, rfl⟩, nofun, nofun⟩

/-- `run` looks for the drain timer thread or waits for it, so it has not missed it. -/
theorem Sound.threads_of (hs : s.Sound) (hmain : s.main.ownsThreads = true) : s.Threads := by
  rcases hs.threads with h | h
  · exact h
  · rw [h.main] at hmain
    exact absurd hmain Bool.false_ne_true

variable [DecidableEq ι]

omit [DecidableEq ι] in
theorem signals_of_mainMoves (hs : s.Sound) (h : MainMoves s s') : s'.Signals := by
  obtain ⟨hunset, hset, hfinished⟩ := hs.signals
  have hearly (h : s.state.rank ≤ 2 ∨ false = true) :
      s.signalSet = false ∧ s.drainSignaled = false :=
    hunset (h.imp_right fun h ↦ absurd h Bool.false_ne_true)
  cases h with
  | starts hmain =>
    have hat := hs.inv.at_of hmain
    have hfalse := hunset (Or.inl (Nat.le_succ_of_le hat.2.2.2.2))
    exact ⟨fun _ ↦ hfalse, (fun h ↦ nomatch h), hfinished⟩
  | spawned hmain =>
    exact ⟨fun _ ↦ hunset (Or.inr (by rw [hmain]; rfl)), (fun h ↦ nomatch h), hfinished⟩
  | spawns hmain =>
    exact ⟨fun _ ↦ hunset (Or.inr (by rw [hmain]; rfl)), (fun h ↦ nomatch h), hfinished⟩
  | accepts hmain =>
    exact ⟨fun _ ↦ hunset (Or.inr (by rw [hmain]; rfl)), (fun h ↦ nomatch h), hfinished⟩
  | joins hmain =>
    exact ⟨fun _ ↦ hunset (Or.inr (by rw [hmain]; rfl)), (fun h ↦ nomatch h), hfinished⟩
  | joined hmain =>
    exact ⟨fun _ ↦ hunset (Or.inr (by rw [hmain]; rfl)), (fun h ↦ nomatch h), hfinished⟩
  | finds hmain =>
    exact ⟨fun _ ↦ hunset (Or.inr (by rw [hmain]; rfl)), (fun h ↦ nomatch h), hfinished⟩
  | signals hmain =>
    have hfalse := hunset (Or.inr (by rw [hmain]; rfl))
    have hsignal : (if s.drainSignaled then s.signalSet else true) = true := by
      rw [hfalse.2]
      rfl
    refine ⟨fun h ↦ ?_, fun _ _ ↦ hsignal, fun _ ↦ Or.inr hsignal⟩
    have hat := (hs.threads_of (by rw [hmain]; rfl)).at_of hmain
    rcases h with h | h
    · have hrank : s.state.rank ≤ 2 := h
      rw [hat.1] at hrank
      exact absurd hrank (by decide)
    · exact absurd h Bool.false_ne_true
  | joinsDrain => exact ⟨hearly, (fun h ↦ nomatch h), fun h ↦ nomatch h⟩
  | configures _ hstate =>
    have hfalse := hunset (Or.inl (by rw [hstate]; exact Nat.zero_le 2))
    exact ⟨fun _ ↦ hfalse, (fun h ↦ nomatch h), hfinished⟩
  | stops =>
    refine ⟨fun h ↦ ?_, (fun h ↦ nomatch h), hfinished⟩
    rcases h with h | h
    · have hrank : State.stopped.rank ≤ 2 := h
      exact absurd hrank (by decide)
    · exact absurd h Bool.false_ne_true
  | _ => exact ⟨hearly, (fun h ↦ nomatch h), hfinished⟩

theorem signals_stopStep (hs : s.Sound) {caller : ι} {point : StopPoint}
    (hcaller : s.stops caller = some point) : (s.stopStep caller point).Signals := by
  obtain ⟨hunset, hset, hfinished⟩ := hs.signals
  have hnone (hstarts : point.startsThread = true) : s.drainThread = none :=
    hs.timing.untimed caller ⟨point, hcaller, hstarts⟩
  have hlate (state : State) (hrank : 3 ≤ state.rank)
      (h : state.rank ≤ 2 ∨ s.main.unsignaled = true) :
      s.signalSet = false ∧ s.drainSignaled = false :=
    h.elim (fun h ↦ by omega) fun h ↦ hunset (Or.inr h)
  cases point with
  | casRunning =>
    rw [stopStep]
    split
    · exact ⟨hlate .draining (Nat.le_refl 3), hset, hfinished⟩
    · exact ⟨hunset, hset, hfinished⟩
  | casConfigured =>
    rw [stopStep]
    split
    · exact ⟨hlate .stopped (Nat.le_succ 3), hset, hfinished⟩
    · exact ⟨hunset, hset, hfinished⟩
  | closeAcceptors => exact ⟨hunset, hset, hfinished⟩
  | stopContext => exact ⟨hunset, hset, fun _ ↦ Or.inl rfl⟩
  | postClose => exact ⟨hunset, hset, hfinished⟩
  | releaseGuard => exact ⟨hunset, hset, hfinished⟩
  | resetSignal =>
    refine ⟨fun _ ↦ ⟨rfl, rfl⟩, fun _ hwaiting ↦ ?_, fun hdone ↦ ?_⟩
    · exact absurd ((hnone rfl).symm.trans hwaiting) (by simp)
    · exact absurd ((hnone rfl).symm.trans hdone) (by simp)
  | startDrainThread =>
    refine ⟨hunset, fun hmain _ ↦ ?_, fun h ↦ ?_⟩
    · -- `run` waits for a thread that there is already
      have hat := (hs.threads_of (by rw [show s.main = _ from hmain]; rfl)).at_of
        (show s.main = .runJoinDrain from hmain)
      exact absurd (hnone rfl) hat.2.2.2
    · exact absurd (Option.some.inj h) (by simp)

theorem signals_step {e : Event ι} (hs : s.Sound) (h : s.step e = some s') : s'.Signals := by
  obtain ⟨hunset, hset, hfinished⟩ := hs.signals
  have hearly (h : s.state.rank ≤ 2 ∨ false = true) :
      s.signalSet = false ∧ s.drainSignaled = false :=
    hunset (h.imp_right fun h ↦ absurd h Bool.false_ne_true)
  cases e with
  | callListen =>
    rw [step] at h
    split at h
    · rw [← Option.some.inj h]
      exact ⟨hearly, (fun h ↦ MainPoint.noConfusion h), hfinished⟩
    · exact absurd h.symm (Option.some_ne_none s')
  | callRun =>
    rw [step] at h
    split at h
    · rw [← Option.some.inj h]
      exact ⟨hearly, (fun h ↦ MainPoint.noConfusion h), hfinished⟩
    · exact absurd h.symm (Option.some_ne_none s')
  | main => exact signals_of_mainMoves hs (mainMoves_of_mainStep h)
  | bindRefused inUse =>
    rw [step] at h
    split at h
    · rw [← Option.some.inj h]
      exact ⟨hearly, (fun h ↦ MainPoint.noConfusion h), hfinished⟩
    · exact absurd h.symm (Option.some_ne_none s')
  | callStop caller =>
    rw [step] at h
    split at h
    · rw [← Option.some.inj h]
      exact ⟨hunset, hset, hfinished⟩
    · exact absurd h.symm (Option.some_ne_none s')
  | stop caller =>
    obtain ⟨point, hcaller, rfl⟩ := Option.map_eq_some_iff.mp h
    exact signals_stopStep hs hcaller
  | worker e =>
    rw [step] at h
    split at h
    · cases workerMoves_of_workerStep h with
      | works => exact ⟨hunset, hset, hfinished⟩
      | exits => exact ⟨hunset, hset, fun _ ↦ Or.inl rfl⟩
    · exact absurd h.symm (Option.some_ne_none s')
  | expire =>
    rw [step] at h
    split at h
    · rw [← Option.some.inj h]
      refine ⟨hunset, fun _ h ↦ ?_, fun h ↦ ?_⟩
      · exact absurd (Option.some.inj h) (by simp)
      · exact absurd (Option.some.inj h) (by simp)
    · exact absurd h.symm (Option.some_ne_none s')
  | drainEnds =>
    rw [step] at h
    split at h
    · rw [← Option.some.inj h]
      exact ⟨hunset, fun _ h ↦ absurd (Option.some.inj h) (by simp), fun _ ↦ Or.inl rfl⟩
    · split at h
      · rw [← Option.some.inj h]
        exact ⟨hunset, fun _ h ↦ absurd (Option.some.inj h) (by simp), fun _ ↦ Or.inr ‹_›⟩
      · exact absurd h.symm (Option.some_ne_none s')
    · exact absurd h.symm (Option.some_ne_none s')

theorem sound_step {e : Event ι} (hs : s.Sound) (h : s.step e = some s') : s'.Sound := by
  refine ⟨(inv_step hs.inv h).1, timing_step hs.inv hs.timing h, ?_, signals_step hs h⟩
  rcases hs.threads with hthreads | habandoned
  · by_cases htimely : s.Timely e
    · exact Or.inl (threads_step hthreads htimely h)
    · -- `run` misses the thread that the armed caller is going to create
      cases e with
      | main =>
        obtain ⟨hmain, hmisses⟩ := Classical.not_imp.mp htimely
        obtain ⟨i, hi⟩ := not_forall_not.mp hmisses
        have hmissed : s.step .main = some { s with main := .runStop } := by
          rw [step, mainStep, hmain, hs.timing.untimed i hi]
          rfl
        obtain rfl := Option.some.inj (h.symm.trans hmissed)
        obtain ⟨point, hpoint, hstarts⟩ := id hi
        exact Or.inr ⟨(inv_step hs.inv h).1, Or.inr ⟨i, hi⟩,
          hs.inv.reached.draining i point hpoint hstarts, rfl⟩
      | _ => exact absurd trivial htimely
  · exact Or.inr (abandoned_step habandoned h)

/-! ## The way to the end -/

/-- `run` or `listen` can be brought to its end without another call. -/
def CanReturn (s : AsioExecutor ι) : Prop :=
  Machine.CanReach step (·.isOwn = true) (·.main = .idle) s

theorem canReturn_of_idle (h : s.main = .idle) : s.CanReturn := .of_goal h

/-- A `stop` has changed the state. -/
structure Stopping (s : AsioExecutor ι) : Prop where
  sound : s.Sound
  rank : 3 ≤ s.state.rank

theorem Stopping.step {e : Event ι} (hs : s.Stopping) (h : s.step e = some s') : s'.Stopping :=
  ⟨sound_step hs.sound h, Nat.le_trans hs.rank (inv_step hs.sound.inv h).2⟩

theorem canReturn_of_runStop (hmain : s.main = .runStop) : s.CanReturn := by
  have hstep : s.step .main = some ((s.stores .stopped).returns none) := by
    rw [step, mainStep, hmain]
  exact .cons rfl hstep (canReturn_of_idle rfl)

/-- `run` waits for the drain timer thread, which has been signalled or has expired. -/
theorem canReturn_of_runJoinDrain (hs : s.Stopping) (hmain : s.main = .runJoinDrain) :
    s.CanReturn := by
  have hjoins {t : AsioExecutor ι} (hmain : t.main = .runJoinDrain)
      (h : t.drainThread = some .finished) : t.CanReturn := by
    have hstep : t.step .main = some { t with drainThread := none, main := .runStop } := by
      rw [step, mainStep, hmain]
      exact if_pos h
    exact .cons rfl hstep (canReturn_of_runStop rfl)
  have hat := (hs.sound.threads_of (by rw [hmain]; rfl)).at_of hmain
  obtain ⟨thread, hthread⟩ := Option.ne_none_iff_exists'.mp hat.2.2.2
  cases thread with
  | finished => exact hjoins hmain hthread
  | expired =>
    have hstep : s.step .drainEnds
        = some { s with drainThread := some .finished, contextStopped := true } := by
      rw [step, hthread]
    exact .cons rfl hstep (hjoins hmain rfl)
  | waiting =>
    have hset := hs.sound.signals.set hmain hthread
    have hstep : s.step .drainEnds = some { s with drainThread := some .finished } := by
      rw [step, hthread]
      exact if_pos hset
    exact .cons rfl hstep (hjoins hmain rfl)

theorem canReturn_of_runSignal (hs : s.Stopping) (hmain : s.main = .runSignal) :
    s.CanReturn := by
  have hstep : s.step .main = some { s with
      drainSignaled := true
      signalSet := if s.drainSignaled then s.signalSet else true
      main := .runJoinDrain } := by
    rw [step, mainStep, hmain]
  exact .cons rfl hstep (canReturn_of_runJoinDrain (hs.step hstep) rfl)

theorem canReturn_of_runTest (hs : s.Stopping) (hmain : s.main = .runTest) : s.CanReturn := by
  by_cases hdrain : s.drainThread.isSome = true
  · have hstep : s.step .main = some { s with main := .runSignal } := by
      rw [step, mainStep, hmain]
      exact if_pos hdrain
    exact .cons rfl hstep (canReturn_of_runSignal (hs.step hstep) rfl)
  · have hstep : s.step .main = some { s with main := .runStop } := by
      rw [step, mainStep, hmain]
      exact if_neg hdrain
    exact .cons rfl hstep (canReturn_of_runStop rfl)

/-- The context has been stopped: the workers leave the event loop and are joined. -/
theorem canReturn_of_stopped (n : ℕ) : ∀ {s : AsioExecutor ι}, s.Stopping → s.main = .runJoin →
    s.contextStopped = true → 2 * s.workers + s.exited = n → s.CanReturn := by
  induction n using Nat.strongRecOn with
  | ind n ih =>
    intro s hs hmain hcontext hn
    by_cases hexited : s.exited = 0
    · by_cases hworkers : s.workers = 0
      · have hstep : s.step .main = some { s with main := .runTest } := by
          rw [step, mainStep, hmain]
          simp only [hexited, hworkers, ne_eq, not_true_eq_false, if_false, if_true]
        exact .cons rfl hstep (canReturn_of_runTest (hs.step hstep) rfl)
      · have hstep : s.step (.worker .exits) = some { s with
            workers := s.workers - 1, exited := s.exited + 1, contextStopped := true } := by
          rw [step, if_pos hworkers, workerStep, if_pos (Or.inl hcontext)]
        exact .cons rfl hstep (ih (2 * (s.workers - 1) + (s.exited + 1)) (by omega)
          (hs.step hstep) hmain rfl rfl)
    · have hstep : s.step .main = some { s with exited := s.exited - 1 } := by
        rw [step, mainStep, hmain]
        exact if_pos hexited
      exact .cons rfl hstep (ih (2 * s.workers + (s.exited - 1)) (by omega) (hs.step hstep) hmain
        hcontext rfl)

/-- There is a drain timer thread: the grace period ends, unless it has ended. -/
theorem canReturn_of_drainThread (hs : s.Stopping) (hmain : s.main = .runJoin)
    (hthread : s.drainThread ≠ none) : s.CanReturn := by
  have hexpired {t : AsioExecutor ι} (ht : t.Stopping) (hmain : t.main = .runJoin)
      (h : t.drainThread = some .expired) : t.CanReturn := by
    have hstep : t.step .drainEnds
        = some { t with drainThread := some .finished, contextStopped := true } := by
      rw [step, h]
    exact .cons rfl hstep (canReturn_of_stopped _ (ht.step hstep) hmain rfl rfl)
  have hunset := (hs.sound.signals.unset (Or.inr (by rw [hmain]; rfl))).1
  obtain ⟨thread, hthread⟩ := Option.ne_none_iff_exists'.mp hthread
  cases thread with
  | finished =>
    rcases hs.sound.signals.finished hthread with hcontext | hset
    · exact canReturn_of_stopped _ hs hmain hcontext rfl
    · exact absurd (hunset.symm.trans hset) Bool.false_ne_true
  | expired => exact hexpired hs hmain hthread
  | waiting =>
    have hstep : s.step .expire = some { s with drainThread := some .expired } := by
      rw [step]
      exact if_pos ⟨hthread, hunset⟩
    exact .cons rfl hstep (hexpired (hs.step hstep) hmain rfl)

theorem canReturn_of_armed (hs : s.Stopping) (hmain : s.main = .runJoin) {i : ι}
    (hi : s.Armed i) : s.CanReturn := by
  have hstop {t : AsioExecutor ι} {point : StopPoint} (h : t.stops i = some point) :
      t.step (.stop i) = some (t.stopStep i point) := by
    rw [step, h]
    rfl
  have hlast {t : AsioExecutor ι} (ht : t.Stopping) (hmain : t.main = .runJoin)
      (h : t.stops i = some .startDrainThread) : t.CanReturn :=
    .cons rfl (hstop h)
      (canReturn_of_drainThread (ht.step (hstop h)) hmain (Option.some_ne_none _))
  have hreset {t : AsioExecutor ι} (ht : t.Stopping) (hmain : t.main = .runJoin)
      (h : t.stops i = some .resetSignal) : t.CanReturn :=
    .cons rfl (hstop h) (hlast (ht.step (hstop h)) hmain (stops_stopAt_self _ _))
  have hrelease {t : AsioExecutor ι} (ht : t.Stopping) (hmain : t.main = .runJoin)
      (h : t.stops i = some .releaseGuard) : t.CanReturn :=
    .cons rfl (hstop h) (hreset (ht.step (hstop h)) hmain (stops_stopAt_self _ _))
  obtain ⟨point, hpoint, hstarts⟩ := hi
  cases point with
  | postClose =>
    exact .cons rfl (hstop hpoint)
      (hrelease (hs.step (hstop hpoint)) hmain (stops_stopAt_self _ _))
  | releaseGuard => exact hrelease hs hmain hpoint
  | resetSignal => exact hreset hs hmain hpoint
  | startDrainThread => exact hlast hs hmain hpoint
  | _ => exact absurd hstarts Bool.false_ne_true

theorem canReturn_of_runJoin (hs : s.Stopping) (hmain : s.main = .runJoin) : s.CanReturn := by
  have hat := (hs.sound.threads_of (by rw [hmain]; rfl)).at_of hmain
  rcases hat with ⟨hstate, -⟩ | ⟨-, hthread | ⟨i, hi⟩⟩
  · have hrank := hs.rank
    rw [hstate] at hrank
    exact absurd hrank (by decide)
  · exact canReturn_of_drainThread hs hmain hthread
  · exact canReturn_of_armed hs hmain hi

theorem canReturn_of_runAccept (hs : s.Stopping) (hmain : s.main = .runAccept) :
    s.CanReturn := by
  have hstep : s.step .main
      = some { s with accepting := s.accepting + s.acceptLoops, main := .runJoin } := by
    rw [step, mainStep, hmain]
  exact .cons rfl hstep (canReturn_of_runJoin (hs.step hstep) rfl)

theorem canReturn_of_runSpawn (left : ℕ) : ∀ {s : AsioExecutor ι}, s.Stopping →
    s.main = .runSpawn left → s.CanReturn := by
  induction left with
  | zero =>
    intro s hs hmain
    have hstep : s.step .main = some { s with main := .runAccept } := by
      rw [step, mainStep, hmain]
    exact .cons rfl hstep (canReturn_of_runAccept (hs.step hstep) rfl)
  | succ left ih =>
    intro s hs hmain
    have hstep : s.step .main = some { s with
        workers := s.workers + 1
        call := { s.call with started := s.call.started + 1 }
        main := .runSpawn left } := by
      rw [step, mainStep, hmain]
    exact .cons rfl hstep (ih (hs.step hstep) rfl)

theorem canReturn_of_runRelease {current : State} (hmain : s.main = .runRelease current) :
    s.CanReturn := by
  by_cases hcurrent : current = .draining ∨ current = .stopped
  · have hstep : s.step .main = some { s with workGuard := false, main := .runStop } := by
      rw [step, mainStep, hmain]
      exact if_pos hcurrent
    exact .cons rfl hstep (canReturn_of_runStop rfl)
  · have hstep : s.step .main
        = some ({ s with workGuard := false }.returns (some .alreadyRunning)) := by
      rw [step, mainStep, hmain]
      exact if_neg hcurrent
    exact .cons rfl hstep (canReturn_of_idle rfl)

/-- The transition to `Running` fails: the state is another one by now. -/
theorem canReturn_of_runStart (hs : s.Stopping) {current : State}
    (hmain : s.main = .runStart current) : s.CanReturn := by
  have hat := hs.sound.inv.at_of hmain
  have hne : s.state ≠ current := by
    rintro rfl
    exact absurd (Nat.le_trans hs.rank hat.2.2.2.2) (by decide)
  have hstep : s.step .main = some { s with main := .runRelease s.state } := by
    rw [step, mainStep, hmain]
    exact if_neg hne
  exact .cons rfl hstep (canReturn_of_runRelease rfl)

theorem canReturn_of_runGuard (hs : s.Stopping) {current : State}
    (hmain : s.main = .runGuard current) : s.CanReturn := by
  have hstep : s.step .main = some { s with workGuard := true, main := .runStart current } := by
    rw [step, mainStep, hmain]
  exact .cons rfl hstep (canReturn_of_runStart (hs.step hstep) rfl)

theorem canReturn_of_runLoad (hs : s.Stopping) (hmain : s.main = .runLoad) : s.CanReturn := by
  have hstopped : s.state = .draining ∨ s.state = .stopped := by
    have hrank := hs.rank
    cases hstate : s.state <;> rw [hstate] at hrank
    case draining => exact Or.inl rfl
    case stopped => exact Or.inr rfl
    all_goals exact absurd hrank (by decide)
  have hstep : s.step .main = some { s with main := .runStop } := by
    rw [step, mainStep, hmain]
    exact if_pos hstopped
  exact .cons rfl hstep (canReturn_of_runStop rfl)

/-- **A stopped executor comes to rest.** Once a `stop` has changed the state, `run` can be brought
to its end without another call, wherever its thread, the workers and the callers of `stop` are. -/
theorem canReturn (hs : s.Stopping) (hmain : s.main.inRun = true) : s.CanReturn := by
  cases hat : s.main <;> rw [hat] at hmain
  case idle => exact canReturn_of_idle hat
  case listenLoad => exact absurd hmain Bool.false_ne_true
  case listenBind => exact absurd hmain Bool.false_ne_true
  case listenConfigure => exact absurd hmain Bool.false_ne_true
  case runLoad => exact canReturn_of_runLoad hs hat
  case runGuard => exact canReturn_of_runGuard hs hat
  case runStart => exact canReturn_of_runStart hs hat
  case runRelease => exact canReturn_of_runRelease hat
  case runSpawn left => exact canReturn_of_runSpawn left hs hat
  case runAccept => exact canReturn_of_runAccept hs hat
  case runJoin => exact canReturn_of_runJoin hs hat
  case runTest => exact canReturn_of_runTest hs hat
  case runSignal => exact canReturn_of_runSignal hs hat
  case runJoinDrain => exact canReturn_of_runJoinDrain hs hat
  case runStop => exact canReturn_of_runStop hat

end AsioExecutor

end Aevox
