import Aevox.Net.Lifecycle

/-!
# Quiescence after `run`

`stop` wakes the workers before it creates the drain timer thread: it posts the closing of the
acceptors and releases the work guard first. The workers can all leave the event loop in between, so
`run` may join them and look for a drain thread before there is one. A `stop` that is on its way to
create the thread is *armed*. At most one caller ever is, and there is no drain thread while it is
(`Timing`).

If `run` never looks while a caller is armed, then it leaves nothing behind (`Threads`): it holds
the work guard as long as nobody has started to drain, so the workers cannot all have left before a
`stop` is armed. If it does look, it misses the thread, which then outlives it (`Abandoned`).
-/

namespace Aevox

namespace AsioExecutor

variable {ι : Type*} {s s' : AsioExecutor ι}

/-- The caller is going to create the drain thread. -/
def Armed (s : AsioExecutor ι) (caller : ι) : Prop :=
  ∃ point, s.stops caller = some point ∧ point.startsThread = true

/-- Every worker has been joined, there is no drain thread, and nobody is going to create one. -/
def Quiet (s : AsioExecutor ι) : Prop :=
  s.workers = 0 ∧ s.exited = 0 ∧ s.drainThread = none ∧ ∀ i, ¬s.Armed i

/-- A `run` has returned success. -/
def Returned (s : AsioExecutor ι) : Prop := ∃ c ∈ s.log, c.operation = .run ∧ c.error = none

/-- If this is where `run` looks for the drain thread, then nobody is going to create one. -/
def Timely (s : AsioExecutor ι) : Event ι → Prop
  | .main => s.main = .runTest → ∀ i, ¬s.Armed i
  | _ => True

/-! ## One drain thread -/

/-- The drain thread and the caller that is going to create it. -/
structure Timing (s : AsioExecutor ι) : Prop where
  single : ∀ i j, s.Armed i → s.Armed j → i = j
  untimed : ∀ i, s.Armed i → s.drainThread = none
  undrained : s.drains = 0 → s.drainThread = none ∧ ∀ i, ¬s.Armed i

theorem Timing.of_eq (hs : s.Timing) (hstops : s'.stops = s.stops)
    (hdrains : s'.drains = s.drains)
    (hthread : s.drainThread = none → s'.drainThread = none) : s'.Timing := by
  have harmed : ∀ i, s'.Armed i → s.Armed i := fun i ↦ by
    rw [Armed, hstops]
    exact id
  refine ⟨fun i j hi hj ↦ hs.single i j (harmed i hi) (harmed j hj),
    fun i hi ↦ hthread (hs.untimed i (harmed i hi)), fun h ↦ ?_⟩
  obtain ⟨hnone, hunarmed⟩ := hs.undrained (hdrains ▸ h)
  exact ⟨hthread hnone, fun i hi ↦ hunarmed i (harmed i hi)⟩

theorem MainMoves.timing (hs : s.Timing) (h : MainMoves s s') : s'.Timing := by
  cases h with
  | joinsDrain => exact hs.of_eq rfl rfl fun _ ↦ rfl
  | _ => exact hs.of_eq rfl rfl id

section Callers

variable [DecidableEq ι] {caller : ι}

theorem armed_stopAt (s : AsioExecutor ι) (caller : ι) (point : StopPoint) (i : ι) :
    (s.stopAt caller point).Armed i ↔
      (i = caller ∧ point.startsThread = true) ∨ (i ≠ caller ∧ s.Armed i) := by
  by_cases hi : i = caller
  · subst hi
    simp [Armed, stops_stopAt_self]
  · simp [Armed, stops_stopAt_of_ne s hi, hi]

theorem armed_stopReturns (s : AsioExecutor ι) (caller i : ι) :
    (s.stopReturns caller).Armed i ↔ i ≠ caller ∧ s.Armed i := by
  by_cases hi : i = caller
  · subst hi
    simp [Armed, stops_stopReturns_self]
  · simp [Armed, stops_stopReturns_of_ne s hi, hi]

theorem timing_stopAt (hs : s.Timing) {point : StopPoint}
    (h : point.startsThread = true → s.Armed caller) : (s.stopAt caller point).Timing := by
  have harmed : ∀ i, (s.stopAt caller point).Armed i → s.Armed i := by
    intro i hi
    rcases (armed_stopAt s caller point i).mp hi with ⟨rfl, hpoint⟩ | ⟨-, hi⟩
    · exact h hpoint
    · exact hi
  refine ⟨fun i j hi hj ↦ hs.single i j (harmed i hi) (harmed j hj),
    fun i hi ↦ hs.untimed i (harmed i hi), fun hdrains ↦ ?_⟩
  obtain ⟨hnone, hunarmed⟩ := hs.undrained hdrains
  exact ⟨hnone, fun i hi ↦ hunarmed i (harmed i hi)⟩

theorem timing_stopReturns (hs : s.Timing) : (s.stopReturns caller).Timing := by
  have harmed : ∀ i, (s.stopReturns caller).Armed i → s.Armed i :=
    fun i hi ↦ ((armed_stopReturns s caller i).mp hi).2
  refine ⟨fun i j hi hj ↦ hs.single i j (harmed i hi) (harmed j hj),
    fun i hi ↦ hs.untimed i (harmed i hi), fun hdrains ↦ ?_⟩
  obtain ⟨hnone, hunarmed⟩ := hs.undrained hdrains
  exact ⟨hnone, fun i hi ↦ hunarmed i (harmed i hi)⟩

theorem timing_stopStep (hinv : s.Inv) (hs : s.Timing) {point : StopPoint}
    (hcaller : s.stops caller = some point) : (s.stopStep caller point).Timing := by
  cases point with
  | casRunning =>
    rw [stopStep]
    split
    next hstate =>
      have hdrains := hinv.drains_eq_zero hstate
      obtain ⟨hnone, hunarmed⟩ := hs.undrained hdrains
      have harmed : ∀ i, ({ s with state := .draining, drains := s.drains + 1 }.stopAt caller
          .postClose).Armed i → i = caller := by
        intro i hi
        rcases (armed_stopAt _ caller _ i).mp hi with ⟨hi, -⟩ | ⟨-, hi⟩
        · exact hi
        · exact absurd hi (hunarmed i)
      exact ⟨fun i j hi hj ↦ (harmed i hi).trans (harmed j hj).symm, fun _ _ ↦ hnone,
        fun h ↦ absurd h (Nat.succ_ne_zero _)⟩
    · exact timing_stopAt hs fun h ↦ absurd h (by decide)
  | casConfigured =>
    rw [stopStep]
    split
    · refine timing_stopAt ?_ fun h ↦ absurd h (by decide)
      exact hs.of_eq rfl rfl id
    · exact timing_stopReturns hs
  | closeAcceptors =>
    refine timing_stopAt ?_ fun h ↦ absurd h (by decide)
    exact hs.of_eq rfl rfl id
  | stopContext =>
    apply timing_stopReturns
    exact hs.of_eq rfl rfl id
  | postClose | releaseGuard | resetSignal =>
    refine timing_stopAt ?_ fun _ ↦ ⟨_, hcaller, rfl⟩
    exact hs.of_eq rfl rfl id
  | startDrainThread =>
    have hunarmed : ∀ i, ¬(s.stopStep caller .startDrainThread).Armed i := by
      intro i hi
      obtain ⟨hne, hi⟩ := (armed_stopReturns _ caller i).mp hi
      exact hne (hs.single i caller hi ⟨_, hcaller, rfl⟩)
    refine ⟨fun i _ hi ↦ absurd hi (hunarmed i), fun i hi ↦ absurd hi (hunarmed i), fun h ↦ ?_⟩
    exact absurd ⟨_, hcaller, rfl⟩ ((hs.undrained h).2 caller)

theorem timing_step {e : Event ι} (hinv : s.Inv) (hs : s.Timing) (h : s.step e = some s') :
    s'.Timing := by
  cases moves_of_step h with
  | callListen | callRun | bindRefused => exact hs.of_eq rfl rfl id
  | main hmoves => exact hmoves.timing hs
  | callStop => exact timing_stopAt hs fun h ↦ absurd h (by decide)
  | stop hcaller => exact timing_stopStep hinv hs hcaller
  | worker _ hmoves => cases hmoves <;> exact hs.of_eq rfl rfl id
  | drain hmoves =>
    obtain ⟨thread, contextStopped, hdrain, -⟩ := hmoves
    exact hs.of_eq rfl rfl fun h ↦ absurd h hdrain

end Callers

/-! ## The threads of a run -/

/-- There is a drain thread, or there will be one. -/
def Drains (s : AsioExecutor ι) : Prop := s.drainThread ≠ none ∨ ∃ i, s.Armed i

/-- `run` has all but `left` of its workers. While nobody drains, they are kept in the event loop by
the work guard. -/
def Busy (s : AsioExecutor ι) (left : ℕ) : Prop :=
  (s.state = .running ∧ s.workers + left = s.threadCount ∧ s.exited = 0 ∧ s.workGuard = true) ∨
    (s.state = .draining ∧ s.Drains)

/-- What is known of the threads when the thread that listens and runs is at a point. -/
def ThreadsAt (s : AsioExecutor ι) : MainPoint → Prop
  | .runSpawn left => s.Busy left
  | .runAccept | .runJoin => s.Busy 0
  | .runTest => s.state = .draining ∧ s.workers = 0 ∧ s.exited = 0 ∧ s.Drains
  | .runSignal | .runJoinDrain =>
    s.state = .draining ∧ s.workers = 0 ∧ s.exited = 0 ∧ s.drainThread ≠ none
  | .runStart _ => s.workGuard = true ∧ s.Quiet
  | .runRelease current => current.rank ≤ s.state.rank ∧ s.Quiet
  | .runStop => 3 ≤ s.state.rank ∧ s.Quiet
  | _ => s.Quiet

/-- What holds as long as `run` looks for the drain thread in time. -/
structure Threads (s : AsioExecutor ι) : Prop where
  inv : s.Inv
  timing : s.Timing
  threadCount : 0 < s.threadCount
  context : s.contextStopped = true → 3 ≤ s.state.rank
  main : s.ThreadsAt s.main
  returned : s.Returned → 4 ≤ s.state.rank

theorem Threads.at_of (hs : s.Threads) {p : MainPoint} (hmain : s.main = p) : s.ThreadsAt p :=
  hmain ▸ hs.main

theorem Threads.of_running (hs : s.Threads) (hstate : s.state = .running) :
    s.drainThread = none ∧ ∀ i, ¬s.Armed i :=
  hs.timing.undrained (hs.inv.drains_eq_zero hstate)

theorem MainMoves.threadsAt (hs : s.Threads) (h : MainMoves s s')
    (htimely : s.main = .runTest → ∀ i, ¬s.Armed i) : s'.ThreadsAt s'.main := by
  have hout := hs.inv.main
  cases h with
  | refusesListen hmain | loadsListen hmain | binds hmain | configures hmain | keepsState hmain
  | refusesRun hmain | loadsRun hmain =>
    exact hs.at_of hmain
  | loadsStopped hmain hstate =>
    have hat := hs.at_of hmain
    refine ⟨?_, hat⟩
    rcases hstate with hstate | hstate <;> rw [hstate] <;> decide
  | guards hmain =>
    have hat := hs.at_of hmain
    exact ⟨rfl, hat⟩
  | starts hmain =>
    have hat := hs.at_of hmain
    obtain ⟨hguard, hworkers, hexited, -⟩ := hat
    exact Or.inl ⟨rfl, (congrArg (· + s.threadCount) hworkers).trans (Nat.zero_add _), hexited,
      hguard⟩
  | misses hmain =>
    have hat := hs.at_of hmain
    exact ⟨Nat.le_refl _, hat.2⟩
  | releases hmain hcurrent =>
    have hat := hs.at_of hmain
    refine ⟨Nat.le_trans ?_ hat.1, hat.2⟩
    rcases hcurrent with rfl | rfl <;> decide
  | refusesLate hmain =>
    have hat := hs.at_of hmain
    exact hat.2
  | spawned hmain | accepts hmain =>
    exact hs.at_of hmain
  | @spawns left hmain =>
    have hat := hs.at_of hmain
    rcases hat with ⟨hstate, hcount, hexited, hguard⟩ | hdraining
    · refine Or.inl ⟨hstate, ?_, hexited, hguard⟩
      rw [← hcount]
      exact Nat.add_right_comm _ _ _
    · exact Or.inr hdraining
  | joins hmain hne =>
    have hat := hs.at_of hmain
    rcases hat with ⟨-, -, hexited, -⟩ | hdraining
    · exact absurd hexited hne
    · exact Or.inr hdraining
  | joined hmain hexited hworkers =>
    have hat := hs.at_of hmain
    rcases hat with ⟨-, hcount, -⟩ | ⟨hstate, hdrains⟩
    · -- the workers cannot have left while nobody drains
      have := hs.threadCount
      omega
    · exact ⟨hstate, hworkers, hexited, hdrains⟩
  | finds hmain hdrain =>
    have hat := hs.at_of hmain
    exact ⟨hat.1, hat.2.1, hat.2.2.1, Option.isSome_iff_ne_none.mp hdrain⟩
  | findsNone hmain hdrain =>
    have hat := hs.at_of hmain
    obtain ⟨i, hi⟩ := hat.2.2.2.resolve_left fun h ↦ h hdrain
    exact absurd hi (htimely hmain i)
  | signals hmain =>
    exact hs.at_of hmain
  | joinsDrain hmain hdrain =>
    have hat := hs.at_of hmain
    obtain ⟨hstate, hworkers, hexited, hthread⟩ := hat
    refine ⟨by rw [hstate]; decide, hworkers, hexited, rfl, fun i hi ↦ ?_⟩
    exact hthread (hs.timing.untimed i hi)
  | stops hmain =>
    have hat := hs.at_of hmain
    exact hat.2

theorem returned_returns {error : Option ExecutorError} (h : (s.returns error).Returned) :
    s.Returned ∨ (s.call.operation = .run ∧ error = none) := by
  obtain ⟨c, hc, hrun⟩ := h
  rcases List.mem_append.mp hc with hc | hc
  · exact Or.inl ⟨c, hc, hrun⟩
  · rw [List.mem_singleton.mp hc] at hrun
    exact Or.inr hrun

theorem MainMoves.returned (hs : s.Threads) (h : MainMoves s s') (hreturned : s'.Returned) :
    4 ≤ s'.state.rank := by
  have hrank := h.rank_le hs.inv
  have hbefore : s.Returned → 4 ≤ s'.state.rank := fun h ↦ Nat.le_trans (hs.returned h) hrank
  have hout := hs.inv.main
  cases h with
  | refusesListen | refusesRun | refusesLate =>
    rcases returned_returns hreturned with h | ⟨-, herror⟩
    · exact hbefore h
    · exact nomatch herror
  | configures hmain | keepsState hmain =>
    rw [hmain] at hout
    rcases returned_returns hreturned with h | ⟨hoperation, -⟩
    · exact hbefore h
    · exact absurd (hoperation.symm.trans hout.2.2) (by decide)
  | stops => exact Nat.le_refl 4
  | _ => exact hbefore hreturned

theorem MainMoves.threads (hs : s.Threads) (h : MainMoves s s') (hinv : s'.Inv)
    (htiming : s'.Timing) (htimely : s.main = .runTest → ∀ i, ¬s.Armed i) : s'.Threads := by
  refine ⟨hinv, htiming, ?_, fun hcontext ↦ ?_, h.threadsAt hs htimely,
    h.returned hs⟩
  · cases h <;> exact hs.threadCount
  · refine Nat.le_trans (hs.context ?_) (h.rank_le hs.inv)
    cases h <;> exact hcontext

/-! ## The other threads -/

theorem ThreadsAt.of_eq {p : MainPoint} (h : s.ThreadsAt p) (hworkers : s'.workers = s.workers)
    (hexited : s'.exited = s.exited) (hguard : s'.workGuard = s.workGuard)
    (hcount : s'.threadCount = s.threadCount) (hthread : s'.drainThread = s.drainThread)
    (harmed : ∀ i, s'.Armed i ↔ s.Armed i)
    (hstate : s'.state = s.state ∨ s.state = .configured ∧ s'.state = .stopped) :
    s'.ThreadsAt p := by
  have hquiet : s.Quiet → s'.Quiet := by
    rintro ⟨h₁, h₂, h₃, h₄⟩
    exact ⟨hworkers.trans h₁, hexited.trans h₂, hthread.trans h₃,
      fun i hi ↦ h₄ i ((harmed i).mp hi)⟩
  have hdrains : s.Drains → s'.Drains := by
    rintro (h | ⟨i, hi⟩)
    · exact Or.inl (hthread ▸ h)
    · exact Or.inr ⟨i, (harmed i).mpr hi⟩
  have hrank : s.state.rank ≤ s'.state.rank := by
    rcases hstate with hstate | ⟨hstate, hstate'⟩
    · exact Nat.le_of_eq (congrArg State.rank hstate.symm)
    · rw [hstate, hstate']
      decide
  have hkeep : ∀ {state : State}, s.state = state → state ≠ .configured → s'.state = state := by
    intro state h hne
    rcases hstate with hstate | ⟨hstate, -⟩
    · exact hstate.trans h
    · exact absurd (h.symm.trans hstate) hne
  have hbusy : ∀ {left : ℕ}, s.Busy left → s'.Busy left := by
    rintro left (⟨h₁, h₂, h₃, h₄⟩ | ⟨h₁, h₂⟩)
    · exact Or.inl ⟨hkeep h₁ (by decide), by rw [hworkers, hcount, h₂], hexited.trans h₃,
        hguard.trans h₄⟩
    · exact Or.inr ⟨hkeep h₁ (by decide), hdrains h₂⟩
  cases p with
  | idle | listenLoad | listenBind | listenConfigure | runLoad | runGuard => exact hquiet h
  | runStart => exact ⟨hguard.trans h.1, hquiet h.2⟩
  | runRelease => exact ⟨Nat.le_trans h.1 hrank, hquiet h.2⟩
  | runSpawn | runAccept | runJoin => exact hbusy h
  | runTest =>
    exact ⟨hkeep h.1 (by decide), hworkers.trans h.2.1, hexited.trans h.2.2.1, hdrains h.2.2.2⟩
  | runSignal | runJoinDrain =>
    exact ⟨hkeep h.1 (by decide), hworkers.trans h.2.1, hexited.trans h.2.2.1, hthread ▸ h.2.2.2⟩
  | runStop => exact ⟨Nat.le_trans h.1 hrank, hquiet h.2⟩

theorem Quiet.not_drains (hs : s.Quiet) : ¬s.Drains := by
  rintro (h | ⟨i, hi⟩)
  · exact h hs.2.2.1
  · exact hs.2.2.2 i hi

theorem Threads.not_drains (hs : s.Threads) (hstate : s.state = .running) : ¬s.Drains := by
  obtain ⟨hnone, hunarmed⟩ := hs.of_running hstate
  rintro (h | ⟨i, hi⟩)
  · exact h hnone
  · exact hunarmed i hi

/-- While something drains, workers may leave and the drain thread may be created. -/
theorem Threads.drains (hs : s.Threads) (hdrains : s.Drains) (hstate : s'.state = s.state)
    (hdrains' : s'.Drains) (hthread : s.drainThread ≠ none → s'.drainThread ≠ none)
    (hjoined : s.workers = 0 → s.exited = 0 → s'.workers = 0 ∧ s'.exited = 0) :
    s'.ThreadsAt s.main := by
  have hbusy : ∀ {left : ℕ}, s.Busy left → s'.Busy left := by
    rintro left (⟨hrunning, -⟩ | ⟨hdraining, -⟩)
    · exact absurd hdrains (hs.not_drains hrunning)
    · exact Or.inr ⟨hstate.trans hdraining, hdrains'⟩
  cases hmain : s.main with
  | idle | listenLoad | listenBind | listenConfigure | runLoad | runGuard =>
    have hat := hs.at_of hmain
    exact absurd hdrains hat.not_drains
  | runStart | runRelease | runStop =>
    have hat := hs.at_of hmain
    exact absurd hdrains hat.2.not_drains
  | runSpawn | runAccept | runJoin =>
    have hat := hs.at_of hmain
    exact hbusy hat
  | runTest =>
    have hat := hs.at_of hmain
    obtain ⟨hworkers, hexited⟩ := hjoined hat.2.1 hat.2.2.1
    exact ⟨hstate.trans hat.1, hworkers, hexited, hdrains'⟩
  | runSignal | runJoinDrain =>
    have hat := hs.at_of hmain
    obtain ⟨hworkers, hexited⟩ := hjoined hat.2.1 hat.2.2.1
    exact ⟨hstate.trans hat.1, hworkers, hexited, hthread hat.2.2.2⟩

/-- A worker can leave the event loop only if something drains. -/
theorem Threads.drains_of_exits (hs : s.Threads) (hworkers : s.workers ≠ 0)
    (hcontext : s.contextStopped = true ∨ s.outstanding = 0) : s.state = .draining ∧ s.Drains := by
  have hbusy : ∀ {left : ℕ}, s.Busy left → s.state = .draining ∧ s.Drains := by
    rintro left (⟨hstate, -, -, hguard⟩ | h)
    · rcases hcontext with hcontext | hcontext
      · have hrank := hs.context hcontext
        rw [hstate] at hrank
        exact absurd hrank (by decide)
      · rw [outstanding, hguard, Bool.toNat_true] at hcontext
        omega
    · exact h
  cases hmain : s.main with
  | idle | listenLoad | listenBind | listenConfigure | runLoad | runGuard =>
    have hat := hs.at_of hmain
    exact absurd hat.1 hworkers
  | runStart | runRelease | runStop =>
    have hat := hs.at_of hmain
    exact absurd hat.2.1 hworkers
  | runSpawn | runAccept | runJoin =>
    have hat := hs.at_of hmain
    exact hbusy hat
  | runTest | runSignal | runJoinDrain =>
    have hat := hs.at_of hmain
    exact absurd hat.2.1 hworkers

theorem WorkerMoves.threads (hs : s.Threads) (hworkers : s.workers ≠ 0) (h : WorkerMoves s s')
    (hinv : s'.Inv) (htiming : s'.Timing) : s'.Threads := by
  cases h with
  | works =>
    refine ⟨hinv, htiming, hs.threadCount, hs.context, ?_, hs.returned⟩
    exact hs.main.of_eq rfl rfl rfl rfl rfl (fun _ ↦ Iff.rfl) (Or.inl rfl)
  | exits hcontext =>
    obtain ⟨hstate, hdrains⟩ := hs.drains_of_exits hworkers hcontext
    refine ⟨hinv, htiming, hs.threadCount, fun _ ↦ ?_, ?_, hs.returned⟩
    · exact Nat.le_of_eq (congrArg State.rank hstate.symm)
    · exact hs.drains hdrains rfl hdrains id fun h ↦ absurd h hworkers

theorem DrainMoves.threads (hs : s.Threads) (h : DrainMoves s s') (hinv : s'.Inv)
    (htiming : s'.Timing) : s'.Threads := by
  obtain ⟨thread, contextStopped, hdrain, -⟩ := h
  have hat : ({ s with drainThread := some thread, contextStopped } : AsioExecutor ι).ThreadsAt
      s.main :=
    hs.drains (Or.inl hdrain) rfl (Or.inl (Option.some_ne_none _))
      (fun _ ↦ Option.some_ne_none _) fun h₁ h₂ ↦ ⟨h₁, h₂⟩
  refine ⟨hinv, htiming, hs.threadCount, fun _ ↦ ?_, hat, hs.returned⟩
  refine hs.inv.reached.drained fun h ↦ ?_
  exact hdrain (hs.timing.undrained h).1

section Callers

variable [DecidableEq ι] {caller : ι}

theorem armed_stopAt_iff (hcaller : ¬s.Armed caller) {point : StopPoint}
    (hpoint : point.startsThread = false) (i : ι) :
    (s.stopAt caller point).Armed i ↔ s.Armed i := by
  rw [armed_stopAt, hpoint]
  constructor
  · rintro (⟨-, h⟩ | ⟨-, h⟩)
    · exact nomatch h
    · exact h
  · exact fun h ↦ Or.inr ⟨fun hi ↦ hcaller (hi ▸ h), h⟩

theorem armed_stopReturns_iff (hcaller : ¬s.Armed caller) (i : ι) :
    (s.stopReturns caller).Armed i ↔ s.Armed i := by
  rw [armed_stopReturns]
  exact ⟨fun h ↦ h.2, fun h ↦ ⟨fun hi ↦ hcaller (hi ▸ h), h⟩⟩

omit [DecidableEq ι] in
theorem not_armed {point : StopPoint} (hcaller : s.stops caller = some point)
    (hpoint : point.startsThread = false) : ¬s.Armed caller := by
  rintro ⟨point', hpoint', hstarts⟩
  obtain rfl := Option.some.inj (hcaller.symm.trans hpoint')
  exact absurd (hpoint.symm.trans hstarts) (by decide)

omit [DecidableEq ι] in
theorem Threads.main_of_running (hs : s.Threads) (hstate : s.state = .running) :
    (∃ left, s.main = .runSpawn left) ∨ s.main = .runAccept ∨ s.main = .runJoin := by
  have hout := hs.inv.main
  cases hmain : s.main with
  | runSpawn left => exact Or.inl ⟨left, rfl⟩
  | runAccept => exact Or.inr (Or.inl rfl)
  | runJoin => exact Or.inr (Or.inr rfl)
  | idle =>
    rw [hmain] at hout
    exact absurd hstate hout.1
  | listenLoad | listenBind | listenConfigure | runLoad | runGuard | runStart | runRelease =>
    rw [hmain] at hout
    exact absurd hstate hout.1.1
  | runTest | runSignal | runJoinDrain =>
    have hat := hs.at_of hmain
    exact absurd (hstate.symm.trans hat.1) (by decide)
  | runStop =>
    have hat := hs.at_of hmain
    have hrank := hat.1
    rw [hstate] at hrank
    exact absurd hrank (by decide)

theorem threadsAt_stopStep (hs : s.Threads) {point : StopPoint}
    (hcaller : s.stops caller = some point) : (s.stopStep caller point).ThreadsAt s.main := by
  cases point with
  | casRunning =>
    rw [stopStep]
    split
    next hstate =>
      have hdrains : ({ s with state := .draining, drains := s.drains + 1 }.stopAt caller
          .postClose).Drains := Or.inr ⟨caller, (armed_stopAt _ _ _ _).mpr (Or.inl ⟨rfl, rfl⟩)⟩
      rcases hs.main_of_running hstate with ⟨left, hmain⟩ | hmain | hmain <;> rw [hmain] <;>
        exact Or.inr ⟨rfl, hdrains⟩
    · exact hs.main.of_eq rfl rfl rfl rfl rfl (armed_stopAt_iff (not_armed hcaller rfl) rfl)
        (Or.inl rfl)
  | casConfigured =>
    rw [stopStep]
    split
    next hstate =>
      refine hs.main.of_eq rfl rfl rfl rfl rfl ?_ (Or.inr ⟨hstate, rfl⟩)
      exact armed_stopAt_iff (s := { s with state := .stopped }) (not_armed hcaller rfl) rfl
    · exact hs.main.of_eq rfl rfl rfl rfl rfl (armed_stopReturns_iff (not_armed hcaller rfl))
        (Or.inl rfl)
  | closeAcceptors =>
    refine hs.main.of_eq rfl rfl rfl rfl rfl ?_ (Or.inl rfl)
    exact armed_stopAt_iff (s := { s with acceptorsClosed := true }) (not_armed hcaller rfl) rfl
  | stopContext =>
    refine hs.main.of_eq rfl rfl rfl rfl rfl ?_ (Or.inl rfl)
    exact armed_stopReturns_iff (s := { s with contextStopped := true }) (not_armed hcaller rfl)
  | postClose | releaseGuard | resetSignal =>
    refine hs.drains (Or.inr ⟨caller, _, hcaller, rfl⟩) rfl (Or.inr ⟨caller, ?_⟩) id
      fun h₁ h₂ ↦ ⟨h₁, h₂⟩
    exact (armed_stopAt _ _ _ _).mpr (Or.inl ⟨rfl, rfl⟩)
  | startDrainThread =>
    exact hs.drains (Or.inr ⟨caller, _, hcaller, rfl⟩) rfl (Or.inl (Option.some_ne_none _))
      (fun _ ↦ Option.some_ne_none _) fun h₁ h₂ ↦ ⟨h₁, h₂⟩

/-- Only the last step before `run` stops the context. -/
theorem context_stopStep (s : AsioExecutor ι) (caller : ι) (point : StopPoint) :
    (s.stopStep caller point).threadCount = s.threadCount ∧
      ((s.stopStep caller point).contextStopped = true →
        s.contextStopped = true ∨ point = .stopContext) := by
  cases point with
  | casRunning | casConfigured =>
    rw [stopStep]
    split <;> exact ⟨rfl, Or.inl⟩
  | stopContext => exact ⟨rfl, fun _ ↦ Or.inr rfl⟩
  | _ => exact ⟨rfl, Or.inl⟩

theorem threads_stopStep (hs : s.Threads) {point : StopPoint}
    (hcaller : s.stops caller = some point) (hinv : (s.stopStep caller point).Inv)
    (htiming : (s.stopStep caller point).Timing) : (s.stopStep caller point).Threads := by
  obtain ⟨hmain, -, hlog, -, -⟩ := of_stopStep s caller point
  have hrank := rank_le_stopStep s caller point
  obtain ⟨hcount, hcontext⟩ := context_stopStep s caller point
  refine ⟨hinv, htiming, hcount ▸ hs.threadCount, fun h ↦ ?_, ?_, fun hreturned ↦ ?_⟩
  · refine Nat.le_trans ?_ hrank
    rcases hcontext h with h | rfl
    · exact hs.context h
    · exact Nat.le_of_succ_le (hs.inv.reached.closing caller (Or.inr hcaller))
  · rw [hmain]
    exact threadsAt_stopStep hs hcaller
  · rw [Returned, hlog] at hreturned
    exact Nat.le_trans (hs.returned hreturned) hrank

theorem threads_step {e : Event ι} (hs : s.Threads) (htimely : s.Timely e)
    (h : s.step e = some s') : s'.Threads := by
  have hinv := (inv_step hs.inv h).1
  have htiming := timing_step hs.inv hs.timing h
  cases moves_of_step h with
  | callListen hmain | callRun hmain =>
    have hat := hs.at_of hmain
    exact ⟨hinv, htiming, hs.threadCount, hs.context, hat, hs.returned⟩
  | main hmoves => exact hmoves.threads hs hinv htiming htimely
  | bindRefused error hmain =>
    have hat := hs.at_of hmain
    refine ⟨hinv, htiming, hs.threadCount, hs.context, hat, fun h ↦ ?_⟩
    rcases returned_returns h with h | ⟨-, herror⟩
    · exact hs.returned h
    · exact nomatch herror
  | @callStop caller hcaller =>
    have hunarmed : ¬s.Armed caller := by
      rintro ⟨point, hpoint, -⟩
      exact absurd (hcaller.symm.trans hpoint) (by simp)
    refine ⟨hinv, htiming, hs.threadCount, hs.context, ?_, hs.returned⟩
    exact hs.main.of_eq rfl rfl rfl rfl rfl (armed_stopAt_iff hunarmed rfl) (Or.inl rfl)
  | stop hcaller => exact threads_stopStep hs hcaller hinv htiming
  | worker hworkers hmoves => exact hmoves.threads hs hworkers hinv htiming
  | drain hmoves => exact hmoves.threads hs hinv htiming

end Callers

theorem resolveThreadCount_pos (threadCount hardwareConcurrency : ℕ) :
    0 < resolveThreadCount threadCount hardwareConcurrency := by
  rw [resolveThreadCount]
  split
  · exact Nat.lt_of_lt_of_le Nat.zero_lt_one (Nat.le_max_left _ _)
  · exact Nat.pos_of_ne_zero ‹_›

theorem threads_makeExecutor (threadCount hardwareConcurrency : ℕ) :
    (makeExecutor threadCount hardwareConcurrency : AsioExecutor ι).Threads where
  inv := inv_makeExecutor threadCount hardwareConcurrency
  timing := by
    refine ⟨?_, fun _ _ ↦ rfl, fun _ ↦ ⟨rfl, ?_⟩⟩
    · rintro i j ⟨_, h, -⟩
      exact nomatch h
    · rintro i ⟨_, h, -⟩
      exact nomatch h
  threadCount := resolveThreadCount_pos threadCount hardwareConcurrency
  context h := nomatch h
  main := by
    refine ⟨rfl, rfl, rfl, ?_⟩
    rintro i ⟨_, h, -⟩
    exact nomatch h
  returned := by
    rintro ⟨c, hc, -⟩
    exact absurd hc List.not_mem_nil

/-- A `run` that has returned left nothing behind. -/
theorem Threads.quiet (hs : s.Threads) (hreturned : s.Returned) : s.Quiet := by
  have hrank := hs.returned hreturned
  have hnot : ∀ {state : State}, state.rank < 4 → s.state ≠ state := by
    rintro state hlt rfl
    exact absurd hrank (Nat.not_le_of_lt hlt)
  cases hmain : s.main with
  | idle | listenLoad | listenBind | listenConfigure | runLoad | runGuard =>
    exact hs.at_of hmain
  | runStart | runRelease | runStop =>
    have hat := hs.at_of hmain
    exact hat.2
  | runSpawn | runAccept | runJoin =>
    have hat := hs.at_of hmain
    rcases hat with h | h
    · exact absurd h.1 (hnot (by decide))
    · exact absurd h.1 (hnot (by decide))
  | runTest | runSignal | runJoinDrain =>
    have hat := hs.at_of hmain
    exact absurd hat.1 (hnot (by decide))

/-! ## A drain thread that nobody joins -/

/-- Something drains and `run` will not look for it again. -/
structure Abandoned (s : AsioExecutor ι) : Prop where
  inv : s.Inv
  drains : s.Drains
  rank : 3 ≤ s.state.rank
  main : s.main.ownsThreads = false

theorem MainMoves.abandoned (hs : s.Abandoned) (h : MainMoves s s') :
    s'.Drains ∧ s'.main.ownsThreads = false := by
  have hmain' := hs.main
  cases h with
  | starts hmain =>
    have hat := hs.inv.at_of hmain
    exact absurd (Nat.le_trans hs.rank hat.2.2.2.2) (by decide)
  | spawned hmain | spawns hmain | accepts hmain | joins hmain | joined hmain | finds hmain
  | findsNone hmain | signals hmain | joinsDrain hmain =>
    rw [hmain] at hmain'
    exact nomatch hmain'
  | _ => exact ⟨hs.drains, rfl⟩

section Callers

variable [DecidableEq ι] {caller : ι}

theorem drains_stopStep (hs : s.Drains) {point : StopPoint}
    (hcaller : s.stops caller = some point) : (s.stopStep caller point).Drains := by
  rcases hs with hthread | ⟨i, hi⟩
  · apply Or.inl
    cases point with
    | casRunning | casConfigured =>
      rw [stopStep]
      split <;> exact hthread
    | startDrainThread => exact Option.some_ne_none _
    | _ => exact hthread
  by_cases hne : i = caller
  · -- the armed caller moves on, in the end to the creation of the thread
    obtain ⟨point', hpoint', hstarts⟩ := hi
    obtain rfl := Option.some.inj (hpoint'.symm.trans (hne ▸ hcaller))
    cases point' with
    | postClose | releaseGuard | resetSignal =>
      exact Or.inr ⟨caller, (armed_stopAt _ _ _ _).mpr (Or.inl ⟨rfl, rfl⟩)⟩
    | startDrainThread => exact Or.inl (Option.some_ne_none _)
    | _ => exact absurd hstarts (by decide)
  · refine Or.inr ⟨i, ?_⟩
    cases point with
    | casRunning | casConfigured =>
      rw [stopStep]
      split <;> first
      | exact (armed_stopAt _ _ _ _).mpr (Or.inr ⟨hne, hi⟩)
      | exact (armed_stopReturns _ _ _).mpr ⟨hne, hi⟩
    | stopContext | startDrainThread => exact (armed_stopReturns _ _ _).mpr ⟨hne, hi⟩
    | _ => exact (armed_stopAt _ _ _ _).mpr (Or.inr ⟨hne, hi⟩)

theorem abandoned_step {e : Event ι} (hs : s.Abandoned) (h : s.step e = some s') :
    s'.Abandoned := by
  obtain ⟨hinv, hrank⟩ := inv_step hs.inv h
  suffices h : s'.Drains ∧ s'.main.ownsThreads = false from
    ⟨hinv, h.1, Nat.le_trans hs.rank hrank, h.2⟩
  cases moves_of_step h with
  | callListen | callRun | bindRefused => exact ⟨hs.drains, rfl⟩
  | main hmoves => exact hmoves.abandoned hs
  | @callStop caller hcaller =>
    refine ⟨?_, hs.main⟩
    rcases hs.drains with hthread | ⟨i, hi⟩
    · exact Or.inl hthread
    · refine Or.inr ⟨i, (armed_stopAt _ _ _ _).mpr (Or.inr ⟨?_, hi⟩)⟩
      rintro rfl
      obtain ⟨point, hpoint, -⟩ := hi
      exact absurd (hcaller.symm.trans hpoint) (by simp)
  | @stop caller point hcaller =>
    obtain ⟨hmain, -⟩ := of_stopStep s caller point
    exact ⟨drains_stopStep hs.drains hcaller, hmain ▸ hs.main⟩
  | worker _ hmoves => cases hmoves <;> exact ⟨hs.drains, hs.main⟩
  | drain hmoves =>
    cases hmoves
    exact ⟨Or.inl (Option.some_ne_none _), hs.main⟩

theorem inv_timing_of_run {threadCount hardwareConcurrency : ℕ} {es : List (Event ι)}
    (hrun : (makeExecutor threadCount hardwareConcurrency).run es = some s) :
    s.Inv ∧ s.Timing := by
  have hstart := threads_makeExecutor (ι := ι) threadCount hardwareConcurrency
  exact Machine.run_invariant (I := fun s ↦ s.Inv ∧ s.Timing) (fun _ _ _ hs hstep ↦
    ⟨(inv_step hs.1 hstep).1, timing_step hs.1 hs.2 hstep⟩) ⟨hstart.inv, hstart.timing⟩ hrun

/-- **Quiescence.** Once a `run` has returned success, all its workers have been joined, there is no
drain thread and nobody is going to create one, if and only if `run` did not look for the drain
thread while a `stop` was between its transition to `Draining` and the creation of that thread. -/
theorem quiet_iff {threadCount hardwareConcurrency : ℕ} {es : List (Event ι)}
    (hrun : (makeExecutor threadCount hardwareConcurrency).run es = some s)
    (hreturned : s.Returned) : s.Quiet ↔
      Machine.Along step Timely (makeExecutor threadCount hardwareConcurrency) es := by
  constructor
  · intro hquiet
    refine Machine.along_iff.mpr fun es₁ e s₁ hpre hrun₁ ↦ ?_
    cases e with
    | main =>
      intro hmain i hi
      -- `run` has missed the thread that the armed caller is going to create
      obtain ⟨hinv, htiming⟩ := inv_timing_of_run hrun₁
      obtain ⟨es₂, rfl⟩ := hpre
      rw [List.append_assoc] at hrun
      have hrest := (Machine.run_append_of_some hrun₁ _).symm.trans hrun
      obtain ⟨s₂, hs₂, hrest⟩ := Machine.run_cons_eq_some_iff.mp hrest
      have hmissed : s₁.step .main = some { s₁ with main := .runStop } := by
        rw [step, mainStep, hmain, htiming.untimed i hi]
        rfl
      obtain rfl := Option.some.inj (hs₂.symm.trans hmissed)
      obtain ⟨point, hpoint, hstarts⟩ := id hi
      have habandoned : ({ s₁ with main := .runStop } : AsioExecutor ι).Abandoned :=
        ⟨(inv_step hinv hmissed).1, Or.inr ⟨i, hi⟩, hinv.reached.draining i point hpoint hstarts,
          rfl⟩
      exact hquiet.not_drains (Machine.run_invariant
        (fun _ _ _ hs hstep ↦ abandoned_step hs hstep) habandoned hrest).drains
    | _ => trivial
  · intro htimely
    exact (Machine.run_invariant_along (fun _ _ _ hs hC hstep ↦ threads_step hs hC hstep) htimely
      (threads_makeExecutor threadCount hardwareConcurrency) hrun).quiet hreturned

end Callers

/-- `listen`, and `run` up to the joining of its one worker. -/
def startedWithOneWorker : List (Event Unit) :=
  [.callListen, .main, .main, .main, .callRun, .main, .main, .main, .main, .main, .main]

/-- `stop` up to the release of the work guard, after which the worker leaves the event loop. -/
def stoppedHalfway : List (Event Unit) :=
  [.callStop (), .stop (), .stop (), .stop (), .worker .runClose, .worker .acceptEnds,
    .worker .exits]

/-- `stop` goes on, and only then `run` looks for the drain thread. -/
def finishedInTime : List (Event Unit) :=
  [.main, .stop (), .stop (), .main, .main, .main, .drainEnds, .main, .main]

/-- `run` joins the worker and looks for the drain thread after it has been created. -/
theorem quiet_iff_in_time : ∃ s,
    (makeExecutor 1 1).run (startedWithOneWorker ++ stoppedHalfway ++ finishedInTime) = some s ∧
      s.Returned ∧ s.drains = 1 ∧ (s.Quiet ↔ Machine.Along step Timely (makeExecutor 1 1)
        (startedWithOneWorker ++ stoppedHalfway ++ finishedInTime)) := by
  obtain ⟨s, hrun, hreturned, hdrains⟩ : ∃ s,
      (makeExecutor 1 1).run (startedWithOneWorker ++ stoppedHalfway ++ finishedInTime) = some s ∧
        s.Returned ∧ s.drains = 1 :=
    ⟨_, rfl, ⟨_, List.mem_cons_of_mem _ (List.mem_singleton_self _), rfl, rfl⟩, rfl⟩
  exact ⟨s, hrun, hreturned, hdrains, quiet_iff hrun hreturned⟩

/-- `run` joins the worker, finds no drain thread and returns. `stop` then creates one. -/
theorem not_quiet_of_late_stop :
    ¬∀ (threadCount hardwareConcurrency : ℕ) (es : List (Event Unit)) (s : AsioExecutor Unit),
      (makeExecutor threadCount hardwareConcurrency).run es = some s → s.Returned → s.Quiet := by
  intro h
  obtain ⟨s, hrun, hreturned, hthread⟩ : ∃ s, (makeExecutor 1 1).run (startedWithOneWorker ++
      stoppedHalfway ++ [.main, .main, .main, .main, .stop (), .stop ()]) = some s ∧ s.Returned ∧
        s.drainThread = some .waiting :=
    ⟨_, rfl, ⟨_, List.mem_cons_of_mem _ (List.mem_singleton_self _), rfl, rfl⟩, rfl⟩
  exact absurd (hthread.symm.trans (h 1 1 _ s hrun hreturned).2.2.1) (by simp)

end AsioExecutor

end Aevox
