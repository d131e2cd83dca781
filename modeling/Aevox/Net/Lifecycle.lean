import Aevox.Net.Executor

/-!
# The lifecycle of an executor

The state only ever moves forward, and most of what is known about an executor is that it has got at
least so far (`Reached`): the drain sequence has been started only if it is draining or beyond, and
after a `stop` that came between `listen` and `run` it is stopped. What is known at each step of the
thread that listens and runs is `At`. No call of `run` is under way while that thread is outside, so
the state is then neither `Running` nor `Draining`.
-/

namespace Aevox

namespace AsioExecutor

variable {ι : Type*} {s s' : AsioExecutor ι}

/-! ## How far the executor has got -/

theorem State.rank_le_four (state : State) : state.rank ≤ 4 := by
  cases state <;> decide

/-- What implies that the executor has got at least so far. -/
structure Reached (s : AsioExecutor ι) : Prop where
  listened : s.listened = true → 1 ≤ s.state.rank
  drains : s.drains ≤ 1
  drained : s.drains ≠ 0 → 3 ≤ s.state.rank
  stopCompleted : s.stopCompleted = true → 4 ≤ s.state.rank
  closing : ∀ i, s.stops i = some .closeAcceptors ∨ s.stops i = some .stopContext →
    4 ≤ s.state.rank
  draining : ∀ i point, s.stops i = some point → point.startsThread = true → 3 ≤ s.state.rank

theorem Reached.forward (hs : s.Reached) (hrank : s.state.rank ≤ s'.state.rank)
    (hlistened : s'.listened = true → s.listened = true ∨ 1 ≤ s'.state.rank)
    (hdrains : s'.drains = s.drains) (hcompleted : s'.stopCompleted = s.stopCompleted)
    (hstops : s'.stops = s.stops) : s'.Reached where
  listened h := (hlistened h).elim (fun h ↦ Nat.le_trans (hs.listened h) hrank) id
  drains := Nat.le_trans (Nat.le_of_eq hdrains) hs.drains
  drained h := Nat.le_trans (hs.drained (hdrains ▸ h)) hrank
  stopCompleted h := Nat.le_trans (hs.stopCompleted (hcompleted ▸ h)) hrank
  closing i h := Nat.le_trans (hs.closing i (hstops ▸ h)) hrank
  draining i point h hpoint := Nat.le_trans (hs.draining i point (hstops ▸ h) hpoint) hrank

/-! ## The thread that listens and runs -/

/-- The executor is neither running nor draining. -/
def Outside (s : AsioExecutor ι) : Prop := s.state ≠ .running ∧ s.state ≠ .draining

/-- What is known when the thread that listens and runs is at a point. -/
def At (s : AsioExecutor ι) : MainPoint → Prop
  | .idle => s.Outside
  | .listenLoad | .listenBind | .listenConfigure =>
    s.Outside ∧ s.call.writes = [] ∧ s.call.operation = .listen
  | .runLoad => s.Outside ∧ s.call.writes = [] ∧ s.call.started = 0
  | .runGuard current | .runStart current =>
    s.Outside ∧ s.call.writes = [] ∧ s.call.started = 0 ∧ s.call.stoppedBefore = false ∧
      current.rank ≤ 1
  | .runRelease _ => s.Outside ∧ s.call.writes = [] ∧ s.call.started = 0 ∧
      s.call.stoppedBefore = false
  | .runStop => s.call.stoppedBefore = true → s.call.started = 0
  | _ => s.call.stoppedBefore = false

/-- A call that has returned. -/
structure Call.Sound (c : Call) : Prop where
  rejected : c.error ≠ none → c.writes = []
  stoppedBefore : c.operation = .run → c.stoppedBefore = true → c.error = none ∧ c.started = 0

/-- What holds in every state that is reached. -/
structure Inv (s : AsioExecutor ι) : Prop where
  reached : s.Reached
  main : s.At s.main
  stoppedBefore : s.call.stoppedBefore = true → s.stopCompleted = true
  log : ∀ c ∈ s.log, c.Sound

theorem Inv.at_of (hs : s.Inv) {p : MainPoint} (hmain : s.main = p) : s.At p := hmain ▸ hs.main

theorem inv_makeExecutor (threadCount hardwareConcurrency : ℕ) :
    (makeExecutor threadCount hardwareConcurrency : AsioExecutor ι).Inv where
  reached := by
    constructor
    · exact fun h ↦ nomatch h
    · exact Nat.zero_le 1
    · exact fun h ↦ absurd rfl h
    · exact fun h ↦ nomatch h
    · rintro i (h | h) <;> exact nomatch h
    · exact fun i point h ↦ nomatch h
  main := ⟨nofun, nofun⟩
  stoppedBefore h := nomatch h
  log c hc := absurd hc List.not_mem_nil

/-- Outside `run` an executor that has got anywhere beyond `Configured` is stopped. -/
theorem Outside.stopped (hs : s.Outside) (hrank : 2 ≤ s.state.rank) : 4 ≤ s.state.rank := by
  obtain ⟨hrunning, hdraining⟩ := hs
  cases hstate : s.state <;> simp_all [State.rank]

theorem MainMoves.rank_le (hs : s.Inv) (h : MainMoves s s') : s.state.rank ≤ s'.state.rank := by
  cases h with
  | configures _ hstate =>
    rw [hstate]
    exact Nat.zero_le _
  | starts hmain =>
    have hat := hs.at_of hmain
    exact Nat.le_trans hat.2.2.2.2 (Nat.le_succ 1)
  | stops => exact State.rank_le_four _
  | _ => exact Nat.le_refl _

theorem listened_returns (error : Option ExecutorError) : (s.returns error).listened =
    (s.listened || (s.call.operation = .listen && error.isNone)) := by
  simp [returns, listened]

theorem listened_of_rejected {error : ExecutorError}
    (h : (s.returns (some error)).listened = true) : s.listened = true := by
  rwa [listened_returns, Option.isNone_some, Bool.and_false, Bool.or_false] at h

theorem one_le_rank {state : State} (h : state ≠ .idle) : 1 ≤ state.rank := by
  cases state with
  | idle => exact absurd rfl h
  | _ => decide

theorem MainMoves.reached (hs : s.Inv) (h : MainMoves s s') : s'.Reached := by
  have hrank := h.rank_le hs
  cases h with
  | refusesListen | refusesRun | refusesLate =>
    exact hs.reached.forward hrank (fun h ↦ Or.inl (listened_of_rejected h)) rfl rfl rfl
  | configures => exact hs.reached.forward hrank (fun _ ↦ Or.inr (Nat.le_refl 1)) rfl rfl rfl
  | keepsState _ hstate =>
    exact hs.reached.forward hrank (fun _ ↦ Or.inr (one_le_rank hstate)) rfl rfl rfl
  | stops => exact hs.reached.forward hrank (fun _ ↦ Or.inr (show 1 ≤ 4 by decide)) rfl rfl rfl
  | _ => exact hs.reached.forward hrank Or.inl rfl rfl rfl

/-- At the load of `run` a call that began after a `stop` finds the executor stopped. -/
theorem Inv.stopped (hs : s.Inv) (h : s.call.stoppedBefore = true) : s.state = .stopped := by
  have hrank := hs.reached.stopCompleted (hs.stoppedBefore h)
  cases hstate : s.state with
  | stopped => rfl
  | _ =>
    rw [hstate] at hrank
    exact absurd hrank (by decide)

theorem MainMoves.at_main (hs : s.Inv) (h : MainMoves s s') : s'.At s'.main := by
  cases h with
  | refusesListen hmain _ | keepsState hmain _ =>
    have hat := hs.at_of hmain
    exact hat.1
  | configures hmain hstate => exact ⟨nofun, nofun⟩
  | loadsListen hmain | binds hmain =>
    exact hs.at_of hmain
  | loadsStopped hmain =>
    have hat := hs.at_of hmain
    exact fun _ ↦ hat.2.2
  | refusesRun hmain hstate =>
    have hat := hs.at_of hmain
    exact absurd hstate hat.1.1
  | loadsRun hmain hstate =>
    have hat := hs.at_of hmain
    refine ⟨hat.1, hat.2.1, hat.2.2, Bool.eq_false_iff.mpr fun h ↦ ?_, ?_⟩
    · rw [hs.stopped h] at hstate
      exact hstate.elim nofun nofun
    · rcases hstate with hstate | hstate <;> rw [hstate] <;> decide
  | guards hmain =>
    exact hs.at_of hmain
  | starts hmain =>
    have hat := hs.at_of hmain
    exact hat.2.2.2.1
  | misses hmain =>
    have hat := hs.at_of hmain
    exact ⟨hat.1, hat.2.1, hat.2.2.1, hat.2.2.2.1⟩
  | releases hmain =>
    have hat := hs.at_of hmain
    exact fun _ ↦ hat.2.2.1
  | refusesLate hmain =>
    have hat := hs.at_of hmain
    exact hat.1
  | spawned hmain | spawns hmain | accepts hmain | joins hmain | joined hmain | finds hmain
  | signals hmain =>
    exact hs.at_of hmain
  | findsNone hmain | joinsDrain hmain =>
    have hat := hs.at_of hmain
    exact fun h ↦ absurd (h.symm.trans hat) (by decide)
  | stops => exact ⟨nofun, nofun⟩

/-- What a call that returns has to its credit. -/
theorem MainMoves.log (hs : s.Inv) (h : MainMoves s s') : ∀ c ∈ s'.log, c.Sound := by
  have hreturns : ∀ c : Call, c.Sound → ∀ c' ∈ s.log ++ [c], c'.Sound := by
    intro c hc c' hmem
    rcases List.mem_append.mp hmem with hmem | hmem
    · exact hs.log c' hmem
    · exact List.mem_singleton.mp hmem ▸ hc
  cases h with
  | refusesListen hmain =>
    have hat := hs.at_of hmain
    refine hreturns _ ⟨fun _ ↦ hat.2.1, fun h ↦ ?_⟩
    exact absurd (h.symm.trans hat.2.2) (by decide)
  | configures hmain | keepsState hmain =>
    have hat := hs.at_of hmain
    refine hreturns _ ⟨fun h ↦ absurd rfl h, fun h ↦ ?_⟩
    exact absurd (h.symm.trans hat.2.2) (by decide)
  | refusesRun hmain hstate =>
    have hat := hs.at_of hmain
    exact absurd hstate hat.1.1
  | refusesLate hmain =>
    have hat := hs.at_of hmain
    refine hreturns _ ⟨fun _ ↦ hat.2.1, fun _ h ↦ ?_⟩
    exact absurd (h.symm.trans hat.2.2.2) (by decide)
  | stops hmain =>
    have hat := hs.at_of hmain
    exact hreturns _ ⟨fun h ↦ absurd rfl h, fun _ h ↦ ⟨rfl, hat h⟩⟩
  | _ => exact hs.log

theorem MainMoves.inv (hs : s.Inv) (h : MainMoves s s') : s'.Inv := by
  refine ⟨h.reached hs, h.at_main hs, fun hstopped ↦ ?_, h.log hs⟩
  cases h <;> exact hs.stoppedBefore hstopped

/-! ## The callers of `stop` -/

theorem At.of_call (hcall : s'.call = s.call) (houtside : s.Outside → s'.Outside) {p : MainPoint}
    (h : s.At p) : s'.At p := by
  unfold At at h ⊢
  rw [hcall]
  cases p <;> grind

theorem Inv.outside (hs : s.Inv) (hmain : s.main.inRun = false) : s.Outside := by
  cases h : s.main with
  | idle =>
    exact hs.at_of h
  | listenLoad | listenBind | listenConfigure =>
    have hat := hs.at_of h
    exact hat.1
  | _ =>
    rw [h] at hmain
    exact nomatch hmain

/-- A drain that had been started before would have moved the state on. -/
theorem Inv.drains_eq_zero (hs : s.Inv) (hstate : s.state = .running) : s.drains = 0 := by
  by_contra hne
  have hrank := hs.reached.drained hne
  rw [hstate] at hrank
  exact absurd hrank (by decide)

variable [DecidableEq ι]

theorem Reached.stopAt (hs : s.Reached) (caller : ι) {point : StopPoint}
    (hclosing : point = .closeAcceptors ∨ point = .stopContext → 4 ≤ s.state.rank)
    (hdraining : point.startsThread = true → 3 ≤ s.state.rank) :
    (s.stopAt caller point).Reached := by
  refine ⟨hs.listened, hs.drains, hs.drained, hs.stopCompleted, fun i h ↦ ?_, fun i p h hp ↦ ?_⟩
  · by_cases hi : i = caller
    · rw [hi, stops_stopAt_self, Option.some_inj, Option.some_inj] at h
      exact hclosing h
    · rw [stops_stopAt_of_ne s hi] at h
      exact hs.closing i h
  · by_cases hi : i = caller
    · rw [hi, stops_stopAt_self, Option.some_inj] at h
      exact hdraining (h ▸ hp)
    · rw [stops_stopAt_of_ne s hi] at h
      exact hs.draining i p h hp

theorem Reached.stopReturns (hs : s.Reached) (caller : ι)
    (hcompleted : s.listened = true → s.main.inRun = false → 4 ≤ s.state.rank) :
    (s.stopReturns caller).Reached := by
  refine ⟨hs.listened, hs.drains, hs.drained, fun h ↦ ?_, fun i h ↦ ?_, fun i p h hp ↦ ?_⟩
  · rcases (Bool.or_eq_true _ _).mp h with h | h
    · exact hs.stopCompleted h
    · rw [Bool.and_eq_true, Bool.not_eq_true'] at h
      exact hcompleted h.1 h.2
  · by_cases hi : i = caller
    · rw [hi, stops_stopReturns_self] at h
      exact h.elim nofun nofun
    · rw [stops_stopReturns_of_ne s hi] at h
      exact hs.closing i h
  · by_cases hi : i = caller
    · rw [hi, stops_stopReturns_self] at h
      exact nomatch h
    · rw [stops_stopReturns_of_ne s hi] at h
      exact hs.draining i p h hp

theorem rank_le_stopStep (s : AsioExecutor ι) (caller : ι) (point : StopPoint) :
    s.state.rank ≤ (s.stopStep caller point).state.rank := by
  cases point with
  | casRunning =>
    rw [stopStep]
    split
    next hstate =>
      rw [hstate]
      exact (show 2 ≤ 3 by decide)
    · exact Nat.le_refl _
  | casConfigured =>
    rw [stopStep]
    split
    next hstate =>
      rw [hstate]
      exact (show 1 ≤ 4 by decide)
    · exact Nat.le_refl _
  | _ => exact Nat.le_refl _

theorem reached_stopStep (hs : s.Inv) {caller : ι} {point : StopPoint}
    (hcaller : s.stops caller = some point) : (s.stopStep caller point).Reached := by
  have hdraining := hs.reached.draining caller point hcaller
  cases point with
  | casRunning =>
    rw [stopStep]
    split
    next hstate =>
      -- this is the only drain, and nobody has got as far as closing yet
      have hdrains := hs.drains_eq_zero hstate
      refine Reached.stopAt ?_ caller (fun h ↦ by simp at h) (fun _ ↦ Nat.le_refl 3)
      refine ⟨fun _ ↦ (show 1 ≤ 3 by decide), ?_, fun _ ↦ Nat.le_refl 3, fun h ↦ ?_, fun i h ↦ ?_,
        fun _ _ _ _ ↦ Nat.le_refl 3⟩
      · exact Nat.le_of_eq (congrArg Nat.succ hdrains)
      · have hrank := hs.reached.stopCompleted h
        rw [hstate] at hrank
        exact absurd hrank (by decide)
      · have hrank := hs.reached.closing i h
        rw [hstate] at hrank
        exact absurd hrank (by decide)
    · exact hs.reached.stopAt caller (fun h ↦ by simp at h) (fun h ↦ nomatch h)
  | casConfigured =>
    rw [stopStep]
    split
    next hstate =>
      refine Reached.stopAt ?_ caller (fun _ ↦ Nat.le_refl 4) (fun h ↦ nomatch h)
      exact hs.reached.forward (by rw [hstate]; exact (show 1 ≤ 4 by decide)) Or.inl rfl rfl rfl
    next hstate =>
      -- both exchanges have failed: after a `listen`, outside `run`, only `Stopped` is left
      refine hs.reached.stopReturns caller fun hlistened hmain ↦ ?_
      have hrank := hs.reached.listened hlistened
      obtain ⟨hrunning, hdrain⟩ := hs.outside hmain
      cases h : s.state <;> simp_all [State.rank]
  | closeAcceptors =>
    have hclosing := hs.reached.closing caller (Or.inl hcaller)
    refine Reached.stopAt ?_ caller (fun _ ↦ hclosing) (fun h ↦ absurd h (by decide))
    exact hs.reached.forward (Nat.le_refl _) Or.inl rfl rfl rfl
  | stopContext =>
    have hclosing := hs.reached.closing caller (Or.inr hcaller)
    refine Reached.stopReturns ?_ caller fun _ _ ↦ hclosing
    exact hs.reached.forward (Nat.le_refl _) Or.inl rfl rfl rfl
  | postClose | releaseGuard | resetSignal =>
    refine Reached.stopAt ?_ caller (fun h ↦ absurd h (by decide)) (fun _ ↦ hdraining rfl)
    exact hs.reached.forward (Nat.le_refl _) Or.inl rfl rfl rfl
  | startDrainThread =>
    refine Reached.stopReturns ?_ caller fun _ hmain ↦ ?_
    · exact hs.reached.forward (Nat.le_refl _) Or.inl rfl rfl rfl
    · exact (hs.outside hmain).stopped (Nat.le_trans (by decide) (hdraining rfl))

theorem of_stopStep (s : AsioExecutor ι) (caller : ι) (point : StopPoint) :
    (s.stopStep caller point).main = s.main ∧ (s.stopStep caller point).call = s.call ∧
      (s.stopStep caller point).log = s.log ∧
      (s.stopCompleted = true → (s.stopStep caller point).stopCompleted = true) ∧
      (s.Outside → (s.stopStep caller point).Outside) := by
  have hreturns : ∀ t : AsioExecutor ι, t.stopCompleted = true →
      (t.stopReturns caller).stopCompleted = true := fun t ht ↦ by simp [stopReturns, ht]
  cases point with
  | casRunning =>
    rw [stopStep]
    split
    next hstate => exact ⟨rfl, rfl, rfl, id, fun h ↦ absurd hstate h.1⟩
    · exact ⟨rfl, rfl, rfl, id, id⟩
  | casConfigured =>
    rw [stopStep]
    split
    · exact ⟨rfl, rfl, rfl, id, fun _ ↦ ⟨nofun, nofun⟩⟩
    · exact ⟨rfl, rfl, rfl, hreturns s, id⟩
  | closeAcceptors | postClose | releaseGuard | resetSignal => exact ⟨rfl, rfl, rfl, id, id⟩
  | stopContext | startDrainThread => exact ⟨rfl, rfl, rfl, hreturns _, id⟩

theorem inv_stopStep (hs : s.Inv) {caller : ι} {point : StopPoint}
    (hcaller : s.stops caller = some point) : (s.stopStep caller point).Inv := by
  obtain ⟨hmain, hcall, hlog, hcompleted, houtside⟩ := of_stopStep s caller point
  refine ⟨reached_stopStep hs hcaller, ?_, fun h ↦ ?_, ?_⟩
  · rw [hmain]
    exact At.of_call hcall houtside hs.main
  · exact hcompleted (hs.stoppedBefore (hcall ▸ h))
  · rw [hlog]
    exact hs.log

/-! ## Every step -/

theorem inv_step {e : Event ι} (hs : s.Inv) (h : s.step e = some s') :
    s'.Inv ∧ s.state.rank ≤ s'.state.rank := by
  -- most steps touch nothing that the invariant is about
  have hsame : ∀ t : AsioExecutor ι, t.state = s.state → t.log = s.log → t.drains = s.drains →
      t.stopCompleted = s.stopCompleted → t.stops = s.stops → t.Reached := by
    intro t hstate hlog hdrains hcompleted hstops
    refine hs.reached.forward (Nat.le_of_eq (congrArg State.rank hstate.symm)) (fun h ↦ Or.inl ?_)
      hdrains hcompleted hstops
    rwa [listened, hlog] at h
  cases moves_of_step h with
  | callListen hmain =>
    have hat := hs.at_of hmain
    exact ⟨⟨hsame _ rfl rfl rfl rfl rfl, ⟨hat, rfl, rfl⟩, id, hs.log⟩, Nat.le_refl _⟩
  | callRun hmain =>
    have hat := hs.at_of hmain
    exact ⟨⟨hsame _ rfl rfl rfl rfl rfl, ⟨hat, rfl, rfl⟩, id, hs.log⟩, Nat.le_refl _⟩
  | main hmoves => exact ⟨hmoves.inv hs, hmoves.rank_le hs⟩
  | bindRefused error hmain =>
    have hat := hs.at_of hmain
    refine ⟨⟨?_, hat.1, hs.stoppedBefore, fun c hc ↦ ?_⟩, Nat.le_refl _⟩
    · exact hs.reached.forward (Nat.le_refl _) (fun h ↦ Or.inl (listened_of_rejected h)) rfl rfl rfl
    · rcases List.mem_append.mp hc with hc | hc
      · exact hs.log c hc
      · rw [List.mem_singleton.mp hc]
        exact ⟨fun _ ↦ hat.2.1, fun h ↦ absurd (h.symm.trans hat.2.2) (by decide)⟩
  | callStop =>
    refine ⟨⟨hs.reached.stopAt _ (fun h ↦ absurd h (by decide)) (fun h ↦ absurd h (by decide)), ?_,
      hs.stoppedBefore, hs.log⟩, Nat.le_refl _⟩
    exact At.of_call rfl id hs.main
  | stop hcaller => exact ⟨inv_stopStep hs hcaller, rank_le_stopStep s _ _⟩
  | worker _ hmoves =>
    cases hmoves <;> exact ⟨⟨hsame _ rfl rfl rfl rfl rfl, At.of_call rfl id hs.main,
      hs.stoppedBefore, hs.log⟩, Nat.le_refl _⟩
  | drain hmoves =>
    cases hmoves
    exact ⟨⟨hsame _ rfl rfl rfl rfl rfl, At.of_call rfl id hs.main, hs.stoppedBefore, hs.log⟩,
      Nat.le_refl _⟩

theorem inv_of_run {es : List (Event ι)} (hs : s.Inv) (hrun : s.run es = some s') : s'.Inv :=
  Machine.run_invariant (fun _ _ _ hs hstep ↦ (inv_step hs hstep).1) hs hrun

theorem rank_le_of_run {es : List (Event ι)} (hs : s.Inv) (hrun : s.run es = some s') :
    s.state.rank ≤ s'.state.rank := by
  refine (Machine.run_invariant (I := fun t ↦ t.Inv ∧ s.state.rank ≤ t.state.rank)
    (fun t e t' ht hstep ↦ ?_) ⟨hs, Nat.le_refl _⟩ hrun).2
  obtain ⟨ht', hrank⟩ := inv_step ht.1 hstep
  exact ⟨ht', Nat.le_trans ht.2 hrank⟩

/-- A `run` that began after a `stop` returns within two steps of its own. -/
theorem Inv.returns_soon (hs : s.Inv) (hmain : s.main.inRun = true)
    (hstopped : s.call.stoppedBefore = true) :
    (s.main = .runLoad ∧ ∃ s', s.step .main = some s' ∧ s'.main = .runStop) ∨
      (s.main = .runStop ∧ ∃ s', s.step .main = some s' ∧ s'.main = .idle) := by
  cases h : s.main with
  | idle | listenLoad | listenBind | listenConfigure =>
    rw [h] at hmain
    exact nomatch hmain
  | runLoad =>
    refine Or.inl ⟨rfl, { s with main := .runStop }, ?_, rfl⟩
    rw [step, mainStep, h]
    exact if_pos (Or.inr (hs.stopped hstopped))
  | runStop =>
    refine Or.inr ⟨rfl, (s.stores .stopped).returns none, ?_, rfl⟩
    rw [step, mainStep, h]
  | runGuard | runStart =>
    have hat := hs.at_of h
    exact absurd (hstopped.symm.trans hat.2.2.2.1) (by decide)
  | runRelease =>
    have hat := hs.at_of h
    exact absurd (hstopped.symm.trans hat.2.2.2) (by decide)
  | _ =>
    have hat := hs.at_of h
    exact absurd (hstopped.symm.trans hat) (by decide)

/-- **Lifecycle.** In every run of an executor, with any number of callers of `stop`: the state
never moves backwards; the drain sequence is started at most once; a `listen` or `run` that is
rejected has stored no state; and a `run` that begins after a `stop` has completed, which itself
came after a successful `listen`, returns success without having started a worker thread. -/
theorem lifecycle {threadCount hardwareConcurrency : ℕ} {es : List (Event ι)}
    (hrun : (makeExecutor threadCount hardwareConcurrency).run es = some s) :
    (∀ es' s', s.run es' = some s' → s.state.rank ≤ s'.state.rank) ∧ s.drains ≤ 1 ∧
      (∀ c ∈ s.log, c.error ≠ none → c.writes = []) ∧
      (∀ c ∈ s.log, c.operation = .run → c.stoppedBefore = true →
        c.error = none ∧ c.started = 0) ∧
      (s.main.inRun = true → s.call.stoppedBefore = true →
        (s.main = .runLoad ∧ ∃ s', s.step .main = some s' ∧ s'.main = .runStop) ∨
          (s.main = .runStop ∧ ∃ s', s.step .main = some s' ∧ s'.main = .idle)) := by
  have hs : s.Inv := inv_of_run (inv_makeExecutor threadCount hardwareConcurrency) hrun
  exact ⟨fun es' s' hrun' ↦ rank_le_of_run hs hrun', hs.reached.drains,
    fun c hc ↦ (hs.log c hc).rejected, fun c hc ↦ (hs.log c hc).stoppedBefore, hs.returns_soon⟩

/-- `stop` comes between `listen` and `run`; a second call of it runs at the same time. -/
theorem lifecycle_stop_before_run : ∃ s : AsioExecutor Bool, (makeExecutor 2 8).run
      [.callListen, .main, .callStop true, .main, .main, .stop true, .callStop false, .stop true,
        .stop true, .stop false, .stop false, .stop true, .callRun, .main, .main, .callListen,
        .main] = some s ∧ s.state = .stopped ∧
    (∀ es' s', s.run es' = some s' → 4 ≤ s'.state.rank) ∧
    ∀ c ∈ s.log, c.operation = .run → c.error = none ∧ c.started = 0 := by
  obtain ⟨s, hrun, hstate, hlog⟩ : ∃ s : AsioExecutor Bool, (makeExecutor 2 8).run
      [.callListen, .main, .callStop true, .main, .main, .stop true, .callStop false, .stop true,
        .stop true, .stop false, .stop false, .stop true, .callRun, .main, .main, .callListen,
        .main] = some s ∧ s.state = .stopped ∧
      ∀ c ∈ s.log, c.operation = .run → c.stoppedBefore = true :=
    ⟨_, rfl, rfl, by decide⟩
  obtain ⟨hforward, -, -, hruns, -⟩ := lifecycle hrun
  refine ⟨s, hrun, hstate, fun es' s' hrun' ↦ ?_, fun c hc hop ↦ hruns c hc hop (hlog c hc hop)⟩
  have hrank := hforward es' s' hrun'
  rwa [hstate] at hrank

end AsioExecutor

end Aevox
