import Aevox.Net.Quiescence

/-!
# An executor that nobody stops

Until `run` is called the executor has no threads and no connections, and what `stop` does before
`listen` has come through has no effect (`Fresh`). Once it runs, only a `stop` can end it: as long
as none has changed the state, the workers are kept in the event loop, and `run` does not return
(`Unstopped.inRun`).
-/

namespace Aevox

namespace AsioExecutor

variable {ι : Type*} {s s' : AsioExecutor ι}

/-! ## Before `run` -/

/-- `run` has not been called. -/
structure Fresh (s : AsioExecutor ι) : Prop where
  main : s.main.inRun = false
  workers : s.workers = 0
  exited : s.exited = 0
  accepting : s.accepting = 0
  connections : s.connections = 0
  drains : s.drains = 0

/-- Every worker has been joined, unless `run` is starting or joining them. -/
def Joined (s : AsioExecutor ι) : Prop :=
  (∀ left, s.main ≠ .runSpawn left) → s.main ≠ .runAccept → s.main ≠ .runJoin →
    s.workers = 0 ∧ s.exited = 0

/-- No call begins. -/
def Event.isOwn : Event ι → Bool
  | callListen | callRun | callStop _ => false
  | _ => true

variable [DecidableEq ι]

theorem stopStep_keeps (s : AsioExecutor ι) (caller : ι) (point : StopPoint) :
    (s.stopStep caller point).main = s.main ∧ (s.stopStep caller point).workers = s.workers ∧
      (s.stopStep caller point).exited = s.exited ∧
      (s.stopStep caller point).accepting = s.accepting ∧
      (s.stopStep caller point).connections = s.connections ∧
      (s.stopStep caller point).acceptLoops = s.acceptLoops ∧
      (s.stopStep caller point).log = s.log ∧
      (s.state ≠ .running → (s.stopStep caller point).drains = s.drains) := by
  cases point with
  | casRunning =>
    rw [stopStep]
    split
    · exact ⟨rfl, rfl, rfl, rfl, rfl, rfl, rfl, fun h ↦ absurd ‹_› h⟩
    · exact ⟨rfl, rfl, rfl, rfl, rfl, rfl, rfl, fun _ ↦ rfl⟩
  | casConfigured =>
    rw [stopStep]
    split
    · exact ⟨rfl, rfl, rfl, rfl, rfl, rfl, rfl, fun _ ↦ rfl⟩
    · exact ⟨rfl, rfl, rfl, rfl, rfl, rfl, rfl, fun _ ↦ rfl⟩
  | _ => exact ⟨rfl, rfl, rfl, rfl, rfl, rfl, rfl, fun _ ↦ rfl⟩

theorem fresh_step {e : Event ι} (hinv : s.Inv) (htiming : s.Timing) (hs : s.Fresh)
    (he : e ≠ .callRun) (h : s.step e = some s') : s'.Fresh := by
  obtain ⟨hmain, hworkers, hexited, haccepting, hconnections, hdrains⟩ := hs
  have hnot {p : MainPoint} (hp : s.main = p) (hrun : p.inRun = true) : False := by
    rw [hp, hrun] at hmain
    exact absurd hmain.symm Bool.false_ne_true
  cases moves_of_step h with
  | callListen => exact ⟨rfl, hworkers, hexited, haccepting, hconnections, hdrains⟩
  | callRun => exact absurd rfl he
  | main hmoves =>
    cases hmoves with
    | refusesListen => exact ⟨rfl, hworkers, hexited, haccepting, hconnections, hdrains⟩
    | loadsListen => exact ⟨rfl, hworkers, hexited, haccepting, hconnections, hdrains⟩
    | binds => exact ⟨rfl, hworkers, hexited, haccepting, hconnections, hdrains⟩
    | configures => exact ⟨rfl, hworkers, hexited, haccepting, hconnections, hdrains⟩
    | keepsState => exact ⟨rfl, hworkers, hexited, haccepting, hconnections, hdrains⟩
    | starts hat => exact (hnot hat rfl).elim
    | _ => exact (hnot ‹_› rfl).elim
  | bindRefused => exact ⟨rfl, hworkers, hexited, haccepting, hconnections, hdrains⟩
  | callStop => exact ⟨hmain, hworkers, hexited, haccepting, hconnections, hdrains⟩
  | @stop caller point =>
    obtain ⟨h₁, h₂, h₃, h₄, h₅, -, -, h₆⟩ := stopStep_keeps s caller point
    exact ⟨h₁ ▸ hmain, h₂.trans hworkers, h₃.trans hexited, h₄.trans haccepting,
      h₅.trans hconnections, (h₆ (hinv.outside hmain).1).trans hdrains⟩
  | worker hne => exact absurd hworkers hne
  | drain hmoves =>
    cases hmoves with
    | moves _ _ hdrain => exact absurd (htiming.undrained hdrains).1 hdrain

theorem joined_step {e : Event ι} (hs : s.Joined) (h : s.step e = some s') : s'.Joined := by
  cases moves_of_step h with
  | callListen hmain | callRun hmain =>
    intro _ _ _
    exact hs (by simp [hmain]) (by simp [hmain]) (by simp [hmain])
  | main hmoves =>
    intro hspawn haccept hjoin
    cases hmoves with
    | joined _ hexited hworkers => exact ⟨hworkers, hexited⟩
    | starts => exact absurd rfl (hspawn _)
    | spawned => exact absurd rfl haccept
    | spawns => exact absurd rfl (hspawn _)
    | accepts => exact absurd rfl hjoin
    | joins => exact absurd rfl hjoin
    | _ => exact hs (by simp [*]) (by simp [*]) (by simp [*])
  | bindRefused error hmain =>
    intro _ _ _
    exact hs (by simp [hmain]) (by simp [hmain]) (by simp [hmain])
  | callStop => exact hs
  | @stop caller point =>
    obtain ⟨h₁, h₂, h₃, -⟩ := stopStep_keeps s caller point
    rw [Joined, h₁, h₂, h₃]
    exact hs
  | worker hne hmoves =>
    intro hspawn haccept hjoin
    cases hmoves with
    | works => exact absurd (hs hspawn haccept hjoin).1 hne
    | exits => exact absurd (hs hspawn haccept hjoin).1 hne
  | drain hmoves =>
    cases hmoves with
    | moves => exact hs

/-! ## Without a `stop` -/

/-- No `stop` has changed the state, and none has been called in vain. -/
structure Unstopped (s : AsioExecutor ι) : Prop where
  threads : s.Threads
  rank : s.state.rank ≤ 2
  current : ∀ c, s.main = .runGuard c ∨ s.main = .runStart c → s.state = c
  release : ∀ c, s.main ≠ .runRelease c

omit [DecidableEq ι] in
theorem Unstopped.not_at (hs : s.Unstopped) : s.main ≠ .runTest ∧ s.main ≠ .runSignal ∧
    s.main ≠ .runJoinDrain ∧ s.main ≠ .runStop := by
  have hnot {state : State} (hstate : s.state = state) (hrank : 3 ≤ state.rank) : False := by
    have := hs.rank
    rw [hstate] at this
    omega
  refine ⟨fun h ↦ ?_, fun h ↦ ?_, fun h ↦ ?_, fun h ↦ ?_⟩
  · exact hnot (hs.threads.at_of h).1 (by decide)
  · exact hnot (hs.threads.at_of h).1 (by decide)
  · exact hnot (hs.threads.at_of h).1 (by decide)
  · exact hnot rfl (hs.threads.at_of h).1

omit [DecidableEq ι] in
theorem MainMoves.rank_le_two (hs : s.Unstopped) (h : MainMoves s s') : s'.state.rank ≤ 2 := by
  obtain ⟨-, -, -, hstop⟩ := hs.not_at
  cases h with
  | configures =>
    change State.configured.rank ≤ 2
    decide
  | starts =>
    change State.running.rank ≤ 2
    decide
  | stops hmain => exact absurd hmain hstop
  | _ => exact hs.rank

theorem unstopped_step {e : Event ι} (hs : s.Unstopped) (h : s.step e = some s')
    (hstop : ∀ caller, e = .stop caller → s'.state = s.state) : s'.Unstopped := by
  obtain ⟨htest, -, -, -⟩ := hs.not_at
  have hthreads : s'.Threads := by
    refine threads_step hs.threads ?_ h
    cases e with
    | main => exact fun hmain ↦ absurd hmain htest
    | _ => trivial
  have hrelease {p : MainPoint} (hmain : s'.main = p) (hne : ∀ c, p ≠ .runRelease c) :
      ∀ c, s'.main ≠ .runRelease c := fun c hc ↦ hne c (hmain.symm.trans hc)
  cases moves_of_step h with
  | callListen => exact ⟨hthreads, hs.rank, by simp [begins], by simp [begins]⟩
  | callRun => exact ⟨hthreads, hs.rank, by simp [begins], by simp [begins]⟩
  | main hmoves =>
    have hrank := hmoves.rank_le_two hs
    cases hmoves with
    | loadsRun =>
      refine ⟨hthreads, hrank, ?_, by simp⟩
      rintro c (hc | hc)
      · exact MainPoint.runGuard.inj hc
      · exact nomatch hc
    | @guards current hmain =>
      refine ⟨hthreads, hrank, ?_, by simp⟩
      rintro c (hc | hc)
      · exact nomatch hc
      · exact (hs.current current (Or.inl hmain)).trans (MainPoint.runStart.inj hc)
    | @misses current hmain hstate =>
      exact absurd (hs.current current (Or.inr hmain)) hstate
    | releases hmain => exact absurd hmain (hs.release _)
    | refusesLate hmain => exact absurd hmain (hs.release _)
    | _ => exact ⟨hthreads, hrank, by simp [returns], by simp [returns]⟩
  | bindRefused => exact ⟨hthreads, hs.rank, by simp [returns], by simp [returns]⟩
  | callStop => exact ⟨hthreads, hs.rank, hs.current, hs.release⟩
  | @stop caller point =>
    have hstate := hstop caller rfl
    obtain ⟨hmain, -⟩ := stopStep_keeps s caller point
    refine ⟨hthreads, hstate ▸ hs.rank, fun c hc ↦ ?_, fun c hc ↦ ?_⟩
    · rw [hmain] at hc
      exact hstate.trans (hs.current c hc)
    · rw [hmain] at hc
      exact hs.release c hc
  | worker _ hmoves =>
    cases hmoves with
    | works => exact ⟨hthreads, hs.rank, hs.current, hs.release⟩
    | exits => exact ⟨hthreads, hs.rank, hs.current, hs.release⟩
  | drain hmoves =>
    cases hmoves with
    | moves => exact ⟨hthreads, hs.rank, hs.current, hs.release⟩

/-- From a step of `run` the thread that listens and runs gets to the next one, or returns. -/
theorem inRun_or_idle {e : Event ι} (hmain : s.main.inRun = true) (h : s.step e = some s') :
    s'.main.inRun = true ∨ s'.main = .idle := by
  have hnot {p : MainPoint} (hp : s.main = p) (hrun : p.inRun = false) : False := by
    rw [hp, hrun] at hmain
    exact Bool.false_ne_true hmain
  cases moves_of_step h with
  | callListen hidle => exact (hnot hidle rfl).elim
  | callRun hidle => exact (hnot hidle rfl).elim
  | main hmoves =>
    cases hmoves with
    | refusesListen hat => exact (hnot hat rfl).elim
    | loadsListen hat => exact (hnot hat rfl).elim
    | binds hat => exact (hnot hat rfl).elim
    | configures hat => exact (hnot hat rfl).elim
    | keepsState hat => exact (hnot hat rfl).elim
    | refusesRun => exact Or.inr rfl
    | refusesLate => exact Or.inr rfl
    | stops => exact Or.inr rfl
    | _ => exact Or.inl rfl
  | bindRefused error hat => exact (hnot hat rfl).elim
  | callStop => exact Or.inl hmain
  | @stop caller point =>
    obtain ⟨hkeeps, -⟩ := stopStep_keeps s caller point
    exact Or.inl (hkeeps ▸ hmain)
  | worker _ hmoves =>
    cases hmoves with
    | works => exact Or.inl hmain
    | exits => exact Or.inl hmain
  | drain hmoves =>
    cases hmoves with
    | moves => exact Or.inl hmain

/-- **`run` does not return** as long as no `stop` changes the state. -/
theorem Unstopped.inRun {e : Event ι} (hs : s.Unstopped) (hmain : s.main.inRun = true)
    (h : s.step e = some s') : s'.main.inRun = true := by
  obtain ⟨-, -, -, hstop⟩ := hs.not_at
  have hnot {p : MainPoint} (hp : s.main = p) (hrun : p.inRun = false) : False := by
    rw [hp, hrun] at hmain
    exact Bool.false_ne_true hmain
  rcases inRun_or_idle hmain h with hrun | hidle
  · exact hrun
  · cases moves_of_step h with
    | callListen hat => exact (hnot hat rfl).elim
    | callRun hat => rfl
    | main hmoves =>
      cases hmoves with
      | refusesListen hat => exact (hnot hat rfl).elim
      | configures hat => exact (hnot hat rfl).elim
      | keepsState hat => exact (hnot hat rfl).elim
      | refusesRun hat hstate =>
        have hload := hs.threads.inv.at_of hat
        exact absurd hstate hload.1.1
      | refusesLate hat => exact absurd hat (hs.release _)
      | stops hat => exact absurd hat hstop
      | _ => exact absurd hidle (by simp)
    | bindRefused error hat => exact (hnot hat rfl).elim
    | callStop => exact hmain
    | @stop caller point =>
      obtain ⟨hkeeps, -⟩ := stopStep_keeps s caller point
      rw [hkeeps]
      exact hmain
    | worker _ hmoves =>
      cases hmoves with
      | works => exact hmain
      | exits => exact hmain
    | drain hmoves =>
      cases hmoves with
      | moves => exact hmain

theorem stopStep_of_idle (hstate : s.state = .idle) (caller : ι) (point : StopPoint) :
    (s.stopStep caller point).state = .idle := by
  have hne {state : State} (h : .idle ≠ state) : s.state ≠ state :=
    fun h' ↦ h (hstate.symm.trans h')
  cases point with
  | casRunning =>
    rw [stopStep, if_neg (hne State.noConfusion)]
    exact hstate
  | casConfigured =>
    rw [stopStep, if_neg (hne State.noConfusion)]
    exact hstate
  | _ => exact hstate

theorem stops_stopStep_of_ne (s : AsioExecutor ι) {caller i : ι} (hi : caller ≠ i)
    (point : StopPoint) : (s.stopStep i point).stops caller = s.stops caller := by
  cases point with
  | casRunning =>
    rw [stopStep]
    split
    · exact stops_stopAt_of_ne _ hi _
    · exact stops_stopAt_of_ne _ hi _
  | casConfigured =>
    rw [stopStep]
    split
    · exact stops_stopAt_of_ne _ hi _
    · exact stops_stopReturns_of_ne _ hi
  | closeAcceptors => exact stops_stopAt_of_ne _ hi _
  | stopContext => exact stops_stopReturns_of_ne _ hi
  | postClose => exact stops_stopAt_of_ne _ hi _
  | releaseGuard => exact stops_stopAt_of_ne _ hi _
  | resetSignal => exact stops_stopAt_of_ne _ hi _
  | startDrainThread => exact stops_stopReturns_of_ne _ hi

theorem stops_of_step {e : Event ι} (h : s.step e = some s') {caller : ι}
    (hcaller : s'.stops caller ≠ none) : s.stops caller ≠ none ∨ e = .callStop caller := by
  cases moves_of_step h with
  | callListen => exact Or.inl hcaller
  | callRun => exact Or.inl hcaller
  | main hmoves => cases hmoves <;> exact Or.inl hcaller
  | bindRefused => exact Or.inl hcaller
  | @callStop i =>
    by_cases hi : caller = i
    · exact Or.inr (hi ▸ rfl)
    · rw [stops_stopAt_of_ne s hi] at hcaller
      exact Or.inl hcaller
  | @stop i point hpoint =>
    by_cases hi : caller = i
    · subst hi
      exact Or.inl (by rw [hpoint]; exact Option.some_ne_none point)
    · exact Or.inl (stops_stopStep_of_ne s hi point ▸ hcaller)
  | worker _ hmoves => cases hmoves <;> exact Or.inl hcaller
  | drain hmoves =>
    cases hmoves with
    | moves => exact Or.inl hcaller

/-- The call of `stop` has not found out what state the executor is in. -/
def StopPoint.undecided : StopPoint → Bool
  | .casRunning | .casConfigured => true
  | _ => false

/-- Of its two attempts to change the state, a `stop` makes the second one after the first. -/
theorem undecided_stopStep (s : AsioExecutor ι) {caller : ι} {point next : StopPoint}
    (h : (s.stopStep caller point).stops caller = some next) (hnext : next.undecided = true) :
    point = .casRunning ∧ next = .casConfigured := by
  have hat {t : AsioExecutor ι} {p : StopPoint} (hp : p.undecided = false)
      (h : (t.stopAt caller p).stops caller = some next) : False := by
    rw [stops_stopAt_self] at h
    rw [← Option.some.inj h, hp] at hnext
    exact Bool.false_ne_true hnext
  have hreturns {t : AsioExecutor ι} (h : (t.stopReturns caller).stops caller = some next) :
      False := by
    rw [stops_stopReturns_self] at h
    exact nomatch h
  cases point with
  | casRunning =>
    rw [stopStep] at h
    split at h
    · exact (hat rfl h).elim
    · rw [stops_stopAt_self] at h
      exact ⟨rfl, (Option.some.inj h).symm⟩
  | casConfigured =>
    rw [stopStep] at h
    split at h
    · exact (hat rfl h).elim
    · exact (hreturns h).elim
  | closeAcceptors => exact (hat rfl h).elim
  | stopContext => exact (hreturns h).elim
  | postClose => exact (hat rfl h).elim
  | releaseGuard => exact (hat rfl h).elim
  | resetSignal => exact (hat rfl h).elim
  | startDrainThread => exact (hreturns h).elim

theorem undecided_of_step {e : Event ι} (h : s.step e = some s') (he : e.isOwn = true) {caller : ι}
    {point : StopPoint} (hcaller : s'.stops caller = some point)
    (hpoint : point.undecided = true) :
    s.stops caller = some point ∨ s.stops caller = some .casRunning ∧ point = .casConfigured := by
  cases moves_of_step h with
  | callListen => exact absurd he Bool.false_ne_true
  | callRun => exact absurd he Bool.false_ne_true
  | main hmoves => cases hmoves <;> exact Or.inl hcaller
  | bindRefused => exact Or.inl hcaller
  | callStop => exact absurd he Bool.false_ne_true
  | @stop i before hbefore =>
    by_cases hi : caller = i
    · subst hi
      obtain ⟨rfl, hnext⟩ := undecided_stopStep s hcaller hpoint
      exact Or.inr ⟨hbefore, hnext⟩
    · exact Or.inl (stops_stopStep_of_ne s hi before ▸ hcaller)
  | worker _ hmoves => cases hmoves <;> exact Or.inl hcaller
  | drain hmoves =>
    cases hmoves with
    | moves => exact Or.inl hcaller

/-- Only a `stop` that has not found out changes the state. -/
theorem undecided_of_stop {caller : ι} (h : s.step (.stop caller) = some s')
    (hne : s'.state ≠ s.state) : s.stops caller = some .casRunning ∨
      s.stops caller = some .casConfigured ∧ s.state = .configured := by
  obtain ⟨point, hpoint, rfl⟩ := Option.map_eq_some_iff.mp h
  cases point with
  | casRunning => exact Or.inl hpoint
  | casConfigured =>
    refine Or.inr ⟨hpoint, ?_⟩
    by_contra hstate
    rw [stopStep, if_neg hstate] at hne
    exact hne rfl
  | _ => exact absurd rfl hne

theorem three_le_rank_of_stop {caller : ι} (h : s.step (.stop caller) = some s')
    (hne : s'.state ≠ s.state) : 3 ≤ s'.state.rank := by
  obtain ⟨point, -, rfl⟩ := Option.map_eq_some_iff.mp h
  cases point with
  | casRunning =>
    rw [stopStep] at hne ⊢
    split at hne
    · rw [if_pos ‹_›]
      exact Nat.le_refl 3
    · exact absurd rfl hne
  | casConfigured =>
    rw [stopStep] at hne ⊢
    split at hne
    · rw [if_pos ‹_›]
      exact Nat.le_succ 3
    · exact absurd rfl hne
  | _ => exact absurd rfl hne

omit [DecidableEq ι] in
theorem unstopped_makeExecutor (threadCount hardwareConcurrency : ℕ) :
    (makeExecutor threadCount hardwareConcurrency : AsioExecutor ι).Unstopped where
  threads := threads_makeExecutor threadCount hardwareConcurrency
  rank := Nat.zero_le 2
  current c h := by rcases h with h | h <;> exact nomatch h
  release c := MainPoint.noConfusion

end AsioExecutor

end Aevox
