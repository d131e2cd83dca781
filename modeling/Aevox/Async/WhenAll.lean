import Aevox.Library.Machine
import Aevox.Library.Tally

/-!
# `when_all`

The awaiting coroutine posts one sub-task for each of its `n` tasks to the I/O pool and suspends.
A sub-task awaits its task, stores the result in its own slot or captures the exception, and counts
down; the one that brings the counter to zero posts the resumption of the coroutine. Any thread of
the pool may take any of them a step further at any time, also before the last one is posted.

What the tasks do is left open: they end at any time, with any result or exception.
-/

namespace Aevox

/-- `WhenAllState<Ts...>`, without the continuation, which is set before anything is posted. -/
structure WhenAllState {n : ℕ} (Ts : Fin n → Type*) (E : Type*) where
  results : ∀ i, Option (Ts i)
  firstException : Option E
  /-- The sub-tasks are fewer than `2 ^ 64`, and the counter never goes below zero. -/
  remaining : ℕ

namespace WhenAllState

variable {n : ℕ} {Ts : Fin n → Type*} {E : Type*} (state : WhenAllState Ts E)

def storeResult (i : Fin n) (value : Ts i) : WhenAllState Ts E :=
  { state with results := Function.update state.results i (some value) }

def captureException (e : E) : WhenAllState Ts E :=
  { state with
    firstException := if state.firstException.isNone then some e else state.firstException }

/-- `fetch_sub`, and whether the counter has been one. -/
def markOneComplete : Bool × WhenAllState Ts E :=
  (state.remaining == 1, { state with remaining := state.remaining - 1 })

/-- An empty optional must not be dereferenced: then there is no behaviour. -/
def takeResults : Option (∀ i, Ts i) :=
  if h : ∀ i, (state.results i).isSome then some fun i ↦ (state.results i).get (h i) else none

/-- `WhenAllAwaitable::await_resume` -/
def awaitResume : Option (Except E (∀ i, Ts i)) :=
  match state.firstException with
  | some e => some (.error e)
  | none => state.takeResults.map .ok

end WhenAllState

namespace WhenAll

/-- The next step of a `when_all_subtask`. -/
inductive Point where
  /-- It begins, once it has been posted. -/
  | start
  /-- It awaits its task. -/
  | await
  /-- The task has ended; its result or exception is to be recorded. -/
  | record
  | countDown
  /-- It posts the continuation. -/
  | postContinuation
  | finished
  deriving DecidableEq

/-- A step of the awaiting coroutine, of a task, of a sub-task or of the pool. -/
inductive Event {n : ℕ} (Ts : Fin n → Type*) (E : Type*) where
  | post
  | start (i : Fin n)
  /-- The task ends with a result or an exception. -/
  | complete (i : Fin n) (outcome : Except E (Ts i))
  | record (i : Fin n)
  | countDown (i : Fin n)
  | postContinuation (i : Fin n)
  /-- The pool runs a continuation that was posted. -/
  | resume

end WhenAll

open WhenAll

/-- A `co_await when_all(tasks...)`, with its sub-tasks and what has been posted. -/
structure WhenAll {n : ℕ} (Ts : Fin n → Type*) (E : Type*) where
  state : WhenAllState Ts E
  /-- How many sub-tasks have been posted, in argument order. -/
  posted : ℕ
  points : Fin n → Point
  /-- What the promises of the tasks hold. -/
  tasks : ∀ i, Option (Except E (Ts i))
  /-- The continuations that have been posted and not run. -/
  continuations : ℕ
  /-- What `await_resume` has given each time the coroutine was resumed. -/
  resumed : List (Option (Except E (∀ i, Ts i)))
  /-- The sub-tasks that have captured an exception, in this order. -/
  captured : List (Fin n)

namespace WhenAll

variable {n : ℕ} {Ts : Fin n → Type*} {E : Type*}

/-- `WhenAllAwaitable::await_suspend`, up to the first post. -/
def awaitSuspend (Ts : Fin n → Type*) (E : Type*) : WhenAll Ts E where
  state := ⟨fun _ ↦ none, none, n⟩
  posted := 0
  points := fun _ ↦ .start
  tasks := fun _ ↦ none
  continuations := 0
  resumed := []
  captured := []

/-- The sub-task `i` goes on to `p`. -/
def goto (s : WhenAll Ts E) (i : Fin n) (p : Point) : WhenAll Ts E :=
  { s with points := Function.update s.points i p }

/-- The `try` block of `when_all_subtask`, after the task has ended. -/
def recordOutcome (s : WhenAll Ts E) (i : Fin n) : Except E (Ts i) → WhenAll Ts E
  | .ok value => { s with state := s.state.storeResult i value }
  | .error e => { s with state := s.state.captureException e, captured := s.captured ++ [i] }

def step (s : WhenAll Ts E) : Event Ts E → Option (WhenAll Ts E)
  | .post => if s.posted < n then some { s with posted := s.posted + 1 } else none
  | .start i => if s.points i = .start ∧ i < s.posted then some (s.goto i .await) else none
  | .complete i outcome =>
    if s.points i = .await then
      some { s.goto i .record with tasks := Function.update s.tasks i (some outcome) }
    else none
  | .record i =>
    if s.points i = .record then
      (s.tasks i).map fun outcome ↦ (s.recordOutcome i outcome).goto i .countDown
    else none
  | .countDown i =>
    if s.points i = .countDown then
      let (last, state) := s.state.markOneComplete
      some ({ s with state }.goto i (if last then .postContinuation else .finished))
    else none
  | .postContinuation i =>
    if s.points i = .postContinuation then
      some ({ s with continuations := s.continuations + 1 }.goto i .finished)
    else none
  | .resume =>
    if 0 < s.continuations then
      some { s with
        continuations := s.continuations - 1
        resumed := s.resumed ++ [s.state.awaitResume] }
    else none

/-- Any number of steps, in any order. -/
abbrev run (s : WhenAll Ts E) (es : List (Event Ts E)) : Option (WhenAll Ts E) :=
  Machine.run step s es

/-- What one step can do. -/
inductive Moves (s : WhenAll Ts E) : WhenAll Ts E → Prop where
  | post (h : s.posted < n) : Moves s { s with posted := s.posted + 1 }
  | start (i : Fin n) (h : s.points i = .start) : Moves s (s.goto i .await)
  | complete (i : Fin n) (outcome : Except E (Ts i)) (h : s.points i = .await) :
      Moves s { s.goto i .record with tasks := Function.update s.tasks i (some outcome) }
  | record (i : Fin n) (outcome : Except E (Ts i)) (h : s.points i = .record)
      (htask : s.tasks i = some outcome) :
      Moves s ((s.recordOutcome i outcome).goto i .countDown)
  | countDown (i : Fin n) (h : s.points i = .countDown) :
      Moves s ({ s with state := s.state.markOneComplete.2 }.goto i
        (if s.state.remaining = 1 then .postContinuation else .finished))
  | postContinuation (i : Fin n) (h : s.points i = .postContinuation) :
      Moves s ({ s with continuations := s.continuations + 1 }.goto i .finished)
  | resume (h : 0 < s.continuations) :
      Moves s { s with
        continuations := s.continuations - 1
        resumed := s.resumed ++ [s.state.awaitResume] }

theorem moves_of_step {s s' : WhenAll Ts E} {e : Event Ts E} (h : s.step e = some s') :
    Moves s s' := by
  cases e with
  | post =>
    obtain ⟨hposted, ⟨⟩⟩ := Option.ite_none_right_eq_some.mp h
    exact .post hposted
  | start i =>
    obtain ⟨hstart, ⟨⟩⟩ := Option.ite_none_right_eq_some.mp h
    exact .start i hstart.1
  | complete i outcome =>
    obtain ⟨hawait, ⟨⟩⟩ := Option.ite_none_right_eq_some.mp h
    exact .complete i outcome hawait
  | record i =>
    obtain ⟨hrecord, hmap⟩ := Option.ite_none_right_eq_some.mp h
    obtain ⟨outcome, htask, rfl⟩ := Option.map_eq_some_iff.mp hmap
    exact .record i outcome hrecord htask
  | countDown i =>
    obtain ⟨hcount, ⟨⟩⟩ := Option.ite_none_right_eq_some.mp h
    simpa only [WhenAllState.markOneComplete, beq_iff_eq] using Moves.countDown i hcount
  | postContinuation i =>
    obtain ⟨hpost, ⟨⟩⟩ := Option.ite_none_right_eq_some.mp h
    exact .postContinuation i hpost
  | resume =>
    obtain ⟨hcontinuations, ⟨⟩⟩ := Option.ite_none_right_eq_some.mp h
    exact .resume hcontinuations

/-! ## The counter -/

/-- Whether the counter still counts it. -/
def Point.pending : Point → ℕ
  | .start | .await | .record | .countDown => 1
  | .postContinuation | .finished => 0

/-- Whether it is about to post the continuation. -/
def Point.posting : Point → ℕ
  | .postContinuation => 1
  | _ => 0

/-- The counter and the resumption it leads to: once it is zero, there is one continuation, either
still to be posted, in the pool's queue or run. -/
structure Counts (s : WhenAll Ts E) : Prop where
  remaining : s.state.remaining = tally Point.pending s.points
  resumption : tally Point.posting s.points + s.continuations + s.resumed.length =
    if s.state.remaining = 0 then 1 else 0

theorem counts_awaitSuspend (hn : 0 < n) : (awaitSuspend Ts E).Counts := by
  have hpending : tally Point.pending (awaitSuspend Ts E).points = n := by
    simp [awaitSuspend, tally_const, Point.pending]
  have hposting : tally Point.posting (awaitSuspend Ts E).points = 0 := by
    simp [awaitSuspend, tally_const, Point.posting]
  refine ⟨hpending.symm, ?_⟩
  rw [hposting, if_neg (show (awaitSuspend Ts E).state.remaining ≠ 0 from hn.ne')]
  rfl

/-- One sub-task moves on, and the rest of the account follows it. -/
theorem Counts.of_move {s s' : WhenAll Ts E} (hs : s.Counts) {i : Fin n} {p : Point}
    (hpoints : s'.points = Function.update s.points i p)
    (hremaining : s'.state.remaining + (s.points i).pending = s.state.remaining + p.pending)
    (hresumption : p.posting + s'.continuations + s'.resumed.length +
        (if s.state.remaining = 0 then 1 else 0) =
      (s.points i).posting + s.continuations + s.resumed.length +
        if s'.state.remaining = 0 then 1 else 0) : s'.Counts := by
  have hpending := tally_update Point.pending s.points i p
  have hposting := tally_update Point.posting s.points i p
  have hleft := hs.remaining
  have hcount := hs.resumption
  rw [← hpoints] at hpending hposting
  exact ⟨by omega, by omega⟩

theorem Counts.one_le_remaining {s : WhenAll Ts E} (hs : s.Counts) {i : Fin n}
    (h : (s.points i).pending = 1) : 1 ≤ s.state.remaining := by
  rw [hs.remaining, ← h]
  exact le_tally _ _ i

theorem Moves.counts {s s' : WhenAll Ts E} (hs : s.Counts) (h : Moves s s') : s'.Counts := by
  cases h with
  | post _ => exact ⟨hs.remaining, hs.resumption⟩
  | start i h => exact hs.of_move rfl (by rw [h]; rfl) (by rw [h]; rfl)
  | complete i outcome h => exact hs.of_move rfl (by rw [h]; rfl) (by rw [h]; rfl)
  | record i outcome h _ =>
    cases outcome with
    | ok value => exact hs.of_move rfl (by rw [h]; rfl) (by rw [h]; rfl)
    | error e => exact hs.of_move rfl (by rw [h]; rfl) (by rw [h]; rfl)
  | countDown i h =>
    have hone := hs.one_le_remaining (i := i) (by rw [h]; rfl)
    have hleft : s.state.remaining - 1 + 1 = s.state.remaining := Nat.sub_add_cancel hone
    by_cases hlast : s.state.remaining = 1
    -- the one resumption is now up to this sub-task
    · rw [if_pos hlast]
      refine hs.of_move rfl (by rw [h]; exact hleft) ?_
      rw [h]
      change 1 + s.continuations + s.resumed.length + (if s.state.remaining = 0 then 1 else 0) =
        0 + s.continuations + s.resumed.length + if s.state.remaining - 1 = 0 then 1 else 0
      rw [if_neg (by omega), if_pos (by omega)]
      omega
    · rw [if_neg hlast]
      refine hs.of_move rfl (by rw [h]; exact hleft) ?_
      rw [h]
      change 0 + s.continuations + s.resumed.length + (if s.state.remaining = 0 then 1 else 0) =
        0 + s.continuations + s.resumed.length + if s.state.remaining - 1 = 0 then 1 else 0
      rw [if_neg (by omega), if_neg (by omega)]
  | postContinuation i h =>
    refine hs.of_move rfl (by rw [h]; rfl) ?_
    rw [h]
    change 0 + (s.continuations + 1) + s.resumed.length +
        (if s.state.remaining = 0 then 1 else 0) =
      1 + s.continuations + s.resumed.length + if s.state.remaining = 0 then 1 else 0
    omega
  | resume h =>
    refine ⟨hs.remaining, ?_⟩
    change tally Point.posting s.points + (s.continuations - 1) +
      (s.resumed ++ [s.state.awaitResume]).length = if s.state.remaining = 0 then 1 else 0
    rw [List.length_append, List.length_singleton, ← hs.resumption]
    omega

theorem Counts.resumed_le {s : WhenAll Ts E} (hs : s.Counts) : s.resumed.length ≤ 1 := by
  have h := hs.resumption
  split at h <;> omega

theorem Counts.remaining_of_resumed {s : WhenAll Ts E} (hs : s.Counts)
    (h : s.continuations ≠ 0 ∨ s.resumed ≠ []) : s.state.remaining = 0 := by
  have hlength : s.resumed ≠ [] → s.resumed.length ≠ 0 := mt List.length_eq_zero_iff.mp
  have hcount := hs.resumption
  by_contra hremaining
  rw [if_neg hremaining] at hcount
  rcases h with h | h
  · omega
  · have := hlength h
    omega

theorem Counts.not_pending {s : WhenAll Ts E} (hs : s.Counts) (h : s.state.remaining = 0)
    (i : Fin n) : (s.points i).pending = 0 :=
  tally_eq_zero_iff.mp (hs.remaining.symm.trans h) i

/-! ## The slots -/

/-- What the task has ended with, if it is an exception. -/
def exception (s : WhenAll Ts E) (i : Fin n) : Option E :=
  match s.tasks i with
  | some (.error e) => some e
  | _ => none

/-- The outcome of the task is where it belongs. -/
structure Recorded (s : WhenAll Ts E) (i : Fin n) : Prop where
  ended : (s.tasks i).isSome
  stored : ∀ value, s.tasks i = some (.ok value) → s.state.results i = some value
  caught : ∀ e, s.tasks i = some (.error e) → i ∈ s.captured

/-- What is known of a sub-task and its task at a point. -/
def Kept (s : WhenAll Ts E) (i : Fin n) : Point → Prop
  | .start | .await => s.tasks i = none ∧ i ∉ s.captured
  | .record => (s.tasks i).isSome ∧ i ∉ s.captured
  | .countDown | .postContinuation | .finished => s.Recorded i

/-- The slots hold what the tasks have ended with. -/
structure Records (s : WhenAll Ts E) : Prop where
  subtask : ∀ i, s.Kept i (s.points i)
  captured : ∀ i ∈ s.captured, ∃ e, s.tasks i = some (.error e)
  first : s.state.firstException = s.captured.head?.bind s.exception

theorem records_awaitSuspend : (awaitSuspend Ts E).Records :=
  ⟨fun _ ↦ ⟨rfl, List.not_mem_nil⟩, fun _ h ↦ absurd h List.not_mem_nil, rfl⟩

theorem Kept.congr {s s' : WhenAll Ts E} {i : Fin n} (htasks : s'.tasks i = s.tasks i)
    (hresults : s'.state.results i = s.state.results i)
    (hcaptured : i ∈ s'.captured ↔ i ∈ s.captured) : ∀ {p : Point}, s.Kept i p → s'.Kept i p
  | .start, h | .await, h => ⟨htasks.trans h.1, fun hi ↦ h.2 (hcaptured.mp hi)⟩
  | .record, h => ⟨htasks ▸ h.1, fun hi ↦ h.2 (hcaptured.mp hi)⟩
  | .countDown, h | .postContinuation, h | .finished, h =>
    ⟨htasks ▸ h.ended, fun value hv ↦ hresults.trans (h.stored value (htasks.symm.trans hv)),
      fun e he ↦ hcaptured.mpr (h.caught e (htasks.symm.trans he))⟩

theorem Records.kept_of_move {s s' : WhenAll Ts E} (hs : s.Records) {i : Fin n} {p : Point}
    (hpoints : s'.points = Function.update s.points i p) (hi : s'.Kept i p)
    (hothers : ∀ j, j ≠ i → s'.tasks j = s.tasks j ∧ s'.state.results j = s.state.results j ∧
      (j ∈ s'.captured ↔ j ∈ s.captured)) (j : Fin n) : s'.Kept j (s'.points j) := by
  rw [hpoints]
  by_cases hj : j = i
  · rw [hj, Function.update_self]
    exact hi
  · obtain ⟨htasks, hresults, hcaptured⟩ := hothers j hj
    rw [Function.update_of_ne hj]
    exact (hs.subtask j).congr htasks hresults hcaptured

theorem Records.of_eq {s s' : WhenAll Ts E} (hs : s.Records) (hpoints : s'.points = s.points)
    (htasks : s'.tasks = s.tasks) (hstate : s'.state = s.state)
    (hcaptured : s'.captured = s.captured) : s'.Records := by
  refine ⟨fun i ↦ ?_, ?_, ?_⟩
  · rw [hpoints]
    exact (hs.subtask i).congr (by rw [htasks]) (by rw [hstate]) (by rw [hcaptured])
  · rw [hcaptured, htasks]
    exact hs.captured
  · rw [hstate, hcaptured, hs.first]
    exact congrArg _ (funext fun i ↦ by rw [exception, exception, htasks])

/-- The exception that was captured first is the one that is kept. -/
theorem Records.first_of_error {s : WhenAll Ts E} (hs : s.Records) {i : Fin n} {e : E}
    (htask : s.tasks i = some (.error e)) :
    (s.state.captureException e).firstException = (s.captured ++ [i]).head?.bind s.exception := by
  have hfirst := hs.first
  cases hcaptured : s.captured with
  | nil =>
    rw [hcaptured] at hfirst
    have hi : s.exception i = some e := by rw [exception, htask]
    rw [WhenAllState.captureException, hfirst]
    exact hi.symm
  | cons j js =>
    obtain ⟨e', he'⟩ := hs.captured j (hcaptured ▸ List.mem_cons_self)
    have hj : s.exception j = some e' := by rw [exception, he']
    rw [hcaptured] at hfirst
    have hsome : s.state.firstException = some e' := hfirst.trans hj
    rw [WhenAllState.captureException, hsome]
    exact hj.symm

theorem Moves.records {s s' : WhenAll Ts E} (hs : s.Records) (h : Moves s s') : s'.Records := by
  cases h with
  | post _ | resume _ => exact hs.of_eq rfl rfl rfl rfl
  | start i h =>
    have hi : s.Kept i .start := h ▸ hs.subtask i
    refine ⟨hs.kept_of_move rfl (i := i) (p := .await) hi fun j _ ↦ ⟨rfl, rfl, .rfl⟩,
      hs.captured, hs.first⟩
  | countDown i h =>
    have hi : s.Kept i .countDown := h ▸ hs.subtask i
    refine ⟨hs.kept_of_move rfl (i := i) ?_ fun j _ ↦ ⟨rfl, rfl, .rfl⟩, hs.captured, hs.first⟩
    split <;> exact ⟨hi.ended, hi.stored, hi.caught⟩
  | postContinuation i h =>
    have hi : s.Kept i .postContinuation := h ▸ hs.subtask i
    exact ⟨hs.kept_of_move rfl (i := i) (p := .finished) ⟨hi.ended, hi.stored, hi.caught⟩
      fun j _ ↦ ⟨rfl, rfl, .rfl⟩, hs.captured, hs.first⟩
  | complete i outcome h =>
    have hi : s.Kept i .await := h ▸ hs.subtask i
    -- whoever has captured an exception is another sub-task
    have hne : ∀ j ∈ s.captured, j ≠ i := fun j hj hji ↦ hi.2 (hji ▸ hj)
    have htasks : ∀ j, j ≠ i →
        Function.update s.tasks i (some outcome) j = s.tasks j := fun j hj ↦
      Function.update_of_ne hj _ _
    refine ⟨hs.kept_of_move rfl (i := i) (p := .record) ⟨?_, hi.2⟩
      fun j hj ↦ ⟨htasks j hj, rfl, .rfl⟩, fun j hj ↦ ?_, ?_⟩
    · change (Function.update s.tasks i (some outcome) i).isSome
      rw [Function.update_self]
      rfl
    · obtain ⟨e, he⟩ := hs.captured j hj
      exact ⟨e, (htasks j (hne j hj)).trans he⟩
    · apply hs.first.trans
      change s.captured.head?.bind _ = s.captured.head?.bind _
      cases hcaptured : s.captured with
      | nil => rfl
      | cons j js =>
        have hj := htasks j (hne j (hcaptured ▸ List.mem_cons_self))
        change s.exception j = _
        rw [exception, ← hj]
        rfl
  | record i outcome h htask =>
    have hi : s.Kept i .record := h ▸ hs.subtask i
    cases outcome with
    | ok value =>
      refine ⟨hs.kept_of_move rfl (i := i) (p := .countDown) ⟨hi.1, fun v hv ↦ ?_, fun e he ↦ ?_⟩
        fun j hj ↦ ⟨rfl, Function.update_of_ne hj _ _, .rfl⟩, hs.captured, hs.first⟩
      · cases htask.symm.trans hv
        exact Function.update_self i _ _
      · cases htask.symm.trans he
    | error e =>
      refine ⟨hs.kept_of_move rfl (i := i) (p := .countDown) ⟨hi.1, fun v hv ↦ ?_, fun e' he ↦ ?_⟩
        fun j hj ↦ ⟨rfl, rfl, ?_⟩, fun j hj ↦ ?_, hs.first_of_error htask⟩
      · cases htask.symm.trans hv
      · exact List.mem_append_right _ (List.mem_singleton_self i)
      · change j ∈ s.captured ++ [i] ↔ j ∈ s.captured
        rw [List.mem_append, List.mem_singleton, or_iff_left hj]
      · rcases List.mem_append.mp hj with hj | hj
        · exact hs.captured j hj
        · rw [List.mem_singleton] at hj
          exact ⟨e, hj ▸ htask⟩

/-! ## The resumption -/

/-- What the coroutine has got is what it would still get. -/
def Settled (s : WhenAll Ts E) : Prop := ∀ r ∈ s.resumed, r = s.state.awaitResume

/-- After a resumption nobody records any more. -/
theorem Moves.settled {s s' : WhenAll Ts E} (hcounts : s.Counts) (hs : s.Settled)
    (h : Moves s s') : s'.Settled := by
  have hnone : ∀ r ∈ s.resumed, ∀ i, (s.points i).pending = 0 := fun r hr ↦
    hcounts.not_pending (hcounts.remaining_of_resumed (.inr (List.ne_nil_of_mem hr)))
  cases h with
  | post _ => exact hs
  | start i _ => exact hs
  | complete i _ _ => exact hs
  | countDown i _ => exact hs
  | postContinuation i _ => exact hs
  | record i outcome h _ =>
    cases outcome with
    | ok _ | error _ =>
      intro r hr
      have hi := hnone r hr i
      rw [h] at hi
      exact absurd hi (by decide)
  | resume _ =>
    intro r hr
    rcases List.mem_append.mp hr with hr | hr
    · exact hs r hr
    · exact List.mem_singleton.mp hr

/-- The invariant of `when_all`. -/
structure Inv (s : WhenAll Ts E) : Prop where
  counts : s.Counts
  records : s.Records
  settled : s.Settled

theorem inv_of_run (hn : 0 < n) {es : List (Event Ts E)} {s : WhenAll Ts E}
    (hrun : (awaitSuspend Ts E).run es = some s) : s.Inv := by
  refine Machine.run_invariant (fun s e s' hs h ↦ ?_)
    ⟨counts_awaitSuspend hn, records_awaitSuspend, fun _ hr ↦ absurd hr List.not_mem_nil⟩ hrun
  have hmoves := moves_of_step h
  exact ⟨hmoves.counts hs.counts, hmoves.records hs.records, hmoves.settled hs.counts hs.settled⟩

theorem Inv.recorded {s : WhenAll Ts E} (hs : s.Inv) (h : s.state.remaining = 0) (i : Fin n) :
    s.Recorded i := by
  have hpending := hs.counts.not_pending h i
  have hkept := hs.records.subtask i
  cases hp : s.points i with
  | start | await | record | countDown =>
    rw [hp] at hpending
    exact absurd hpending (by decide)
  | postContinuation | finished => rwa [hp] at hkept

theorem Inv.awaitResume_of_ok {s : WhenAll Ts E} (hs : s.Inv) (h : s.state.remaining = 0)
    {values : ∀ i, Ts i} (hvalues : ∀ i, s.tasks i = some (.ok (values i))) :
    s.state.awaitResume = some (.ok values) := by
  have hcaptured : s.captured = [] := by
    refine List.eq_nil_iff_forall_not_mem.mpr fun i hi ↦ ?_
    obtain ⟨e, he⟩ := hs.records.captured i hi
    cases (hvalues i).symm.trans he
  have hfirst : s.state.firstException = none := by
    rw [hs.records.first, hcaptured]
    rfl
  have hresults : ∀ i, s.state.results i = some (values i) := fun i ↦
    (hs.recorded h i).stored (values i) (hvalues i)
  have hall : ∀ i, (s.state.results i).isSome := fun i ↦ by rw [hresults i]; rfl
  rw [WhenAllState.awaitResume, hfirst]
  change s.state.takeResults.map Except.ok = _
  rw [WhenAllState.takeResults, dif_pos hall, Option.map_some]
  refine congrArg (fun v ↦ some (Except.ok v)) (funext fun i ↦ ?_)
  exact Option.get_of_eq_some (hall i) (hresults i)

/-- If a task has thrown, the exception is the one of the first sub-task to capture one. -/
theorem Inv.awaitResume_of_error {s : WhenAll Ts E} (hs : s.Inv) (h : s.state.remaining = 0)
    {i : Fin n} {e : E} (hi : s.tasks i = some (.error e)) :
    ∃ j e', s.captured.head? = some j ∧ s.tasks j = some (.error e') ∧
      s.state.awaitResume = some (.error e') := by
  have hfirst := hs.records.first
  have hmem := (hs.recorded h i).caught e hi
  cases hcaptured : s.captured with
  | nil =>
    rw [hcaptured] at hmem
    exact absurd hmem List.not_mem_nil
  | cons j js =>
    obtain ⟨e', he'⟩ := hs.records.captured j (hcaptured ▸ List.mem_cons_self)
    have hj : s.exception j = some e' := by rw [exception, he']
    rw [hcaptured] at hfirst
    refine ⟨j, e', rfl, he', ?_⟩
    rw [WhenAllState.awaitResume, show s.state.firstException = some e' from hfirst.trans hj]

/-! ## Progress -/

/-- The steps a sub-task has taken, except for the post of the continuation. -/
def Point.progress : Point → ℕ
  | .start => 0
  | .await => 1
  | .record => 2
  | .countDown => 3
  | .postContinuation | .finished => 4

/-- The steps that have been taken. -/
def steps (s : WhenAll Ts E) : ℕ :=
  s.posted + tally Point.progress s.points + (s.continuations + s.resumed.length) +
    s.resumed.length

theorem steps_goto {s s' : WhenAll Ts E} {i : Fin n} {p : Point}
    (hpoints : s'.points = Function.update s.points i p)
    (hprogress : p.progress = (s.points i).progress + 1) (hposted : s'.posted = s.posted)
    (hcontinuations : s'.continuations = s.continuations) (hresumed : s'.resumed = s.resumed) :
    s'.steps = s.steps + 1 := by
  have htally := tally_update Point.progress s.points i p
  rw [steps, steps, hpoints, hposted, hcontinuations, hresumed]
  omega

theorem Moves.steps {s s' : WhenAll Ts E} (h : Moves s s') :
    s'.steps = s.steps + 1 ∧ (s.posted ≤ n → s'.posted ≤ n) := by
  cases h with
  | post h =>
    refine ⟨?_, fun _ ↦ h⟩
    rw [WhenAll.steps, WhenAll.steps]
    dsimp only
    omega
  | start i h => exact ⟨steps_goto rfl (by rw [h]; rfl) rfl rfl rfl, id⟩
  | complete i outcome h => exact ⟨steps_goto rfl (by rw [h]; rfl) rfl rfl rfl, id⟩
  | record i outcome h _ =>
    cases outcome with
    | ok _ | error _ => exact ⟨steps_goto rfl (by rw [h]; rfl) rfl rfl rfl, id⟩
  | countDown i h =>
    refine ⟨steps_goto rfl ?_ rfl rfl rfl, id⟩
    rw [h]
    split <;> rfl
  | postContinuation i h =>
    have htally := tally_update Point.progress s.points i .finished
    rw [h] at htally
    refine ⟨?_, id⟩
    change s.posted + tally Point.progress (Function.update s.points i .finished) +
      (s.continuations + 1 + s.resumed.length) + s.resumed.length =
        s.posted + tally Point.progress s.points + (s.continuations + s.resumed.length) +
          s.resumed.length + 1
    have : Point.progress .finished = Point.progress .postContinuation := rfl
    omega
  | resume h =>
    refine ⟨?_, id⟩
    change s.posted + tally Point.progress s.points +
      (s.continuations - 1 + (s.resumed ++ [s.state.awaitResume]).length) +
        (s.resumed ++ [s.state.awaitResume]).length =
      s.posted + tally Point.progress s.points + (s.continuations + s.resumed.length) +
        s.resumed.length + 1
    rw [List.length_append, List.length_singleton]
    omega

theorem length_le_of_run (hn : 0 < n) {es : List (Event Ts E)} {s : WhenAll Ts E}
    (hrun : (awaitSuspend Ts E).run es = some s) : es.length ≤ 5 * n + 2 := by
  have hsteps : es.length = s.steps ∧ s.posted ≤ n := by
    refine Machine.run_history (P := fun es s ↦ es.length = s.steps ∧ s.posted ≤ n) ?_
      (fun es s e s' _ hs h ↦ ?_) hrun
    · refine ⟨?_, Nat.zero_le n⟩
      simp [WhenAll.steps, awaitSuspend, tally_const, Point.progress]
    · obtain ⟨hlength, hposted⟩ := (moves_of_step h).steps
      exact ⟨by rw [List.length_append, List.length_singleton, hs.1, hlength], hposted hs.2⟩
  have hcount := (inv_of_run hn hrun).counts.resumption
  have htally : tally Point.progress s.points ≤ n * 4 := by
    have hle : tally Point.progress s.points ≤ Fintype.card (Fin n) * 4 :=
      tally_le fun p ↦ by cases p <;> decide
    rwa [Fintype.card_fin] at hle
  rw [hsteps.1, WhenAll.steps]
  split at hcount <;> omega

theorem Inv.resumed_of_stuck {s : WhenAll Ts E} (hs : s.Inv) (hended : ∀ i, (s.tasks i).isSome)
    (hstuck : ∀ e, s.step e = none) : s.resumed.length = 1 := by
  have hposted : n ≤ s.posted := by
    by_contra hlt
    have hpost := hstuck .post
    rw [step, if_pos (by omega)] at hpost
    cases hpost
  have hfinished : ∀ i, s.points i = .finished := fun i ↦ by
    have hkept := hs.records.subtask i
    obtain ⟨outcome, houtcome⟩ := Option.isSome_iff_exists.mp (hended i)
    cases hp : s.points i with
    | start =>
      have hstart := hstuck (.start i)
      rw [step, if_pos ⟨hp, i.isLt.trans_le hposted⟩] at hstart
      cases hstart
    | await =>
      rw [hp] at hkept
      cases hkept.1.symm.trans houtcome
    | record =>
      have hrecord := hstuck (.record i)
      rw [step, if_pos hp, houtcome] at hrecord
      cases hrecord
    | countDown =>
      have hcount := hstuck (.countDown i)
      rw [step, if_pos hp] at hcount
      cases hcount
    | postContinuation =>
      have hpost := hstuck (.postContinuation i)
      rw [step, if_pos hp] at hpost
      cases hpost
    | finished => rfl
  have hcontinuations : s.continuations = 0 := by
    by_contra hne
    have hresume := hstuck .resume
    rw [step, if_pos (Nat.pos_of_ne_zero hne)] at hresume
    cases hresume
  have hposting : tally Point.posting s.points = 0 :=
    tally_eq_zero_iff.mpr fun i ↦ by rw [hfinished i]; rfl
  have hremaining : s.state.remaining = 0 :=
    hs.counts.remaining.trans (tally_eq_zero_iff.mpr fun i ↦ by rw [hfinished i]; rfl)
  have hcount := hs.counts.resumption
  rwa [hposting, hcontinuations, if_pos hremaining, Nat.zero_add] at hcount

/-- **Join.** In every run, whatever the tasks end with and in whatever order: the coroutine is
resumed at most once, and by then every outcome has been recorded; it gets the results in argument
order if no task has thrown, and otherwise the exception of the first sub-task to capture one. Every
run is short, and if it cannot go on although every task has ended, the coroutine has been
resumed. -/
theorem joins (hn : 2 ≤ n) {es : List (Event Ts E)} {s : WhenAll Ts E}
    (hrun : (awaitSuspend Ts E).run es = some s) :
    s.resumed.length ≤ 1 ∧ (s.resumed ≠ [] → ∀ i, s.Recorded i) ∧
      (∀ r ∈ s.resumed,
        (∃ values, (∀ i, s.tasks i = some (.ok (values i))) ∧ r = some (.ok values)) ∨
          ∃ i e, s.captured.head? = some i ∧ s.tasks i = some (.error e) ∧ r = some (.error e)) ∧
      es.length ≤ 5 * n + 2 ∧
      ((∀ i, (s.tasks i).isSome) → (∀ e, s.step e = none) → s.resumed.length = 1) := by
  have hs := inv_of_run (by omega) hrun
  refine ⟨hs.counts.resumed_le, fun hne ↦ hs.recorded (hs.counts.remaining_of_resumed (.inr hne)),
    fun r hr ↦ ?_, length_le_of_run (by omega) hrun, hs.resumed_of_stuck⟩
  have hzero := hs.counts.remaining_of_resumed (.inr (List.ne_nil_of_mem hr))
  rw [hs.settled r hr]
  by_cases hthrew : ∃ i e, s.tasks i = some (.error e)
  · obtain ⟨i, e, hi⟩ := hthrew
    exact .inr (hs.awaitResume_of_error hzero hi)
  · have hok : ∀ i, ∃ value, s.tasks i = some (.ok value) := fun i ↦ by
      obtain ⟨outcome, houtcome⟩ := Option.isSome_iff_exists.mp (hs.recorded hzero i).ended
      cases outcome with
      | ok value => exact ⟨value, houtcome⟩
      | error e => exact absurd ⟨i, e, houtcome⟩ hthrew
    choose values hvalues using hok
    exact .inl ⟨values, hvalues, hs.awaitResume_of_ok hzero hvalues⟩

/-- The first task ends before the second one is posted, and the second one throws. -/
theorem joins_of_throw : ∃ s : WhenAll (fun _ : Fin 2 ↦ ℕ) ℕ,
    (awaitSuspend _ ℕ).run [.post, .start 0, .complete 0 (.ok 7), .record 0, .countDown 0, .post,
      .start 1, .complete 1 (.error 3), .record 1, .countDown 1, .postContinuation 1,
      .resume] = some s ∧
    s.tasks 1 = some (.error 3) ∧ (∀ i, s.Recorded i) ∧
    ∀ r ∈ s.resumed, ∃ i e, s.captured.head? = some i ∧ r = some (.error e) := by
  obtain ⟨s, hrun, hone, hne⟩ : ∃ s : WhenAll (fun _ : Fin 2 ↦ ℕ) ℕ,
      (awaitSuspend _ ℕ).run [.post, .start 0, .complete 0 (.ok 7), .record 0, .countDown 0, .post,
        .start 1, .complete 1 (.error 3), .record 1, .countDown 1, .postContinuation 1,
        .resume] = some s ∧ s.tasks 1 = some (.error 3) ∧ s.resumed ≠ [] :=
    ⟨_, rfl, rfl, List.cons_ne_nil _ _⟩
  obtain ⟨-, hrecorded, hresumed, -⟩ := joins (by decide) hrun
  refine ⟨s, hrun, hone, hrecorded hne, fun r hr ↦ ?_⟩
  rcases hresumed r hr with ⟨values, hvalues, -⟩ | ⟨i, e, hhead, -, hr⟩
  · cases hone.symm.trans (hvalues 1)
  · exact ⟨i, e, hhead, hr⟩

end WhenAll

end Aevox
