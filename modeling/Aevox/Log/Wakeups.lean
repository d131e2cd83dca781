import Aevox.Log.Writer

/-!
# Wake-ups of the log writer

A call of `enqueue` notifies one waiter, whichever it is. While records are queued, the waiters may
be the writer thread and callers of `flush`, and only the writer thread can do anything about the
records. If a caller of `flush` is woken instead, it evaluates its predicate, finds it false and
sleeps again, and the notification is lost: the thread sleeps, and so does everybody who waits for
it (`misses_work_wrong_waiter`).

This is the only way to miss work (`misses_no_work_iff`). When the thread falls asleep the queue is
empty, since it has held the mutex from its predicate on, and who puts a record in notifies later.
-/

namespace Aevox

namespace LogWriter

/-- The thread sleeps while records are queued, and nobody is about to notify. -/
def MissesWork (s : LogWriter) : Prop :=
  s.thread = .waiting .asleep ∧ s.queue ≠ [] ∧ ¬s.WillNotify

/-- A notification that wakes a caller of `flush` does not have to wake the thread: the thread does
not sleep, there is no work, or another call is about to notify. -/
def Spares (s : LogWriter) (e : Event) : Prop :=
  ∀ k, e = .notifyOne (some (.flush k)) → s.thread = .waiting .asleep → s.queue ≠ [] →
    1 < s.notifying

/-- The invariant. -/
structure Served (s : LogWriter) : Prop where
  blocking : s.thread = .waiting .blocking → s.queue = []
  asleep : s.thread = .waiting .asleep → s.queue ≠ [] → s.WillNotify

variable {s s' : LogWriter}

theorem Served.not_missesWork (hs : Served s) : ¬MissesWork s :=
  fun h ↦ h.2.2 (hs.asleep h.1 h.2.1)

theorem served_of_ne (hblocking : s.thread ≠ .waiting .blocking)
    (hasleep : s.thread ≠ .waiting .asleep) : Served s :=
  ⟨fun h ↦ absurd h hblocking, fun h ↦ absurd h hasleep⟩

theorem served_of_moves {e : Event} (hs : Served s) (hC : Spares s e) (h : Moves s e s') :
    Served s' := by
  cases h with
  | accepts _ hlocked =>
    refine ⟨fun hthread ↦ ?_, fun _ _ ↦ Or.inl (Nat.succ_pos _)⟩
    rw [locked, Bool.or_eq_false_iff, decide_eq_false_iff_not] at hlocked
    exact absurd hthread hlocked.1
  | notifiesNobody _ hnobody =>
    rw [anyAsleep, Bool.or_eq_false_iff, decide_eq_false_iff_not] at hnobody
    exact ⟨hs.blocking, fun hthread ↦ absurd hthread hnobody.1⟩
  | @notifiesOne t hnotifying ht =>
    cases t with
    | writer =>
      exact ⟨fun hthread ↦ hs.blocking (RunAt.eq_of_wake_eq hthread (by simp)),
        fun hthread ↦ absurd hthread (RunAt.wake_ne _)⟩
    | flush k =>
      refine ⟨hs.blocking, fun hthread hqueue ↦ Or.inl ?_⟩
      exact Nat.sub_pos_of_lt (hC k rfl hthread hqueue)
  | runWaits _ hqueue => exact ⟨fun _ ↦ hqueue, fun h ↦ absurd h (by simp)⟩
  | blockWriter hthread =>
    exact ⟨fun h ↦ absurd h (by simp), fun _ hqueue ↦ absurd (hs.blocking hthread) hqueue⟩
  | @spurious t =>
    cases t with
    | writer =>
      exact ⟨fun hthread ↦ hs.blocking (RunAt.eq_of_wake_eq hthread (by simp)),
        fun hthread ↦ absurd hthread (RunAt.wake_ne _)⟩
    | flush k => exact ⟨hs.blocking, hs.asleep⟩
  | requestStop => exact ⟨hs.blocking, fun _ _ ↦ Or.inr (Or.inl rfl)⟩
  | destructorNotify =>
    exact ⟨fun hthread ↦ hs.blocking (RunAt.eq_of_wake_eq hthread (by simp)),
      fun hthread ↦ absurd hthread (RunAt.wake_ne _)⟩
  | join _ hthread => exact served_of_ne (by simp [hthread]) (by simp [hthread])
  | exits | takes | writes | finish | notifyAll => exact served_of_ne (by simp) (by simp)
  | drops | recordDrop | flush | flushReturns | flushWaits | blockFlush =>
    exact ⟨hs.blocking, hs.asleep⟩

variable {config : LogConfig} {isOpen : Bool} {s₀ : LogWriter}

theorem served_of_create (hcreate : create config isOpen = .ok s₀) : Served s₀ := by
  obtain ⟨output, rfl⟩ := eq_start_of_create hcreate
  exact served_of_ne (by simp [start]) (by simp [start])

/-- The notification of a caller of `flush` that does not spare the thread is the last one. -/
theorem missesWork_of_not_spares {e : Event} (hinUse : 0 < s.notifying → s.destructor = .notBegun)
    (hstep : s.step e = some s') (hC : ¬Spares s e) : MissesWork s' := by
  obtain ⟨k, hk⟩ := not_forall.mp hC
  push Not at hk
  obtain ⟨rfl, hthread, hqueue, hlast⟩ := hk
  cases moves_of_step hstep with
  | notifiesOne hnotifying =>
    refine ⟨hthread, hqueue, ?_⟩
    rintro (hother | hstopping | hthread')
    · exact absurd hother (Nat.not_lt.mpr (Nat.sub_le_of_le_add hlast))
    · have hbegun := hinUse hnotifying
      rw [show s.destructor = .stopping from hstopping] at hbegun
      cases hbegun
    · rw [show s.thread = .notifying from hthread'] at hthread
      cases hthread

/-- **Work is missed through the wrong waiter only.** In a run no state misses work if and only if
no notification wakes a caller of `flush` while the thread sleeps, records are queued and no other
call is about to notify. -/
theorem misses_no_work_iff {es : List Event} (hcreate : create config isOpen = .ok s₀)
    (hrun : s₀.run es = some s) :
    (∀ es₁ s₁, es₁ <+: es → s₀.run es₁ = some s₁ → ¬MissesWork s₁) ↔
      Machine.Along step Spares s₀ es := by
  rw [Machine.along_iff]
  constructor
  · intro h es₁ e s₁ hpre hrun₁
    by_contra hC
    obtain ⟨rest, rfl⟩ := hpre
    rw [run, List.append_assoc, Machine.run_append_of_some hrun₁] at hrun
    obtain ⟨s₂, hs₂, -⟩ := Machine.run_cons_eq_some_iff.mp hrun
    refine h (es₁ ++ [e]) s₂ (List.prefix_append _ rest) (Machine.run_trans hrun₁ ?_)
      (missesWork_of_not_spares (inUse_of_run hcreate hrun₁) hs₂ hC)
    rw [Machine.run_singleton]
    exact hs₂
  · intro h es₁ s₁ hpre hrun₁
    have hC : Machine.Along step Spares s₀ es₁ := Machine.along_iff.mpr fun es₂ e s₂ hpre₂ ↦
      h es₂ e s₂ (hpre₂.trans hpre)
    have hs₁ : Served s₁ := Machine.run_invariant_along
      (fun _ _ _ hs hC hstep ↦ served_of_moves hs hC (moves_of_step hstep)) hC
      (served_of_create hcreate) hrun₁
    exact hs₁.not_missesWork

/-- The thread sleeps and a caller of `flush` waits too, and the thread is notified. -/
theorem misses_no_work_iff_thread_notified : ∃ s₀ s, create {} true = .ok s₀ ∧
    s₀.run [.runCheck, .block .writer, .enqueue {} false, .flush, .flushCheck 0 true,
      .block (.flush 0), .notifyOne (some .writer), .runCheck] = some s ∧
    ∀ es₁ s₁, es₁ <+: [.runCheck, .block .writer, .enqueue {} false, .flush, .flushCheck 0 true,
      .block (.flush 0), .notifyOne (some .writer), .runCheck] → s₀.run es₁ = some s₁ →
      ¬MissesWork s₁ := by
  obtain ⟨s, hrun⟩ : ∃ s, (start {} (some .stdout)).run [.runCheck, .block .writer,
      .enqueue {} false, .flush, .flushCheck 0 true, .block (.flush 0), .notifyOne (some .writer),
      .runCheck] = some s := ⟨_, rfl⟩
  have hcreate : create {} true = .ok (start {} (some .stdout)) := rfl
  refine ⟨_, s, hcreate, hrun, (misses_no_work_iff hcreate hrun).mpr ?_⟩
  exact Machine.along_of_forall fun e he s k hk ↦ by simp [hk] at he

/-- A caller of `flush` waits for a record to be written. It is woken instead of the thread, finds
its predicate false and sleeps again: everybody sleeps, and the record stays in the queue. -/
theorem misses_work_wrong_waiter : ∃ s₀ s, create {} true = .ok s₀ ∧
    s₀.run [.runCheck, .block .writer, .enqueue {} false, .flush, .flushCheck 0 true,
      .block (.flush 0), .notifyOne (some (.flush 0)), .flushCheck 0 true, .block (.flush 0)] =
        some s ∧ MissesWork s := by
  obtain ⟨s, hrun, hthread, hqueue, hnotifying, hbegun⟩ : ∃ s, (start {} (some .stdout)).run
      [.runCheck, .block .writer, .enqueue {} false, .flush, .flushCheck 0 true, .block (.flush 0),
        .notifyOne (some (.flush 0)), .flushCheck 0 true, .block (.flush 0)] = some s ∧
      s.thread = .waiting .asleep ∧ s.queue = [{}] ∧ s.notifying = 0 ∧
      s.destructor = .notBegun := ⟨_, rfl, rfl, rfl, rfl, rfl⟩
  refine ⟨_, s, rfl, hrun, hthread, by simp [hqueue], ?_⟩
  simp [WillNotify, hthread, hnotifying, hbegun]

end LogWriter

end Aevox
