import Aevox.Log.Conservation

/-!
# Shutting the log writer down

The destructor requests a stop, notifies everybody and joins the thread. It does the first two
without the mutex, so that both can fall between the moment when the thread has found its predicate
false and the moment when it sleeps. Then nobody is there to be notified, nobody notifies again, and
the destructor waits for ever (`shuts_down_lost_notification`).

Whenever the notification comes at another time, the thread does not sleep again. What it exits
with is right in every run: it has handed over all records.
-/

namespace Aevox

namespace LogWriter

/-- The destructor has notified and waits for the thread, which sleeps and will not be notified. -/
def Hung (s : LogWriter) : Prop :=
  s.destructor = .joining ∧ s.thread = .waiting .asleep ∧ ¬s.WillNotify

/-- The notification of the destructor does not come between the predicate of the thread and its
sleep. -/
def NotBetween (s : LogWriter) (e : Event) : Prop :=
  e = .destructorNotify → s.thread ≠ .waiting .blocking

/-- The thread does not sleep any more once the destructor has notified. -/
structure Awake (s : LogWriter) : Prop where
  blocking : s.destructor = .joining ∨ s.destructor = .joined → s.thread ≠ .waiting .blocking
  asleep : s.destructor = .joining ∨ s.destructor = .joined → s.thread ≠ .waiting .asleep

variable {s s' : LogWriter}

theorem Awake.not_hung (hs : Awake s) : ¬Hung s :=
  fun h ↦ hs.asleep (Or.inl h.1) h.2.1

theorem awake_of_before (h : s.destructor = .notBegun ∨ s.destructor = .stopping) : Awake s := by
  have hbefore : ¬(s.destructor = .joining ∨ s.destructor = .joined) := by
    rcases h with h | h <;> simp [h]
  exact ⟨fun h ↦ absurd h hbefore, fun h ↦ absurd h hbefore⟩

theorem awake_of_place (hblocking : s.thread ≠ .waiting .blocking)
    (hasleep : s.thread ≠ .waiting .asleep) : Awake s :=
  ⟨fun _ ↦ hblocking, fun _ ↦ hasleep⟩

theorem awake_wake (hs : Awake s) (t : Party) : Awake (s.wake t) := by
  cases t with
  | writer =>
    exact ⟨fun h hthread ↦ hs.blocking h (RunAt.eq_of_wake_eq hthread (by simp)),
      fun _ hthread ↦ RunAt.wake_ne _ hthread⟩
  | flush k => exact ⟨hs.blocking, hs.asleep⟩

theorem awake_of_moves {e : Event} (hs : Awake s) (hC : NotBetween s e) (h : Moves s e s') :
    Awake s' := by
  cases h with
  | drops hbegun | accepts hbegun | recordDrop hbegun | flush hbegun | runWaits _ _ hbegun =>
    exact awake_of_before (Or.inl hbegun)
  | notifiesOne =>
    have hwake := awake_wake hs
    exact ⟨(hwake _).blocking, (hwake _).asleep⟩
  | spurious => exact awake_wake hs _
  | blockWriter hthread =>
    have hbefore : ¬(s.destructor = .joining ∨ s.destructor = .joined) :=
      fun h ↦ hs.blocking h hthread
    exact ⟨fun h ↦ absurd h hbefore, fun h ↦ absurd h hbefore⟩
  | requestStop => exact awake_of_before (Or.inr rfl)
  | destructorNotify =>
    exact awake_of_place (fun hthread ↦ hC rfl (RunAt.eq_of_wake_eq hthread (by simp)))
      (RunAt.wake_ne _)
  | join _ hthread => exact awake_of_place (by simp [hthread]) (by simp [hthread])
  | exits | takes | writes | finish | notifyAll => exact awake_of_place (by simp) (by simp)
  | notifiesNobody | flushReturns | flushWaits | blockFlush => exact ⟨hs.blocking, hs.asleep⟩

/-- The thread has exited with an empty queue, into which nothing is put any more. -/
def Finished (s : LogWriter) : Prop :=
  s.thread = .exited → s.queue = [] ∧ s.destructor ≠ .notBegun

theorem finished_of_ne (h : s.thread ≠ .exited) : Finished s := fun hthread ↦ absurd hthread h

theorem finished_wake (hs : Finished s) (t : Party) : Finished (s.wake t) := by
  cases t with
  | writer => exact fun hthread ↦ hs (RunAt.eq_of_wake_eq hthread (by simp))
  | flush k => exact hs

theorem finished_of_moves {e : Event} (hs : Finished s) (h : Moves s e s') : Finished s' := by
  cases h with
  | accepts hbegun => exact fun hthread ↦ absurd hbegun (hs hthread).2
  | notifiesOne => exact finished_wake hs _
  | spurious => exact finished_wake hs _
  | exits _ hqueue hbegun => exact fun _ ↦ ⟨hqueue, hbegun⟩
  | requestStop => exact fun hthread ↦ ⟨(hs hthread).1, by simp⟩
  | destructorNotify =>
    exact fun hthread ↦ ⟨(hs (RunAt.eq_of_wake_eq hthread (by simp))).1, by simp⟩
  | join => exact fun hthread ↦ ⟨(hs hthread).1, by simp⟩
  | runWaits | takes | blockWriter | writes | finish | notifyAll => exact finished_of_ne (by simp)
  | drops | recordDrop | notifiesNobody | flush | flushReturns | flushWaits | blockFlush => exact hs

variable {config : LogConfig} {isOpen : Bool} {s₀ : LogWriter} {es : List Event}

theorem finished_of_run (hcreate : create config isOpen = .ok s₀) (hrun : s₀.run es = some s) :
    Finished s := by
  obtain ⟨output, rfl⟩ := eq_start_of_create hcreate
  exact Machine.run_invariant (fun _ _ _ hs hstep ↦ finished_of_moves hs (moves_of_step hstep))
    (finished_of_ne (by simp [start])) hrun

theorem awake_of_run (hcreate : create config isOpen = .ok s₀)
    (hC : Machine.Along step NotBetween s₀ es) (hrun : s₀.run es = some s) : Awake s := by
  obtain ⟨output, rfl⟩ := eq_start_of_create hcreate
  exact Machine.run_invariant_along
    (fun _ _ _ hs hC hstep ↦ awake_of_moves hs hC (moves_of_step hstep)) hC
    (awake_of_before (Or.inl rfl)) hrun

/-- A notification at the wrong time: the thread goes on to sleep, and nobody is left to wake it. -/
theorem hung_of_not_notBetween (hcreate : create config isOpen = .ok s₀)
    (hrun : s₀.run es = some s) {e : Event} (hstep : s.step e = some s') (hC : ¬NotBetween s e) :
    ∃ s'', s'.step (.block .writer) = some s'' ∧ Hung s'' := by
  obtain ⟨rfl, hthread⟩ := Classical.not_imp.mp hC
  have hblocking : s.thread = .waiting .blocking := not_not.mp hthread
  cases moves_of_step hstep with
  | destructorNotify hstopping =>
    have hthread' : s.thread.wake = .waiting .blocking := by rw [hblocking]; rfl
    refine ⟨_, if_pos hthread', rfl, rfl, ?_⟩
    rintro (hnotifying | hstop | hplace)
    · have hbegun := inUse_of_run hcreate hrun hnotifying
      rw [hstopping] at hbegun
      cases hbegun
    · cases hstop
    · cases hplace

/-- **The writer shuts down if the destructor does not notify at the wrong time.** In every run, a
thread that has exited has handed over every accepted record. If the destructor does not notify
between the predicate of the thread and its sleep, the thread is not left asleep; and if it does,
the thread has only to fall asleep. -/
theorem shuts_down (hcreate : create config isOpen = .ok s₀) (hrun : s₀.run es = some s) :
    (s.thread = .exited → s.handed = s.acceptedRecords) ∧
      (Machine.Along step NotBetween s₀ es → ¬Hung s) ∧
      ∀ e s', s.step e = some s' → ¬NotBetween s e →
        ∃ s'', s'.step (.block .writer) = some s'' ∧ Hung s'' := by
  refine ⟨fun hthread ↦ ?_, fun hC ↦ (awake_of_run hcreate hC hrun).not_hung,
    fun e s' hstep hC ↦ hung_of_not_notBetween hcreate hrun hstep hC⟩
  have hrecords := records_of_run hcreate hrun
  exact (hrecords.handed_eq (finished_of_run hcreate hrun hthread).1 (by rw [hthread]; rfl)).symm

/-- The stop is requested and notified while a record is being written. -/
theorem shuts_down_writing : ∃ s₀ s, create {} true = .ok s₀ ∧
    s₀.run [.runCheck, .block .writer, .enqueue {} false, .notifyOne (some .writer), .runCheck,
      .requestStop, .destructorNotify, .writeRecord .good, .finish, .notifyAll, .runCheck, .join] =
        some s ∧ s.handed = [{}] ∧ s.handed = s.acceptedRecords ∧ ¬Hung s := by
  obtain ⟨s₁, s₂, s, hrun₁, hwriting, hnotify, hrun₂, hthread, hhanded⟩ :
      ∃ s₁ s₂ s, (start {} (some .stdout)).run [.runCheck, .block .writer, .enqueue {} false,
          .notifyOne (some .writer), .runCheck, .requestStop] = some s₁ ∧
        s₁.thread = .writing {} ∧ s₁.step .destructorNotify = some s₂ ∧
        s₂.run [.writeRecord .good, .finish, .notifyAll, .runCheck, .join] = some s ∧
        s.thread = .exited ∧ s.handed = [{}] := ⟨_, _, _, rfl, rfl, rfl, rfl, rfl, rfl⟩
  have hcreate : create {} true = .ok (start {} (some .stdout)) := rfl
  have hrun := Machine.run_trans hrun₁ (Machine.run_cons_eq_some_iff.mpr ⟨s₂, hnotify, hrun₂⟩)
  obtain ⟨hall, hawake, -⟩ := shuts_down hcreate hrun
  refine ⟨_, s, hcreate, hrun, hhanded, hall hthread, hawake ?_⟩
  refine Machine.along_append (Machine.along_of_forall fun e he s he' ↦ ?_) hrun₁
    (Machine.along_cons (fun _ ↦ by simp [hwriting]) hnotify
      (Machine.along_of_forall fun e he s he' ↦ ?_))
  · simp [he'] at he
  · simp [he'] at he

/-- The stop is requested and notified after the thread has found its predicate false and before it
sleeps. -/
theorem shuts_down_lost_notification : ∃ s₀ s, create {} true = .ok s₀ ∧
    s₀.run [.runCheck, .requestStop, .destructorNotify, .block .writer] = some s ∧ Hung s := by
  obtain ⟨s, hrun, hdestructor, hthread, hnotifying⟩ : ∃ s, (start {} (some .stdout)).run
      [.runCheck, .requestStop, .destructorNotify, .block .writer] = some s ∧
      s.destructor = .joining ∧ s.thread = .waiting .asleep ∧ s.notifying = 0 :=
    ⟨_, rfl, rfl, rfl, rfl⟩
  refine ⟨_, s, rfl, hrun, hdestructor, hthread, ?_⟩
  simp [WillNotify, hthread, hnotifying, hdestructor]

end LogWriter

end Aevox
