import Aevox.Log.Writer

/-!
# Conservation of log records

What has been accepted is what has been handed to `write_record`, what the thread is about to hand
to it, and what is queued, in this order. The thread holds a record outside the queue only while
`writing_` is set, so that a caller of `flush` that finds the queue empty and `writing_` unset knows
that everything accepted before has been handed over.

The counters have 64 bits. That of the dropped records stops at its largest value; the other two
start again at zero. Until 2⁶⁴ records have been accepted they count what they should, and from then
on they do not (`records_conserved_iff`).
-/

namespace Aevox

namespace LogWriter

/-- The counters count, the queue is bounded, and records are written in order, before `flush`
reports it. -/
structure Conserved (s : LogWriter) : Prop where
  counted : s.stats.accepted.toNat + s.stats.dropped.toNat = s.calls
  accepted : s.stats.accepted.toNat = s.acceptedRecords.length
  bounded : s.queue.length ≤ s.config.queueCapacity.toNat
  inOrder : s.handed <+: s.acceptedRecords
  written : s.stats.written ≤ s.stats.accepted
  flushed : ∀ f ∈ s.flushes, f.place = .returned none → f.before <+: s.handed

/-! ## Records -/

/-- The record that has been taken and not yet handed to `write_record`. -/
def RunAt.inFlight : RunAt → List LogRecord
  | writing record => [record]
  | _ => []

/-- What holds of a call of `flush`, given what has been accepted and handed over. -/
structure Flush.Sound (acceptedRecords handed : List LogRecord) (f : Flush) : Prop where
  before : f.before <+: acceptedRecords
  flushed : f.place = .returned none → f.before <+: handed

/-- Where the records are. -/
structure Records (s : LogWriter) : Prop where
  accepted : s.acceptedRecords = s.handed ++ s.thread.inFlight ++ s.queue
  bounded : s.queue.length ≤ s.config.queueCapacity.toNat
  writing : s.writing = false → s.thread.inFlight = []
  flushes : ∀ f ∈ s.flushes, f.Sound s.acceptedRecords s.handed

variable {s s' : LogWriter}

theorem Records.inOrder (hs : Records s) : s.handed <+: s.acceptedRecords := by
  rw [hs.accepted, List.append_assoc]
  exact List.prefix_append _ _

theorem Records.handed_eq (hs : Records s) (hqueue : s.queue = [])
    (hflight : s.thread.inFlight = []) : s.acceptedRecords = s.handed := by
  rw [hs.accepted, hqueue, hflight, List.append_nil, List.append_nil]

@[simp] theorem inFlight_wake (place : RunAt) : place.wake.inFlight = place.inFlight := by
  cases place with
  | waiting w => cases w <;> rfl
  | _ => rfl

section Flushes

variable {acceptedRecords handed : List LogRecord} {f : Flush} {fs : List Flush}

theorem Flush.Sound.mono (hf : f.Sound acceptedRecords handed) {record : LogRecord} :
    f.Sound (acceptedRecords ++ [record]) handed :=
  ⟨hf.before.trans (List.prefix_append _ _), hf.flushed⟩

theorem Flush.Sound.handOver (hf : f.Sound acceptedRecords handed) {record : LogRecord} :
    f.Sound acceptedRecords (handed ++ [record]) :=
  ⟨hf.before, fun hplace ↦ (hf.flushed hplace).trans (List.prefix_append _ _)⟩

theorem Flush.Sound.waiting (hf : f.Sound acceptedRecords handed) (w : Wait) :
    Flush.Sound acceptedRecords handed { f with place := .waiting w } :=
  ⟨hf.before, fun hplace ↦ by cases hplace⟩

theorem Flush.Sound.wake (hf : f.Sound acceptedRecords handed) :
    Flush.Sound acceptedRecords handed { f with place := f.place.wake } := by
  refine ⟨hf.before, fun hplace ↦ hf.flushed ?_⟩
  cases hf' : f.place with
  | waiting w =>
    rw [hf'] at hplace
    cases w <;> cases hplace
  | returned error =>
    rw [hf'] at hplace
    exact hplace

theorem sound_set (hfs : ∀ f ∈ fs, f.Sound acceptedRecords handed) {k : ℕ}
    (hf : f.Sound acceptedRecords handed) :
    ∀ g ∈ fs.set k f, g.Sound acceptedRecords handed := by
  intro g hg
  rcases List.mem_or_eq_of_mem_set hg with hg | rfl
  · exact hfs g hg
  · exact hf

theorem sound_wake (hfs : ∀ f ∈ fs, f.Sound acceptedRecords handed) (k : ℕ) :
    ∀ g ∈ fs.modify k fun f ↦ { f with place := f.place.wake },
      g.Sound acceptedRecords handed := by
  intro g hg
  obtain ⟨j, hj⟩ := List.mem_iff_getElem?.mp hg
  rw [List.getElem?_modify] at hj
  obtain ⟨f, hf, rfl⟩ := Option.map_eq_some_iff.mp hj
  have hsound := hfs f (List.mem_of_getElem? hf)
  split
  · exact hsound.wake
  · exact hsound

theorem sound_wake_all (hfs : ∀ f ∈ fs, f.Sound acceptedRecords handed) :
    ∀ g ∈ fs.map fun f ↦ { f with place := f.place.wake }, g.Sound acceptedRecords handed := by
  intro g hg
  obtain ⟨f, hf, rfl⟩ := List.mem_map.mp hg
  exact (hfs f hf).wake

end Flushes

theorem Records.set (hs : Records s) {k : ℕ} {f : Flush} (hf : f.Sound s.acceptedRecords s.handed) :
    Records { s with flushes := s.flushes.set k f } :=
  ⟨hs.accepted, hs.bounded, hs.writing, sound_set hs.flushes hf⟩

theorem Records.mem (hs : Records s) {k : ℕ} {f : Flush} (hf : s.flushes[k]? = some f) :
    f.Sound s.acceptedRecords s.handed := hs.flushes f (List.mem_of_getElem? hf)

theorem Records.wake (hs : Records s) (t : Party) : Records (s.wake t) := by
  cases t with
  | writer =>
    refine ⟨?_, hs.bounded, fun hwriting ↦ ?_, hs.flushes⟩
    · rw [LogWriter.wake, inFlight_wake]
      exact hs.accepted
    · exact (inFlight_wake _).trans (hs.writing hwriting)
  | flush k => exact ⟨hs.accepted, hs.bounded, hs.writing, sound_wake hs.flushes k⟩

/-- The thread moves on, with the same record. -/
theorem Records.move (hs : Records s) {place : RunAt} (h : place.inFlight = s.thread.inFlight) :
    Records { s with thread := place } := by
  refine ⟨?_, hs.bounded, fun hwriting ↦ h.trans (hs.writing hwriting), hs.flushes⟩
  rw [h]
  exact hs.accepted

theorem Records.notifyAll (hs : Records s) : Records s.notifyAll := by
  have hwake : Records { s with thread := s.thread.wake } := hs.move (inFlight_wake _)
  exact ⟨hwake.accepted, hwake.bounded, hwake.writing, sound_wake_all hs.flushes⟩

/-- **Records are where they should be**, after every step. -/
theorem records_of_moves {e : Event} (hs : Records s) (h : Moves s e s') : Records s' := by
  cases h with
  | drops | recordDrop | notifiesNobody | requestStop | join =>
    exact ⟨hs.accepted, hs.bounded, hs.writing, hs.flushes⟩
  | @accepts record _ _ hlength =>
    refine ⟨?_, ?_, hs.writing, fun f hf ↦ (hs.flushes f hf).mono⟩
    · rw [hs.accepted, List.append_assoc]
    · rw [List.length_append]
      exact hlength
  | @notifiesOne t =>
    have hwake := hs.wake t
    exact ⟨hwake.accepted, hwake.bounded, hwake.writing, hwake.flushes⟩
  | flush =>
    refine ⟨hs.accepted, hs.bounded, hs.writing, fun f hf ↦ ?_⟩
    rcases List.mem_append.mp hf with hf | hf
    · exact hs.flushes f hf
    · rw [List.mem_singleton.mp hf]
      exact ⟨List.prefix_refl _, fun hplace ↦ by cases hplace⟩
  | flushReturns hf _ hqueue hwriting =>
    refine hs.set ⟨(hs.mem hf).before, fun _ ↦ ?_⟩
    rw [← hs.handed_eq hqueue (hs.writing hwriting)]
    exact (hs.mem hf).before
  | flushWaits hf => exact hs.set ((hs.mem hf).waiting _)
  | blockFlush hf => exact hs.set ((hs.mem hf).waiting _)
  | runWaits hthread => exact hs.move (by rw [hthread]; rfl)
  | exits hthread => exact hs.notifyAll.move ((congrArg (·.wake.inFlight) hthread).symm)
  | @takes record queue hthread hqueue =>
    have haccepted := hs.accepted
    have hbounded := hs.bounded
    rw [hthread, hqueue] at haccepted
    rw [hqueue] at hbounded
    refine ⟨?_, Nat.le_of_succ_le hbounded, fun hwriting ↦ absurd hwriting (by simp),
      hs.flushes⟩
    rw [haccepted, List.append_assoc, List.append_assoc]
    rfl
  | blockWriter hthread => exact hs.move (by rw [hthread]; rfl)
  | spurious => exact hs.wake _
  | @writes record outcome hthread =>
    have haccepted := hs.accepted
    rw [hthread] at haccepted
    have hs' : Records { s with thread := .wrote, handed := s.handed ++ [record] } := by
      refine ⟨?_, hs.bounded, fun _ ↦ rfl, fun f hf ↦ (hs.flushes f hf).handOver⟩
      rw [haccepted, List.append_assoc _ [record]]
      rfl
    unfold writeRecord
    split
    · exact hs'
    · split <;> exact ⟨hs'.accepted, hs'.bounded, hs'.writing, hs'.flushes⟩
  | finish hthread =>
    have hs' : Records { s with thread := .notifying } := hs.move (by rw [hthread]; rfl)
    exact ⟨hs'.accepted, hs'.bounded, fun _ ↦ rfl, hs'.flushes⟩
  | notifyAll hthread => exact hs.notifyAll.move ((congrArg (·.wake.inFlight) hthread).symm)
  | destructorNotify =>
    have hs' := hs.notifyAll
    exact ⟨hs'.accepted, hs'.bounded, hs'.writing, hs'.flushes⟩

theorem records_start (config : LogConfig) (output : Option Output) :
    Records (start config output) where
  accepted := rfl
  bounded := Nat.zero_le _
  writing _ := rfl
  flushes := fun _ h ↦ absurd h List.not_mem_nil

theorem records_of_run {config : LogConfig} {isOpen : Bool} {s₀ : LogWriter} {es : List Event}
    (hcreate : create config isOpen = .ok s₀) (hrun : s₀.run es = some s) : Records s := by
  obtain ⟨output, rfl⟩ := eq_start_of_create hcreate
  exact Machine.run_invariant (fun _ _ _ hs hstep ↦ records_of_moves hs (moves_of_step hstep))
    (records_start config output) hrun

/-! ## Counters -/

/-- What the counters hold, as long as those of the drops have room. -/
structure Counts (s : LogWriter) : Prop where
  accepted : s.accepted = .ofNat s.acceptedRecords.length
  written : ∃ n ≤ s.handed.length, s.written = .ofNat n
  counted : s.dropped ≠ .ofNat (2 ^ 64 - 1) →
    s.acceptedRecords.length + s.dropped.toNat = s.calls

/-- A counter below its largest value had room for one more. -/
theorem incrementDropped_toNat (h : s.incrementDropped.dropped ≠ .ofNat (2 ^ 64 - 1)) :
    s.dropped ≠ .ofNat (2 ^ 64 - 1) ∧ s.incrementDropped.dropped.toNat = s.dropped.toNat + 1 := by
  by_cases hd : s.dropped = .ofNat (2 ^ 64 - 1)
  · rw [incrementDropped, if_neg (not_not_intro hd)] at h
    exact absurd hd h
  · refine ⟨hd, ?_⟩
    have hne : s.dropped.toNat ≠ 2 ^ 64 - 1 := fun heq ↦ hd (UInt64.toNat_inj.mp heq)
    have hlt := s.dropped.toNat_lt
    rw [incrementDropped, if_pos hd, UInt64.toNat_add, UInt64.toNat_one]
    exact Nat.mod_eq_of_lt (by omega)

theorem Counts.drop (hs : Counts s) :
    Counts (incrementDropped { s with calls := s.calls + 1 }) := by
  refine ⟨hs.accepted, hs.written, fun h ↦ ?_⟩
  obtain ⟨hd, hone⟩ := incrementDropped_toNat h
  rw [hone, ← Nat.add_assoc]
  exact congrArg (· + 1) (hs.counted hd)

theorem counts_of_moves {e : Event} (he : e ≠ .writeRecord .threw) (hs : Counts s)
    (h : Moves s e s') : Counts s' := by
  cases h with
  | drops => exact hs.drop
  | recordDrop => exact hs.drop
  | @accepts record =>
    refine ⟨?_, hs.written, fun h ↦ ?_⟩
    · rw [List.length_append, UInt64.ofNat_add, hs.accepted]
      rfl
    · rw [List.length_append, Nat.add_right_comm]
      exact congrArg (· + 1) (hs.counted h)
  | @notifiesOne t => cases t <;> exact ⟨hs.accepted, hs.written, hs.counted⟩
  | @spurious t => cases t <;> exact ⟨hs.accepted, hs.written, hs.counted⟩
  | @writes record outcome =>
    obtain ⟨n, hn, hwritten⟩ := hs.written
    have hlength : (s.handed ++ [record]).length = s.handed.length + 1 := List.length_append
    unfold writeRecord
    split
    · exact ⟨hs.accepted, ⟨n, hlength ▸ Nat.le_succ_of_le hn, hwritten⟩, hs.counted⟩
    · split
      · refine ⟨hs.accepted, ⟨n + 1, hlength ▸ Nat.succ_le_succ hn, ?_⟩, hs.counted⟩
        rw [UInt64.ofNat_add, hwritten]
        rfl
      · exact ⟨hs.accepted, ⟨n, hlength ▸ Nat.le_succ_of_le hn, hwritten⟩, hs.counted⟩
      · exact absurd rfl he
  | _ => exact ⟨hs.accepted, hs.written, hs.counted⟩

theorem counts_start (config : LogConfig) (output : Option Output) :
    Counts (start config output) where
  accepted := rfl
  written := ⟨0, Nat.le_refl 0, rfl⟩
  counted _ := rfl

variable {config : LogConfig} {isOpen : Bool} {s₀ : LogWriter} {es : List Event}

theorem counts_of_run (hcreate : create config isOpen = .ok s₀)
    (hformat : .writeRecord .threw ∉ es) (hrun : s₀.run es = some s) : Counts s := by
  obtain ⟨output, rfl⟩ := eq_start_of_create hcreate
  refine Machine.run_invariant_on (E := (· ≠ .writeRecord .threw))
    (fun s e s' he hs hstep ↦ counts_of_moves he hs (moves_of_step hstep)) ?_
    (counts_start config output) hrun
  rintro e he rfl
  exact hformat he

/-! ## The property -/

theorem conserved_of_lt (hrecords : Records s) (hcounts : Counts s)
    (hdropped : s.dropped ≠ .ofNat (2 ^ 64 - 1)) (hlt : s.acceptedRecords.length < 2 ^ 64) :
    Conserved s := by
  have haccepted : s.accepted.toNat = s.acceptedRecords.length := by
    rw [hcounts.accepted]
    exact Nat.mod_eq_of_lt hlt
  refine ⟨?_, haccepted, hrecords.bounded, hrecords.inOrder, ?_, fun f hf ↦
    (hrecords.flushes f hf).flushed⟩
  · rw [stats, haccepted]
    exact hcounts.counted hdropped
  · obtain ⟨n, hn, hwritten⟩ := hcounts.written
    have hle : n ≤ s.acceptedRecords.length := hn.trans hrecords.inOrder.length_le
    rw [stats, UInt64.le_iff_toNat_le, haccepted, hwritten]
    exact (Nat.mod_le n _).trans hle

theorem not_conserved_of_le (hle : 2 ^ 64 ≤ s.acceptedRecords.length) : ¬Conserved s :=
  fun h ↦ absurd s.accepted.toNat_lt (Nat.not_lt.mpr (hle.trans h.accepted.ge))

/-- **Records are conserved, up to 2⁶⁴ of them.** In a run in which no formatting throws and the
counter of the drops has room, the counters count every call, the queue is bounded, and the records
are handed over in order and before `flush` reports it, if and only if fewer than 2⁶⁴ records have
been accepted. -/
theorem records_conserved_iff (hcreate : create config isOpen = .ok s₀)
    (hrun : s₀.run es = some s) (hformat : .writeRecord .threw ∉ es)
    (hdropped : s.dropped ≠ .ofNat (2 ^ 64 - 1)) :
    Conserved s ↔ s.acceptedRecords.length < 2 ^ 64 := by
  constructor
  · intro h
    by_contra hle
    exact not_conserved_of_le (Nat.not_lt.mp hle) h
  · exact conserved_of_lt (records_of_run hcreate hrun) (counts_of_run hcreate hformat hrun)
      hdropped

/-- A record is accepted, dropped for lack of the mutex, written, and flushed. -/
theorem records_conserved_iff_flushed : ∃ s₀ s, create {} true = .ok s₀ ∧
    s₀.run [.enqueue {} false, .notifyOne none, .enqueue {} true, .flush, .runCheck,
      .writeRecord .good, .finish, .flushCheck 0 true] = some s ∧ Conserved s := by
  obtain ⟨s, hrun, hdropped, hlength⟩ : ∃ s, (start {} (some .stdout)).run
      [.enqueue {} false, .notifyOne none, .enqueue {} true, .flush, .runCheck,
        .writeRecord .good, .finish, .flushCheck 0 true] = some s ∧ s.dropped = 1 ∧
      s.acceptedRecords.length = 1 := ⟨_, rfl, rfl, rfl⟩
  have hcreate : create {} true = .ok (start {} (some .stdout)) := rfl
  refine ⟨_, s, hcreate, hrun, (records_conserved_iff hcreate hrun ?_ ?_).mpr ?_⟩
  · simp
  · rw [hdropped]
    decide
  · rw [hlength]
    decide

/-! ## A run of 2⁶⁴ records -/

/-- A writer whose thread sleeps and that has done some work. -/
def idle (accepted written : UInt64) (calls : ℕ) (acceptedRecords handed : List LogRecord) :
    LogWriter :=
  { start {} (some .stdout) with
    thread := .waiting .asleep, accepted, written, calls, acceptedRecords, handed }

/-- One record, from the call to the end of its writing. -/
def cycle : List Event :=
  [.enqueue {} false, .notifyOne (some .writer), .runCheck, .writeRecord .good, .finish, .notifyAll,
    .runCheck, .block .writer]

theorem run_cycle (a w : UInt64) (n : ℕ) (accepted handed : List LogRecord) :
    (idle a w n accepted handed).run cycle =
      some (idle (a + 1) (w + 1) (n + 1) (accepted.concat {}) (handed.concat {})) := by
  rw [List.concat_eq_append, List.concat_eq_append]
  rfl

theorem exists_run_idle (n : ℕ) : ∃ es accepted handed, .writeRecord .threw ∉ es ∧
    (start {} (some .stdout)).run es = some (idle (.ofNat n) (.ofNat n) n accepted handed) ∧
    accepted.length = n := by
  induction n with
  | zero => exact ⟨[.runCheck, .block .writer], [], [], by simp, rfl, rfl⟩
  | succ n ih =>
    obtain ⟨es, accepted, handed, hformat, hrun, hlength⟩ := ih
    refine ⟨es ++ cycle, accepted.concat {}, handed.concat {}, ?_,
      Machine.run_trans hrun ?_, ?_⟩
    · rw [List.mem_append, not_or]
      exact ⟨hformat, by simp [cycle]⟩
    · rw [UInt64.ofNat_add]
      exact run_cycle _ _ n accepted handed
    · rw [List.length_concat, hlength]

/-- When 2⁶⁴ records have been accepted, the last of which is still queued, the counter of the
accepted records is at zero, below that of the written ones. -/
theorem records_not_conserved : ∃ s₀ es s, create {} true = .ok s₀ ∧ s₀.run es = some s ∧
    .writeRecord .threw ∉ es ∧ s.dropped = 0 ∧ s.acceptedRecords.length = 2 ^ 64 ∧
    s.stats.accepted < s.stats.written ∧ ¬Conserved s := by
  obtain ⟨es, accepted, handed, hformat, hrun, hlength⟩ := exists_run_idle (2 ^ 64 - 1)
  obtain ⟨s, hstep, hdropped, hrecords, haccepted, hwritten⟩ :
      ∃ s, (idle (.ofNat (2 ^ 64 - 1)) (.ofNat (2 ^ 64 - 1)) (2 ^ 64 - 1) accepted handed).run
        [.enqueue {} false] = some s ∧ s.dropped = 0 ∧
        s.acceptedRecords = accepted ++ [({} : LogRecord)] ∧
        s.accepted = .ofNat (2 ^ 64 - 1) + 1 ∧ s.written = .ofNat (2 ^ 64 - 1) :=
    ⟨_, rfl, rfl, rfl, rfl, rfl⟩
  have hlt : s.stats.accepted < s.stats.written := by
    change s.accepted < s.written
    rw [haccepted, hwritten]
    decide
  have hrun' := Machine.run_trans hrun hstep
  refine ⟨_, _, s, rfl, hrun', ?_, hdropped, ?_, hlt, fun h ↦ ?_⟩
  · rw [List.mem_append, not_or]
    exact ⟨hformat, by simp⟩
  · rw [hrecords, List.length_append, hlength, List.length_singleton]
    omega
  · exact absurd hlt (UInt64.not_lt.mpr h.written)

end LogWriter

end Aevox
