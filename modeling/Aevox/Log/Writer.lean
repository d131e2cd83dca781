import Aevox.Bytes
import Aevox.Library.Machine
import Mathlib.Data.UInt

/-!
# The log writer

Callers put records into a bounded queue, and a thread of its own takes them out and writes them.
A mutex guards the queue, and one condition variable serves everybody: the writer thread waits on it
for a record, a caller of `flush` waits on it until everything has been written.

A wait has three parts: the predicate is evaluated with the mutex locked; if it is false, the thread
joins the waiters and releases the mutex in one step; a thread that has been woken evaluates its
predicate again. Between the first two the thread holds the mutex, but who does not need the mutex
may act: a caller about to notify, and the destructor. Every other section under the mutex is one
step, and so is each access to a counter and each notification.

A call keeps the writer alive, so that the destructor begins when no call is under way.
-/

namespace Aevox

/-- How severe a record is. -/
inductive LogLevel where
  | trace
  | debug
  | info
  | warn
  | error
  | fatal
  deriving DecidableEq

/-- The level as the number it is stored as. -/
def LogLevel.toUInt8 : LogLevel → UInt8
  | trace => 0
  | debug => 1
  | info => 2
  | warn => 3
  | error => 4
  | fatal => 5

inductive LogDestination where
  | stdout
  | stderr
  | file
  | disabled
  deriving DecidableEq

inductive LogError where
  | filePathRequired
  | fileOpenFailed
  | flushFailed
  deriving DecidableEq

structure LogConfig where
  enabled : Bool := true
  level : LogLevel := .info
  destination : LogDestination := .stdout
  filePath : Option Bytes := none
  queueCapacity : UInt32 := 8192

structure LogRequestFields where
  requestId : Bytes
  method : Bytes
  path : Bytes
  traceId : Bytes
  spanId : Bytes
  deriving DecidableEq

/-- A record, with its time and its duration in microseconds. -/
structure LogRecord where
  timestamp : ℤ := 0
  level : LogLevel := .info
  message : Bytes := []
  request : Option LogRequestFields := none
  statusCode : Option ℤ := none
  duration : Option ℤ := none
  deriving DecidableEq

structure LogStats where
  accepted : UInt64
  dropped : UInt64
  written : UInt64

namespace LogWriter

/-- The stream behind `output_`. -/
inductive Output where
  | stdout
  | stderr
  | file
  deriving DecidableEq

/-- Where a thread is in `cv_.wait`. -/
inductive Wait where
  /-- It has not evaluated its predicate since it came or was woken. -/
  | checking
  /-- It has found its predicate false, and holds the mutex. -/
  | blocking
  /-- It is one of the waiters. -/
  | asleep
  deriving DecidableEq

/-- Where the thread is in `run`. -/
inductive RunAt where
  | waiting (w : Wait)
  /-- It has taken a record, and `write_record` comes next. -/
  | writing (record : LogRecord)
  | wrote
  /-- `writing_` is false again, and `notify_all` comes next. -/
  | notifying
  | exited
  deriving DecidableEq

/-- Where a call is in `flush`. -/
inductive FlushAt where
  | waiting (w : Wait)
  | returned (error : Option LogError)
  deriving DecidableEq

/-- A call of `flush`, with the records that had been accepted when it began. -/
structure Flush where
  place : FlushAt
  before : List LogRecord

/-- Where the destructor is. -/
inductive DestructorAt where
  | notBegun
  /-- Stop is requested, and `notify_all` comes next. -/
  | stopping
  | joining
  | joined
  deriving DecidableEq

/-- Who may wait. -/
inductive Party where
  | writer
  | flush (k : ℕ)
  deriving DecidableEq

end LogWriter

/-- A log writer with its thread and the calls made to it. What has been accepted, what has been
handed to `write_record`, and the number of calls are kept as history. -/
structure LogWriter where
  config : LogConfig
  output : Option LogWriter.Output
  queue : List LogRecord
  writing : Bool
  accepted : UInt64
  dropped : UInt64
  written : UInt64
  thread : LogWriter.RunAt
  destructor : LogWriter.DestructorAt
  /-- The calls of `enqueue` that have unlocked the mutex and not notified yet. -/
  notifying : ℕ
  flushes : List LogWriter.Flush
  calls : ℕ
  acceptedRecords : List LogRecord
  handed : List LogRecord

namespace LogWriter

/-- How formatting a record and writing it ends. -/
inductive Outcome where
  | good
  | bad
  | threw
  deriving DecidableEq

/-- What can happen next. -/
inductive Event where
  | enqueue (record : LogRecord) (contended : Bool)
  /-- A call of `enqueue` notifies one of the waiters, if there are any. -/
  | notifyOne (woken : Option Party)
  | recordDrop
  /-- A call of `flush` begins. -/
  | flush
  /-- A call of `flush` evaluates its predicate, and flushes the stream if it is true. -/
  | flushCheck (k : ℕ) (good : Bool)
  /-- The thread evaluates its predicate, and goes on if it is true. -/
  | runCheck
  | block (t : Party)
  /-- A waiter wakes without having been notified. -/
  | spurious (t : Party)
  | writeRecord (outcome : Outcome)
  /-- The thread sets `writing_` to false. -/
  | finish
  | notifyAll
  | requestStop
  | destructorNotify
  | join
  deriving DecidableEq

/-- `normalized_capacity` -/
def normalizedCapacity (capacity : UInt32) : UInt32 := if capacity = 0 then 1 else capacity

/-- `open_destination`, with the stream it leaves in `output_`. Whether the file can be opened is up
to the system. -/
def openDestination (config : LogConfig) (isOpen : Bool) : Except LogError (Option Output) :=
  match config.destination with
  | .stdout => .ok (some .stdout)
  | .stderr => .ok (some .stderr)
  | .disabled => .ok none
  | .file =>
    if config.filePath.all List.isEmpty then .error .filePathRequired
    else if isOpen then .ok (some .file)
    else .error .fileOpenFailed

/-- A new writer, whose thread has just started. -/
def start (config : LogConfig) (output : Option Output) : LogWriter where
  config := { config with queueCapacity := normalizedCapacity config.queueCapacity }
  output := output
  queue := []
  writing := false
  accepted := 0
  dropped := 0
  written := 0
  thread := .waiting .checking
  destructor := .notBegun
  notifying := 0
  flushes := []
  calls := 0
  acceptedRecords := []
  handed := []

/-- `create` -/
def create (config : LogConfig) (isOpen : Bool) : Except LogError LogWriter :=
  (openDestination config isOpen).map (start config)

/-- `stats` -/
def stats (s : LogWriter) : LogStats := ⟨s.accepted, s.dropped, s.written⟩

/-- `accepts` -/
def accepts (s : LogWriter) (level : LogLevel) : Bool :=
  s.config.enabled && s.config.destination ≠ .disabled &&
    s.config.level.toUInt8 ≤ level.toUInt8

/-- `increment_dropped` -/
def incrementDropped (s : LogWriter) : LogWriter :=
  { s with dropped := if s.dropped ≠ .ofNat (2 ^ 64 - 1) then s.dropped + 1 else s.dropped }

/-- `enqueue`, up to the notification. -/
def enqueue (s : LogWriter) (record : LogRecord) (contended : Bool) : LogWriter :=
  if !s.accepts record.level then s.incrementDropped
  else if contended then s.incrementDropped
  else if s.config.queueCapacity.toNat ≤ s.queue.length then s.incrementDropped
  else { s with
    queue := s.queue ++ [record]
    accepted := s.accepted + 1
    notifying := s.notifying + 1
    acceptedRecords := s.acceptedRecords ++ [record] }

/-- `write_record` -/
def writeRecord (s : LogWriter) (outcome : Outcome) : LogWriter :=
  match s.output with
  | none => s
  | some _ =>
    match outcome with
    | .good => { s with written := s.written + 1 }
    | .bad => s
    | .threw => s.incrementDropped

/-- A thread between its predicate and its sleep holds the mutex. -/
def locked (s : LogWriter) : Bool :=
  s.thread = .waiting .blocking || s.flushes.any (·.place = .waiting .blocking)

/-- The party is one of the waiters. -/
def isAsleep (s : LogWriter) : Party → Bool
  | .writer => s.thread = .waiting .asleep
  | .flush k => (s.flushes[k]?).any (·.place = .waiting .asleep)

/-- Somebody waits. -/
def anyAsleep (s : LogWriter) : Bool :=
  s.thread = .waiting .asleep || s.flushes.any (·.place = .waiting .asleep)

/-- Who sleeps evaluates its predicate again. -/
def RunAt.wake : RunAt → RunAt
  | waiting .asleep => waiting .checking
  | place => place

def FlushAt.wake : FlushAt → FlushAt
  | waiting .asleep => waiting .checking
  | place => place

/-- One waiter is woken. -/
def wake (s : LogWriter) : Party → LogWriter
  | .writer => { s with thread := s.thread.wake }
  | .flush k => { s with flushes := s.flushes.modify k fun f ↦ { f with place := f.place.wake } }

/-- `cv_.notify_all` -/
def notifyAll (s : LogWriter) : LogWriter :=
  { s with
    thread := s.thread.wake
    flushes := s.flushes.map fun f ↦ { f with place := f.place.wake } }

/-- The section of `run` that begins with the wait. -/
def runCheck (s : LogWriter) : LogWriter :=
  match s.queue with
  | [] =>
    if s.destructor = .notBegun then { s with thread := .waiting .blocking }
    else { s.notifyAll with thread := .exited }
  | record :: queue => { s with queue, writing := true, thread := .writing record }

/-- The section of `flush`, which is all of it. -/
def flushCheck (s : LogWriter) (f : Flush) (good : Bool) : Flush :=
  if s.queue = [] ∧ s.writing = false then
    let error := if s.output.isSome ∧ good = false then some .flushFailed else none
    { f with place := .returned error }
  else { f with place := .waiting .blocking }

/-- No call is under way. -/
def unused (s : LogWriter) : Bool :=
  s.notifying = 0 && s.flushes.all fun f ↦ match f.place with
    | .waiting _ => false
    | .returned _ => true

/-- What happens, if it can. -/
def step (s : LogWriter) : Event → Option LogWriter
  | .enqueue record contended =>
    if s.destructor = .notBegun ∧ (s.locked → contended) then
      some (enqueue { s with calls := s.calls + 1 } record contended)
    else none
  | .notifyOne none =>
    if 0 < s.notifying ∧ s.anyAsleep = false then some { s with notifying := s.notifying - 1 }
    else none
  | .notifyOne (some t) =>
    if 0 < s.notifying ∧ s.isAsleep t then some { s.wake t with notifying := s.notifying - 1 }
    else none
  | .recordDrop =>
    if s.destructor = .notBegun then some (incrementDropped { s with calls := s.calls + 1 })
    else none
  | .flush =>
    if s.destructor = .notBegun then
      some { s with flushes := s.flushes ++ [⟨.waiting .checking, s.acceptedRecords⟩] }
    else none
  | .flushCheck k good =>
    match s.flushes[k]? with
    | none => none
    | some f =>
      if f.place = .waiting .checking ∧ s.locked = false then
        some { s with flushes := s.flushes.set k (s.flushCheck f good) }
      else none
  | .runCheck =>
    if s.thread = .waiting .checking ∧ s.locked = false then some s.runCheck else none
  | .block .writer =>
    if s.thread = .waiting .blocking then some { s with thread := .waiting .asleep } else none
  | .block (.flush k) =>
    match s.flushes[k]? with
    | none => none
    | some f =>
      if f.place = .waiting .blocking then
        some { s with flushes := s.flushes.set k { f with place := .waiting .asleep } }
      else none
  | .spurious t => if s.isAsleep t then some (s.wake t) else none
  | .writeRecord outcome =>
    match s.thread with
    | .writing record =>
      some { s.writeRecord outcome with thread := .wrote, handed := s.handed ++ [record] }
    | _ => none
  | .finish =>
    if s.thread = .wrote ∧ s.locked = false then
      some { s with writing := false, thread := .notifying }
    else none
  | .notifyAll =>
    if s.thread = .notifying then some { s.notifyAll with thread := .waiting .checking } else none
  | .requestStop =>
    if s.destructor = .notBegun ∧ s.unused then some { s with destructor := .stopping } else none
  | .destructorNotify =>
    if s.destructor = .stopping then some { s.notifyAll with destructor := .joining } else none
  | .join =>
    if s.destructor = .joining ∧ s.thread = .exited then some { s with destructor := .joined }
    else none

/-- The state after a sequence of events. -/
def run (s : LogWriter) (es : List Event) : Option LogWriter := Machine.run step s es

/-- Somebody is about to notify. -/
def WillNotify (s : LogWriter) : Prop :=
  0 < s.notifying ∨ s.destructor = .stopping ∨ s.thread = .notifying

/-! ## What a step does -/

variable {s s' : LogWriter}

/-- **What a step does**, event by event. -/
inductive Moves (s : LogWriter) : Event → LogWriter → Prop
  | drops {record contended} (hbegun : s.destructor = .notBegun) :
    Moves s (.enqueue record contended) (incrementDropped { s with calls := s.calls + 1 })
  | accepts {record} (hbegun : s.destructor = .notBegun) (hlocked : s.locked = false)
    (hlength : s.queue.length < s.config.queueCapacity.toNat) :
    Moves s (.enqueue record false) { s with
      calls := s.calls + 1
      queue := s.queue ++ [record]
      accepted := s.accepted + 1
      notifying := s.notifying + 1
      acceptedRecords := s.acceptedRecords ++ [record] }
  | notifiesNobody (hnotifying : 0 < s.notifying) (hnobody : s.anyAsleep = false) :
    Moves s (.notifyOne none) { s with notifying := s.notifying - 1 }
  | notifiesOne {t} (hnotifying : 0 < s.notifying) (ht : s.isAsleep t = true) :
    Moves s (.notifyOne (some t)) { s.wake t with notifying := s.notifying - 1 }
  | recordDrop (hbegun : s.destructor = .notBegun) :
    Moves s .recordDrop (incrementDropped { s with calls := s.calls + 1 })
  | flush (hbegun : s.destructor = .notBegun) : Moves s .flush
      { s with flushes := s.flushes ++ [⟨.waiting .checking, s.acceptedRecords⟩] }
  | flushReturns {k f good error} (hf : s.flushes[k]? = some f)
    (hplace : f.place = .waiting .checking) (hqueue : s.queue = []) (hwriting : s.writing = false) :
    Moves s (.flushCheck k good)
      { s with flushes := s.flushes.set k { f with place := .returned error } }
  | flushWaits {k f good} (hf : s.flushes[k]? = some f) (hplace : f.place = .waiting .checking) :
    Moves s (.flushCheck k good)
      { s with flushes := s.flushes.set k { f with place := .waiting .blocking } }
  | runWaits (hthread : s.thread = .waiting .checking) (hqueue : s.queue = [])
    (hbegun : s.destructor = .notBegun) :
    Moves s .runCheck { s with thread := .waiting .blocking }
  | exits (hthread : s.thread = .waiting .checking) (hqueue : s.queue = [])
    (hbegun : s.destructor ≠ .notBegun) :
    Moves s .runCheck { s.notifyAll with thread := .exited }
  | takes {record queue} (hthread : s.thread = .waiting .checking)
    (hqueue : s.queue = record :: queue) :
    Moves s .runCheck { s with queue, writing := true, thread := .writing record }
  | blockWriter (hthread : s.thread = .waiting .blocking) :
    Moves s (.block .writer) { s with thread := .waiting .asleep }
  | blockFlush {k f} (hf : s.flushes[k]? = some f) (hplace : f.place = .waiting .blocking) :
    Moves s (.block (.flush k))
      { s with flushes := s.flushes.set k { f with place := .waiting .asleep } }
  | spurious {t} (ht : s.isAsleep t = true) : Moves s (.spurious t) (s.wake t)
  | writes {record outcome} (hthread : s.thread = .writing record) :
    Moves s (.writeRecord outcome)
      { s.writeRecord outcome with thread := .wrote, handed := s.handed ++ [record] }
  | finish (hthread : s.thread = .wrote) :
    Moves s .finish { s with writing := false, thread := .notifying }
  | notifyAll (hthread : s.thread = .notifying) :
    Moves s .notifyAll { s.notifyAll with thread := .waiting .checking }
  | requestStop (hbegun : s.destructor = .notBegun) (hunused : s.unused = true) :
    Moves s .requestStop { s with destructor := .stopping }
  | destructorNotify (hstopping : s.destructor = .stopping) :
    Moves s .destructorNotify { s.notifyAll with destructor := .joining }
  | join (hjoining : s.destructor = .joining) (hthread : s.thread = .exited) :
    Moves s .join { s with destructor := .joined }

theorem moves_enqueue {record : LogRecord} {contended : Bool}
    (hbegun : s.destructor = .notBegun) (hlocked : s.locked → contended) :
    Moves s (.enqueue record contended)
      (enqueue { s with calls := s.calls + 1 } record contended) := by
  unfold enqueue
  split
  · exact .drops hbegun
  · split
    · exact .drops hbegun
    next hfree =>
      split
      · exact .drops hbegun
      next hlength =>
        obtain rfl : contended = false := Bool.eq_false_iff.mpr hfree
        exact .accepts hbegun (Bool.eq_false_iff.mpr fun h ↦ hfree (hlocked h))
          (Nat.lt_of_not_le hlength)

theorem moves_runCheck (hthread : s.thread = .waiting .checking) :
    Moves s .runCheck s.runCheck := by
  unfold runCheck
  split
  next hqueue =>
    split
    · exact .runWaits hthread hqueue ‹_›
    · exact .exits hthread hqueue ‹_›
  next hqueue => exact .takes hthread hqueue

theorem moves_flushCheck {k : ℕ} {f : Flush} {good : Bool} (hf : s.flushes[k]? = some f)
    (hplace : f.place = .waiting .checking) :
    Moves s (.flushCheck k good) { s with flushes := s.flushes.set k (s.flushCheck f good) } := by
  unfold flushCheck
  split
  next h => exact .flushReturns hf hplace h.1 h.2
  · exact .flushWaits hf hplace

theorem moves_of_step {e : Event} (h : s.step e = some s') : Moves s e s' := by
  cases e with
  | enqueue record contended =>
    rw [step] at h
    split at h <;> cases h
    next hguard => exact moves_enqueue hguard.1 hguard.2
  | notifyOne woken =>
    cases woken with
    | none =>
      rw [step] at h
      split at h <;> cases h
      next hguard => exact .notifiesNobody hguard.1 hguard.2
    | some t =>
      rw [step] at h
      split at h <;> cases h
      next hguard => exact .notifiesOne hguard.1 hguard.2
  | recordDrop =>
    rw [step] at h
    split at h <;> cases h
    exact .recordDrop ‹_›
  | flush =>
    rw [step] at h
    split at h <;> cases h
    exact .flush ‹_›
  | flushCheck k good =>
    rw [step] at h
    split at h
    · cases h
    · split at h <;> cases h
      next hguard => exact moves_flushCheck ‹_› hguard.1
  | runCheck =>
    rw [step] at h
    split at h <;> cases h
    next hguard => exact moves_runCheck hguard.1
  | block t =>
    cases t with
    | writer =>
      rw [step] at h
      split at h <;> cases h
      exact .blockWriter ‹_›
    | flush k =>
      rw [step] at h
      split at h
      · cases h
      · split at h <;> cases h
        exact .blockFlush ‹_› ‹_›
  | spurious t =>
    rw [step] at h
    split at h <;> cases h
    exact .spurious ‹_›
  | writeRecord outcome =>
    rw [step] at h
    split at h <;> cases h
    exact .writes ‹_›
  | finish =>
    rw [step] at h
    split at h <;> cases h
    next hguard => exact .finish hguard.1
  | notifyAll =>
    rw [step] at h
    split at h <;> cases h
    exact .notifyAll ‹_›
  | requestStop =>
    rw [step] at h
    split at h <;> cases h
    next hguard => exact .requestStop hguard.1 hguard.2
  | destructorNotify =>
    rw [step] at h
    split at h <;> cases h
    exact .destructorNotify ‹_›
  | join =>
    rw [step] at h
    split at h <;> cases h
    next hguard => exact .join hguard.1 hguard.2

/-! ## Waking -/

theorem RunAt.wake_ne (place : RunAt) : place.wake ≠ .waiting .asleep := by
  cases place with
  | waiting w => cases w <;> simp [RunAt.wake]
  | _ => simp [RunAt.wake]

/-- Waking leads nowhere but to the predicate. -/
theorem RunAt.eq_of_wake_eq {place place' : RunAt} (h : place.wake = place')
    (hplace' : place' ≠ .waiting .checking) : place = place' := by
  subst h
  cases place with
  | waiting w =>
    cases w with
    | asleep => exact absurd rfl hplace'
    | _ => rfl
  | _ => rfl

/-! ## The destructor and the calls -/

theorem eq_start_of_create {config : LogConfig} {isOpen : Bool}
    (h : create config isOpen = .ok s) : ∃ output, s = start config output := by
  rw [create] at h
  cases houtput : openDestination config isOpen with
  | error e =>
    rw [houtput] at h
    cases h
  | ok output =>
    rw [houtput] at h
    exact ⟨output, (Except.ok.inj h).symm⟩

/-- Once the destructor has begun, no call of `enqueue` is about to notify. -/
theorem inUse_of_moves {e : Event} (hs : 0 < s.notifying → s.destructor = .notBegun)
    (h : Moves s e s') : 0 < s'.notifying → s'.destructor = .notBegun := by
  cases h with
  | drops hbegun => exact fun _ ↦ hbegun
  | accepts hbegun => exact fun _ ↦ hbegun
  | notifiesNobody hnotifying => exact fun _ ↦ hs hnotifying
  | @notifiesOne t hnotifying =>
    cases t <;> exact fun _ ↦ hs hnotifying
  | recordDrop hbegun => exact fun _ ↦ hbegun
  | flush hbegun => exact fun _ ↦ hbegun
  | @spurious t =>
    cases t <;> exact hs
  | @writes record outcome =>
    unfold writeRecord
    split
    · exact hs
    · split <;> exact hs
  | requestStop _ hunused =>
    intro hnotifying
    rw [unused, Bool.and_eq_true, decide_eq_true_iff] at hunused
    exact absurd hunused.1 hnotifying.ne'
  | destructorNotify hstopping =>
    exact fun hnotifying ↦ absurd (hs hnotifying) (by simp [hstopping])
  | join hjoining => exact fun hnotifying ↦ absurd (hs hnotifying) (by simp [hjoining])
  | _ => exact hs

theorem inUse_of_run {es : List Event} {config : LogConfig} {isOpen : Bool} {s₀ : LogWriter}
    (hcreate : create config isOpen = .ok s₀) (hrun : s₀.run es = some s) :
    0 < s.notifying → s.destructor = .notBegun := by
  obtain ⟨output, rfl⟩ := eq_start_of_create hcreate
  exact Machine.run_invariant (I := fun s ↦ 0 < s.notifying → s.destructor = .notBegun)
    (fun _ _ _ hs hstep ↦ inUse_of_moves hs (moves_of_step hstep)) (fun _ ↦ rfl) hrun

end LogWriter

end Aevox
