import Aevox.WebSocket.Interleaving

/-!
# The send queue, access by access

A closure of the strand starts `drain_send_queue` when nobody drains the queue, and the coroutine
runs inside that closure until its first write suspends it. A completed write resumes it on the I/O
pool. From there on it runs beside the strand: the closures that push frames and test `sending_`,
and the coroutine that takes frames and clears `sending_`, alternate access by access. `drain` names
the coroutines that have been started and not returned yet, however many there are; that there is
never more than one (`Single`) is the work of `sending_`.

Taking the front frame moves it out and leaves an empty vector in its place until `pop_front`. A
frame that is pushed to the front in between is what `pop_front` removes. `trace` is what has been
handed to the stream, followed by what is still to come; what a step can do to it and to the frames
that have entered the queue is said once (`Traced`).
-/

namespace Aevox

open Coroutine

namespace Session

/-- Where the strand is in the closure that it runs. -/
inductive StrandAt where
  | idle
  /-- Before the tests of the closure, or of what is left of it. -/
  | entered (p : Posted)
  /-- Before `push_back`. -/
  | pushing (frame : Bytes)
  /-- Before the test of `sending_`. -/
  | pushed
  /-- Before `sending_ = true`. -/
  | starting
  /-- In `ff_drain_queue`. -/
  | draining

/-- Where a `drain_send_queue` is. -/
inductive DrainAt where
  /-- Before `send_queue_.empty()`. -/
  | testing
  /-- Before it moves the front frame out. -/
  | taking
  /-- Before `pop_front`. -/
  | popping (frame : Bytes)
  /-- Before it hands the frame to the stream. -/
  | writing (frame : Bytes)
  /-- Until the write has completed. -/
  | suspended (frame : Bytes)
  /-- Before `closed_` is set, after a write error. -/
  | failed
  /-- Before `send_queue_.clear()`. -/
  | clearing
  /-- Before `sending_ = false`. -/
  | leaving
  deriving DecidableEq

/-- A coroutine `drain_send_queue`. It runs on the strand as long as the closure that has started it
waits for it. -/
structure Drain where
  stage : DrainAt
  onStrand : Bool
  deriving DecidableEq

/-- The frame that the coroutine has taken and not handed over yet. -/
def DrainAt.held : DrainAt → List Bytes
  | popping frame => [frame]
  | writing frame => [frame]
  | _ => []

def DrainAt.isPopping : DrainAt → Bool
  | popping _ => true
  | _ => false

/-- The coroutine is about to access the front of the queue. -/
def DrainAt.touchesFront : DrainAt → Bool
  | taking => true
  | popping _ => true
  | _ => false

/-- The coroutine has seen a write fail. -/
def DrainAt.afterFailure : DrainAt → Bool
  | failed => true
  | clearing => true
  | _ => false

end Session

/-- A session with its parties, the strand and the coroutines that drain the send queue; the frames
that have been handed to the stream, and whether a write has failed. -/
structure Draining (ι : Type) where
  inner : Session.State ι
  task : Session.StrandAt
  drains : List Session.Drain
  handed : List Bytes
  writeFailed : Bool

namespace Draining

open Session

/-- What can happen next. -/
inductive Event (ι : Type) where
  /-- The read loop or a caller moves. -/
  | party (e : Session.Event ι)
  /-- The strand goes on with its closure, or takes the next one. -/
  | strand
  /-- A `drain_send_queue` goes on. -/
  | drain (i : ℕ)
  /-- A write completes, and resumes the coroutine. -/
  | written (i : ℕ) (success : Bool)

variable {ι : Type}

/-- The session itself. -/
abbrev session (s : Draining ι) : Session := s.inner.session

/-- An access to the session. -/
def modify (s : Draining ι) (session : Session) : Draining ι :=
  { s with inner := { s.inner with session } }

/-- A new session. -/
def start : Draining ι where
  inner := State.start
  task := .idle
  drains := []
  handed := []
  writeFailed := false

/-- Whether the event is one of the read loop or of a caller. -/
def isParty : Session.Event ι → Bool
  | .read _ => true
  | .call _ _ => true
  | .turn _ _ => true
  | _ => false

/-- `push_back`, or `push_front` -/
def push (s : Draining ι) (frame : Bytes) (queue : List Bytes) : Draining ι :=
  { s.modify { s.session with sendQueue := queue, entered := s.session.entered ++ [frame] } with
    task := .pushed }

/-- The strand's next access. -/
def strandStep (s : Draining ι) : Option (Draining ι) :=
  match s.task with
  | .idle =>
    match s.session.strand with
    | [] => none
    | p :: rest => some { s.modify { s.session with strand := rest } with task := .entered p }
  | .entered (.bus message) =>
    if s.session.closed then some { s with task := .idle }
    else some { s with task := .entered (.frame (emitFrame .text true message)) }
  | .entered (.frame frame) =>
    if s.session.sendQueue.length ≥ kMaxSendQueueDepth then some { s with task := .idle }
    else some { s with task := .pushing frame }
  | .entered (.priority frame) => some (s.push frame (frame :: s.session.sendQueue))
  | .pushing frame => some (s.push frame (s.session.sendQueue ++ [frame]))
  | .pushed =>
    if s.session.sending then some { s with task := .idle } else some { s with task := .starting }
  | .starting =>
    some { s.modify { s.session with sending := true } with
      task := .draining, drains := s.drains ++ [⟨.testing, true⟩] }
  | .draining => none

/-- The coroutine is at another stage. -/
def setStage (s : Draining ι) (i : ℕ) (d : Drain) (stage : DrainAt) : Draining ι :=
  { s with drains := s.drains.set i { d with stage } }

/-- The closure that has started the coroutine ends. -/
def Drain.release (d : Drain) (task : StrandAt) : StrandAt := if d.onStrand then .idle else task

/-- `stream_.write`. A write of nothing does not suspend. -/
def hand (s : Draining ι) (i : ℕ) (d : Drain) (frame : Bytes) : Draining ι :=
  if frame = [] then { s.setStage i d .testing with handed := s.handed ++ [frame] }
  else { s with
    drains := s.drains.set i ⟨.suspended frame, false⟩
    handed := s.handed ++ [frame]
    task := Drain.release d s.task }

/-- The next access of a `drain_send_queue`. -/
def drainStep (s : Draining ι) (i : ℕ) (d : Drain) : Option (Draining ι) :=
  match d.stage with
  | .testing => some (s.setStage i d (if s.session.sendQueue = [] then .leaving else .taking))
  | .taking =>
    match s.session.sendQueue with
    | [] => none
    | frame :: queue =>
      some ((s.modify { s.session with sendQueue := [] :: queue }).setStage i d (.popping frame))
  | .popping frame =>
    match s.session.sendQueue with
    | [] => none
    | _ :: queue =>
      some ((s.modify { s.session with sendQueue := queue }).setStage i d (.writing frame))
  | .writing frame => some (s.hand i d frame)
  | .suspended _ => none
  | .failed => some ((s.modify { s.session with closed := true }).setStage i d .clearing)
  | .clearing => some ((s.modify { s.session with sendQueue := [] }).setStage i d .leaving)
  | .leaving =>
    some { s.modify { s.session with sending := false } with
      drains := s.drains.eraseIdx i, task := Drain.release d s.task }

/-- What happens, if it can. -/
def step [DecidableEq ι] (maxPayload : ℕ) (s : Draining ι) : Event ι → Option (Draining ι)
  | .party e =>
    if isParty e then (s.inner.step maxPayload e).map fun inner ↦ { s with inner } else none
  | .strand => s.strandStep
  | .drain i => s.drains[i]?.bind (s.drainStep i)
  | .written i success =>
    s.drains[i]?.bind fun d ↦
      match d.stage with
      | .suspended _ =>
        some { s.setStage i d (if success then .testing else .failed) with
          writeFailed := s.writeFailed || !success }
      | _ => none

/-- The state after a sequence of events. -/
def run [DecidableEq ι] (maxPayload : ℕ) (s : Draining ι) (es : List (Event ι)) :
    Option (Draining ι) :=
  Machine.run (step maxPayload) s es

/-! ## What a step does -/

/-- **What a step does**, access by access. -/
inductive Moves [DecidableEq ι] (maxPayload : ℕ) (s : Draining ι) : Event ι → Draining ι → Prop
  | party {e inner} (hparty : isParty e = true) (h : s.inner.step maxPayload e = some inner) :
    Moves maxPayload s (.party e) { s with inner }
  | next {p rest} (htask : s.task = .idle) (h : s.session.strand = p :: rest) :
    Moves maxPayload s .strand
      { s.modify { s.session with strand := rest } with task := .entered p }
  | closed {message} (htask : s.task = .entered (.bus message)) :
    Moves maxPayload s .strand { s with task := .idle }
  | emit {message} (htask : s.task = .entered (.bus message)) :
    Moves maxPayload s .strand
      { s with task := .entered (.frame (emitFrame .text true message)) }
  | full {frame} (htask : s.task = .entered (.frame frame)) :
    Moves maxPayload s .strand { s with task := .idle }
  | room {frame} (htask : s.task = .entered (.frame frame)) :
    Moves maxPayload s .strand { s with task := .pushing frame }
  | pushFront {frame} (htask : s.task = .entered (.priority frame)) :
    Moves maxPayload s .strand (s.push frame (frame :: s.session.sendQueue))
  | pushBack {frame} (htask : s.task = .pushing frame) :
    Moves maxPayload s .strand (s.push frame (s.session.sendQueue ++ [frame]))
  | busy (htask : s.task = .pushed) (h : s.session.sending = true) :
    Moves maxPayload s .strand { s with task := .idle }
  | alone (htask : s.task = .pushed) (h : s.session.sending = false) :
    Moves maxPayload s .strand { s with task := .starting }
  | start (htask : s.task = .starting) :
    Moves maxPayload s .strand { s.modify { s.session with sending := true } with
      task := .draining, drains := s.drains ++ [⟨.testing, true⟩] }
  | empty {i d} (hd : s.drains[i]? = some d) (hstage : d.stage = .testing)
      (h : s.session.sendQueue = []) : Moves maxPayload s (.drain i) (s.setStage i d .leaving)
  | more {i d} (hd : s.drains[i]? = some d) (hstage : d.stage = .testing)
      (h : s.session.sendQueue ≠ []) : Moves maxPayload s (.drain i) (s.setStage i d .taking)
  | take {i d frame queue} (hd : s.drains[i]? = some d) (hstage : d.stage = .taking)
      (h : s.session.sendQueue = frame :: queue) : Moves maxPayload s (.drain i)
        ((s.modify { s.session with sendQueue := [] :: queue }).setStage i d (.popping frame))
  | pop {i d frame front queue} (hd : s.drains[i]? = some d) (hstage : d.stage = .popping frame)
      (h : s.session.sendQueue = front :: queue) : Moves maxPayload s (.drain i)
        ((s.modify { s.session with sendQueue := queue }).setStage i d (.writing frame))
  | hand {i d frame} (hd : s.drains[i]? = some d) (hstage : d.stage = .writing frame) :
    Moves maxPayload s (.drain i) (s.hand i d frame)
  | fail {i d} (hd : s.drains[i]? = some d) (hstage : d.stage = .failed) :
    Moves maxPayload s (.drain i)
      ((s.modify { s.session with closed := true }).setStage i d .clearing)
  | clear {i d} (hd : s.drains[i]? = some d) (hstage : d.stage = .clearing) :
    Moves maxPayload s (.drain i)
      ((s.modify { s.session with sendQueue := [] }).setStage i d .leaving)
  | leave {i d} (hd : s.drains[i]? = some d) (hstage : d.stage = .leaving) :
    Moves maxPayload s (.drain i) { s.modify { s.session with sending := false } with
      drains := s.drains.eraseIdx i, task := Drain.release d s.task }
  | written {i d frame success} (hd : s.drains[i]? = some d)
      (hstage : d.stage = .suspended frame) : Moves maxPayload s (.written i success)
        { s.setStage i d (if success then .testing else .failed) with
          writeFailed := s.writeFailed || !success }

variable [DecidableEq ι] {maxPayload : ℕ}

theorem moves_of_strandStep {s s' : Draining ι} (h : s.strandStep = some s') :
    Moves maxPayload s .strand s' := by
  unfold strandStep at h
  split at h
  · split at h
    · exact nomatch h
    · rw [← Option.some.inj h]
      exact .next ‹_› ‹_›
  · split at h
    · rw [← Option.some.inj h]
      exact .closed ‹_›
    · rw [← Option.some.inj h]
      exact .emit ‹_›
  · split at h
    · rw [← Option.some.inj h]
      exact .full ‹_›
    · rw [← Option.some.inj h]
      exact .room ‹_›
  · rw [← Option.some.inj h]
    exact .pushFront ‹_›
  · rw [← Option.some.inj h]
    exact .pushBack ‹_›
  · split at h
    · rw [← Option.some.inj h]
      exact .busy ‹_› ‹_›
    · rw [← Option.some.inj h]
      exact .alone ‹_› (Bool.not_eq_true _ ▸ ‹¬s.session.sending = true›)
  · rw [← Option.some.inj h]
    exact .start ‹_›
  · exact nomatch h

theorem moves_of_drainStep {s s' : Draining ι} {i : ℕ} {d : Drain} (hd : s.drains[i]? = some d)
    (h : s.drainStep i d = some s') : Moves maxPayload s (.drain i) s' := by
  unfold drainStep at h
  split at h
  · rw [← Option.some.inj h]
    split
    · exact .empty hd ‹_› ‹_›
    · exact .more hd ‹_› ‹_›
  · split at h
    · exact nomatch h
    · rw [← Option.some.inj h]
      exact .take hd ‹_› ‹_›
  · split at h
    · exact nomatch h
    · rw [← Option.some.inj h]
      exact .pop hd ‹_› ‹_›
  · rw [← Option.some.inj h]
    exact .hand hd ‹_›
  · exact nomatch h
  · rw [← Option.some.inj h]
    exact .fail hd ‹_›
  · rw [← Option.some.inj h]
    exact .clear hd ‹_›
  · rw [← Option.some.inj h]
    exact .leave hd ‹_›

theorem moves_of_step {s s' : Draining ι} {e : Event ι} (h : s.step maxPayload e = some s') :
    Moves maxPayload s e s' := by
  cases e with
  | party e =>
    rw [step] at h
    split at h
    · obtain ⟨inner, hinner, rfl⟩ := Option.map_eq_some_iff.mp h
      exact .party ‹_› hinner
    · exact nomatch h
  | strand => exact moves_of_strandStep h
  | drain i =>
    obtain ⟨d, hd, hstep⟩ := Option.bind_eq_some_iff.mp h
    exact moves_of_drainStep hd hstep
  | written i success =>
    obtain ⟨d, hd, hstep⟩ := Option.bind_eq_some_iff.mp h
    split at hstep
    · rw [← Option.some.inj hstep]
      exact .written hd ‹_›
    · exact nomatch hstep

/-- What the parties leave alone. -/
def queueState (s : Session) : List Bytes × Bool × List Bytes := (s.sendQueue, s.sending, s.entered)

theorem queueState_of_party {s s' : State ι} {e : Session.Event ι} (hparty : isParty e = true)
    (h : s.step maxPayload e = some s') : queueState s'.session = queueState s.session := by
  cases Session.moves_of_step h with
  | read h => rfl
  | call h => rfl
  | @turn t callback op k h => cases op <;> rfl
  | strand h => exact absurd hparty Bool.false_ne_true
  | written h => exact absurd hparty Bool.false_ne_true

/-! ## One coroutine at a time -/

/-- **The invariant.** `sending_` says whether a coroutine drains the queue. There is one then, and
the strand is not about to start another one. -/
inductive Single (s : Draining ι) : Prop
  | none (hdrains : s.drains = []) (hsending : s.session.sending = false)
      (htask : s.task ≠ .draining)
  | one {d} (hdrains : s.drains = [d]) (hsending : s.session.sending = true)
      (hstarting : s.task ≠ .starting) (hstrand : d.onStrand = true ↔ s.task = .draining)
      (hqueue : d.stage.touchesFront = true → s.session.sendQueue ≠ [])
      (hfailed : d.stage.afterFailure = true → s.writeFailed = true)

omit [DecidableEq ι] in
theorem Single.of_drain {s : Draining ι} (hs : Single s) {i : ℕ} {d : Drain}
    (hd : s.drains[i]? = some d) : i = 0 ∧ s.drains = [d] ∧ s.session.sending = true ∧
      s.task ≠ .starting ∧ (d.onStrand = true ↔ s.task = .draining) ∧
      (d.stage.touchesFront = true → s.session.sendQueue ≠ []) ∧
      (d.stage.afterFailure = true → s.writeFailed = true) := by
  cases hs with
  | none hdrains =>
    rw [hdrains] at hd
    exact absurd hd (by simp)
  | @one d' hdrains hsending hstarting hstrand hqueue hfailed =>
    rw [hdrains] at hd
    obtain ⟨rfl, rfl⟩ : i = 0 ∧ d' = d := by
      cases i with
      | zero => exact ⟨rfl, Option.some.inj hd⟩
      | succ i => exact absurd hd (by simp)
    exact ⟨rfl, hdrains, hsending, hstarting, hstrand, hqueue, hfailed⟩

omit [DecidableEq ι] in
theorem Single.setStage {s : Draining ι} (hs : Single s) {i : ℕ} {d : Drain}
    (hd : s.drains[i]? = some d) (session : Session) (stage : DrainAt)
    (hsession : session.sending = s.session.sending)
    (hqueue : stage.touchesFront = true → session.sendQueue ≠ [])
    (hfailed : stage.afterFailure = true → s.writeFailed = true) :
    Single ((s.modify session).setStage i d stage) := by
  obtain ⟨rfl, hdrains, hsending, hstarting, hstrand, -, -⟩ := hs.of_drain hd
  refine .one (d := { d with stage }) ?_ (hsession.trans hsending) hstarting hstrand hqueue hfailed
  change s.drains.set 0 _ = _
  rw [hdrains]
  rfl

omit [DecidableEq ι] in
theorem Single.setTask {s : Draining ι} (hs : Single s) (session : Session) (task : StrandAt)
    (hbefore : s.task ≠ .draining) (hafter : task ≠ .draining)
    (hsession : session.sending = s.session.sending)
    (hqueue : s.session.sendQueue ≠ [] → session.sendQueue ≠ [])
    (hstarting : s.session.sending = true → task ≠ .starting) :
    Single { s.modify session with task } := by
  cases hs with
  | none hdrains hsending _ => exact .none hdrains (hsession.trans hsending) hafter
  | one hdrains hsending _ hstrand hfront hfailed =>
    refine .one hdrains (hsession.trans hsending) (hstarting hsending) ?_
      (fun h ↦ hqueue (hfront h)) hfailed
    exact iff_of_false (fun h ↦ hbefore (hstrand.mp h)) hafter

omit [DecidableEq ι] in
theorem Single.hand {s : Draining ι} (hs : Single s) {i : ℕ} {d : Drain}
    (hd : s.drains[i]? = some d) (frame : Bytes) : Single (s.hand i d frame) := by
  rw [Draining.hand]
  split
  · have htesting : Single (s.setStage i d .testing) :=
      hs.setStage hd s.session .testing rfl nofun nofun
    cases htesting with
    | none h₁ h₂ h₃ => exact .none h₁ h₂ h₃
    | one h₁ h₂ h₃ h₄ h₅ h₆ => exact .one h₁ h₂ h₃ h₄ h₅ h₆
  · obtain ⟨rfl, hdrains, hsending, hstarting, hstrand, -, -⟩ := hs.of_drain hd
    have hreleased : Drain.release d s.task ≠ .draining ∧ Drain.release d s.task ≠ .starting := by
      rw [Drain.release]
      split
      · exact ⟨nofun, nofun⟩
      · exact ⟨fun h ↦ absurd (hstrand.mpr h) ‹_›, hstarting⟩
    refine .one (d := ⟨.suspended frame, false⟩) ?_ hsending hreleased.2 ?_ nofun nofun
    · rw [hdrains]
      rfl
    · exact iff_of_false Bool.false_ne_true hreleased.1

/-- **One writer.** Every step keeps the invariant. -/
theorem single_of_moves {s s' : Draining ι} {e : Event ι} (hs : Single s)
    (h : Moves maxPayload s e s') : Single s' := by
  have htask' {task : StrandAt} (h : s.task = task) (htask : task ≠ .draining) :
      s.task ≠ .draining := h.trans_ne htask
  cases h with
  | party hparty h =>
    have hstate := queueState_of_party hparty h
    have hsending := congrArg (·.2.1) hstate
    cases hs with
    | none hdrains hsending' htask => exact .none hdrains (hsending.trans hsending') htask
    | one hdrains hsending' hstarting hstrand hqueue hfailed =>
      refine .one hdrains (hsending.trans hsending') hstarting hstrand (fun h ↦ ?_) hfailed
      exact (congrArg Prod.fst hstate).trans_ne (hqueue h)
  | next htask => exact hs.setTask _ _ (htask' htask nofun) nofun (by rfl) id fun _ ↦ nofun
  | closed htask => exact hs.setTask s.session _ (htask' htask nofun) nofun rfl id fun _ ↦ nofun
  | emit htask => exact hs.setTask s.session _ (htask' htask nofun) nofun rfl id fun _ ↦ nofun
  | full htask => exact hs.setTask s.session _ (htask' htask nofun) nofun rfl id fun _ ↦ nofun
  | room htask => exact hs.setTask s.session _ (htask' htask nofun) nofun rfl id fun _ ↦ nofun
  | pushFront htask =>
    exact hs.setTask _ _ (htask' htask nofun) nofun (by rfl) (fun _ ↦ by exact List.cons_ne_nil _ _)
      fun _ ↦ nofun
  | pushBack htask =>
    exact hs.setTask _ _ (htask' htask nofun) nofun (by rfl)
      (fun h ↦ by exact List.append_ne_nil_of_left_ne_nil h _) fun _ ↦ nofun
  | busy htask => exact hs.setTask s.session _ (htask' htask nofun) nofun rfl id fun _ ↦ nofun
  | alone htask h =>
    refine hs.setTask s.session _ (htask' htask nofun) nofun rfl id fun hsending ↦ ?_
    rw [h] at hsending
    exact absurd hsending Bool.false_ne_true
  | start htask =>
    cases hs with
    | none hdrains =>
      refine .one (d := ⟨.testing, true⟩) ?_ rfl nofun (iff_of_true rfl rfl) nofun nofun
      exact congrArg (· ++ [(⟨.testing, true⟩ : Drain)]) hdrains
    | one _ _ hstarting => exact absurd htask hstarting
  | empty hd => exact hs.setStage hd s.session .leaving rfl nofun nofun
  | more hd _ h => exact hs.setStage hd s.session .taking rfl (fun _ ↦ h) nofun
  | take hd _ h =>
    exact hs.setStage hd _ (.popping _) (by rfl) (fun _ ↦ by exact List.cons_ne_nil _ _) nofun
  | pop hd _ h => exact hs.setStage hd _ (.writing _) (by rfl) nofun nofun
  | hand hd => exact hs.hand hd _
  | @fail i d hd hstage =>
    refine hs.setStage hd _ .clearing (by rfl) nofun fun _ ↦ ?_
    obtain ⟨-, -, -, -, -, -, hfailed⟩ := hs.of_drain hd
    exact hfailed (by rw [hstage]; rfl)
  | clear hd => exact hs.setStage hd _ .leaving (by rfl) nofun nofun
  | @leave i d hd hstage =>
    obtain ⟨rfl, hdrains, -, -, hstrand, -, -⟩ := hs.of_drain hd
    refine .none (by rw [hdrains]; rfl) rfl ?_
    change Drain.release d s.task ≠ .draining
    rw [Drain.release]
    split
    · nofun
    · exact fun h ↦ absurd (hstrand.mpr h) ‹_›
  | @written i d frame success hd hstage =>
    have hs₁ : Single { s with writeFailed := s.writeFailed || !success } := by
      cases hs with
      | none h₁ h₂ h₃ => exact .none h₁ h₂ h₃
      | one h₁ h₂ h₃ h₄ h₅ h₆ =>
        exact .one h₁ h₂ h₃ h₄ h₅ fun h ↦ Bool.or_eq_true_iff.mpr (Or.inl (h₆ h))
    cases success with
    | true => exact hs₁.setStage hd s.session .testing rfl nofun nofun
    | false => exact hs₁.setStage hd s.session .failed rfl nofun fun _ ↦ Bool.or_true s.writeFailed

omit [DecidableEq ι] in
theorem single_start : Single (start : Draining ι) := .none rfl rfl nofun

/-! ## What becomes of the frames -/

/-- Some coroutine has taken the front frame and not removed its place yet. -/
def popping (s : Draining ι) : Bool := s.drains.any (·.stage.isPopping)

/-- What has been handed to the stream, or is about to. -/
def taken (s : Draining ι) : List Bytes := s.handed ++ s.drains.flatMap (·.stage.held)

/-- What is still to be taken. -/
def rest (s : Draining ι) : List Bytes :=
  if s.popping then s.session.sendQueue.tail else s.session.sendQueue

/-- Everything on its way to the stream, in order. -/
def trace (s : Draining ι) : List Bytes := s.taken ++ s.rest

/-- **What a step does to the frames.** -/
inductive Traced (s : Draining ι) (e : Event ι) (s' : Draining ι) : Prop
  | same (htrace : s'.trace = s.trace) (hentered : s'.session.entered = s.session.entered)
  | back {frame} (he : e = .strand) (htask : s.task = .pushing frame)
      (htrace : s'.trace = s.trace ++ [frame])
      (hentered : s'.session.entered = s.session.entered ++ [frame])
  | front {frame} (he : e = .strand) (htask : s.task = .entered (.priority frame))
      (hpopping : s.popping = false) (htrace : s'.trace = s.taken ++ frame :: s.rest)
      (hentered : s'.session.entered = s.session.entered ++ [frame])
  /-- The frame takes the place of the one that has been moved out, and will be removed with it. -/
  | lost {frame place} (he : e = .strand) (htask : s.task = .entered (.priority frame))
      (hpopping : s.popping = true) (hplace : s.session.sendQueue = place :: s.rest)
      (htrace : s'.trace = s.taken ++ place :: s.rest)
      (hentered : s'.session.entered = s.session.entered ++ [frame])
  | cleared (hfailed : s'.writeFailed = true) (htrace : s'.trace <+: s.trace)
      (hentered : s'.session.entered = s.session.entered)

section

omit [DecidableEq ι]

theorem popping_of_drains {s : Draining ι} {d : Drain} (h : s.drains = [d]) :
    s.popping = d.stage.isPopping := by
  rw [popping, h, List.any_cons, List.any_nil, Bool.or_false]

theorem trace_of_drains {s : Draining ι} {d : Drain} (h : s.drains = [d]) :
    s.trace = s.handed ++ d.stage.held
      ++ if d.stage.isPopping then s.session.sendQueue.tail else s.session.sendQueue := by
  rw [trace, taken, rest, popping_of_drains h, h, List.flatMap_singleton]

theorem trace_of_no_drains {s : Draining ι} (h : s.drains = []) :
    s.trace = s.handed ++ s.session.sendQueue := by
  rw [trace, taken, rest, popping, h]
  simp

/-- While a coroutine is about to remove a place, the queue has one. -/
theorem Single.exists_of_popping {s : Draining ι} (hs : Single s) (h : s.popping = true) :
    ∃ place, s.session.sendQueue = place :: s.rest := by
  rw [rest, if_pos h]
  cases hs with
  | none hdrains =>
    rw [popping, hdrains] at h
    exact absurd h Bool.false_ne_true
  | @one d hdrains _ _ _ hqueue =>
    rw [popping_of_drains hdrains] at h
    have hne : s.session.sendQueue ≠ [] := by
      apply hqueue
      cases hstage : d.stage <;> rw [hstage] at h
      case popping => rfl
      all_goals exact absurd h Bool.false_ne_true
    exact ⟨_, (List.cons_head_tail hne).symm⟩

theorem Single.trace_pushBack {s : Draining ι} (hs : Single s) (frame : Bytes) :
    (s.push frame (s.session.sendQueue ++ [frame])).trace = s.trace ++ [frame] := by
  have hrest : (s.push frame (s.session.sendQueue ++ [frame])).rest = s.rest ++ [frame] := by
    change (if s.popping then (s.session.sendQueue ++ [frame]).tail
      else s.session.sendQueue ++ [frame]) = _
    by_cases h : s.popping = true
    · obtain ⟨place, hplace⟩ := hs.exists_of_popping h
      rw [if_pos h, hplace]
      rfl
    · rw [if_neg h, rest, if_neg h]
  rw [trace, trace, hrest, ← List.append_assoc]
  rfl

theorem Single.trace_pushFront {s : Draining ι} (hs : Single s) (frame : Bytes)
    (htask : s.task = .entered (.priority frame)) :
    Traced s .strand (s.push frame (frame :: s.session.sendQueue)) := by
  have htrace : (s.push frame (frame :: s.session.sendQueue)).trace = s.taken ++
      if s.popping then s.session.sendQueue else frame :: s.session.sendQueue := rfl
  by_cases h : s.popping = true
  · obtain ⟨place, hplace⟩ := hs.exists_of_popping h
    rw [if_pos h] at htrace
    exact .lost rfl htask h hplace (htrace.trans (congrArg (s.taken ++ ·) hplace)) rfl
  · refine .front rfl htask (Bool.not_eq_true _ ▸ h) ?_ rfl
    rw [htrace, rest, if_neg h, if_neg h]

theorem Single.trace_setStage {s : Draining ι} (hs : Single s) {i : ℕ} {d : Drain}
    (hd : s.drains[i]? = some d) (session : Session) (stage : DrainAt) :
    ((s.modify session).setStage i d stage).trace = s.handed ++ stage.held
      ++ if stage.isPopping then session.sendQueue.tail else session.sendQueue := by
  obtain ⟨rfl, hdrains, -⟩ := hs.of_drain hd
  refine trace_of_drains (d := { d with stage }) ?_
  change s.drains.set 0 _ = _
  rw [hdrains]
  rfl

theorem Single.trace_of_stage {s : Draining ι} (hs : Single s) {i : ℕ} {d : Drain}
    (hd : s.drains[i]? = some d) {stage : DrainAt} (hstage : d.stage = stage) :
    s.trace = s.handed ++ stage.held
      ++ if stage.isPopping then s.session.sendQueue.tail else s.session.sendQueue := by
  obtain ⟨-, hdrains, -⟩ := hs.of_drain hd
  rw [trace_of_drains hdrains, hstage]

theorem Single.trace_hand {s : Draining ι} (hs : Single s) {i : ℕ} {d : Drain} {frame : Bytes}
    (hd : s.drains[i]? = some d) (hstage : d.stage = .writing frame) :
    (s.hand i d frame).trace = s.trace := by
  obtain ⟨rfl, hdrains, -⟩ := hs.of_drain hd
  have htrace : ∀ (s' : Draining ι) (d' : Drain), s'.drains = s.drains.set 0 d' →
      s'.handed = s.handed ++ [frame] → s'.session = s.session → d'.stage.held = [] →
      d'.stage.isPopping = false → s'.trace = s.trace := by
    intro s' d' hdrains' hhanded hsession hheld hpopping
    rw [hdrains] at hdrains'
    rw [trace_of_drains hdrains', hs.trace_of_stage hd hstage, hheld, hpopping, hhanded, hsession,
      List.append_nil]
    rfl
  rw [Draining.hand]
  split
  · exact htrace _ ⟨.testing, d.onStrand⟩ rfl rfl rfl rfl rfl
  · exact htrace _ ⟨.suspended frame, false⟩ rfl rfl rfl rfl rfl

end

theorem traced_of_moves {s s' : Draining ι} {e : Event ι} (hs : Single s)
    (h : Moves maxPayload s e s') : Traced s e s' := by
  cases h with
  | @party e inner hparty h =>
    have hstate := queueState_of_party hparty h
    refine .same ?_ (congrArg (·.2.2) hstate)
    change s.taken ++ (if s.popping then inner.session.sendQueue.tail
      else inner.session.sendQueue) = _
    rw [show inner.session.sendQueue = s.session.sendQueue from congrArg Prod.fst hstate]
    rfl
  | next => exact .same rfl rfl
  | closed => exact .same rfl rfl
  | emit => exact .same rfl rfl
  | full => exact .same rfl rfl
  | room => exact .same rfl rfl
  | pushFront htask => exact hs.trace_pushFront _ htask
  | pushBack htask => exact .back rfl htask (hs.trace_pushBack _) rfl
  | busy => exact .same rfl rfl
  | alone => exact .same rfl rfl
  | start htask =>
    cases hs with
    | none hdrains =>
      refine .same ?_ rfl
      rw [trace_of_no_drains hdrains, trace_of_drains (d := ⟨.testing, true⟩)]
      · exact congrArg (· ++ s.session.sendQueue) (List.append_nil s.handed)
      · exact congrArg (· ++ [(⟨.testing, true⟩ : Drain)]) hdrains
    | one _ _ hstarting => exact absurd htask hstarting
  | empty hd hstage =>
    exact .same ((hs.trace_setStage hd s.session _).trans (hs.trace_of_stage hd hstage).symm) rfl
  | more hd hstage =>
    exact .same ((hs.trace_setStage hd s.session _).trans (hs.trace_of_stage hd hstage).symm) rfl
  | take hd hstage h =>
    refine .same ((hs.trace_setStage hd _ _).trans ?_) rfl
    rw [hs.trace_of_stage hd hstage, h]
    simp [DrainAt.held, DrainAt.isPopping]
  | pop hd hstage h =>
    refine .same ((hs.trace_setStage hd _ _).trans ?_) rfl
    rw [hs.trace_of_stage hd hstage, h]
    rfl
  | hand hd hstage =>
    refine .same (hs.trace_hand hd hstage) ?_
    rw [hand]
    split <;> rfl
  | fail hd hstage =>
    exact .same ((hs.trace_setStage hd _ _).trans (hs.trace_of_stage hd hstage).symm) rfl
  | clear hd hstage =>
    obtain ⟨-, -, -, -, -, -, hfailed⟩ := hs.of_drain hd
    refine .cleared (hfailed (by rw [hstage]; rfl)) ?_ rfl
    rw [hs.trace_setStage hd, hs.trace_of_stage hd hstage]
    exact ⟨s.session.sendQueue, by simp [DrainAt.held, DrainAt.isPopping]⟩
  | @leave i d hd hstage =>
    obtain ⟨rfl, hdrains, -⟩ := hs.of_drain hd
    refine .same ?_ rfl
    rw [trace_of_no_drains (by rw [hdrains]; rfl), hs.trace_of_stage hd hstage]
    exact congrArg (· ++ s.session.sendQueue) (List.append_nil s.handed).symm
  | @written i d frame success hd hstage =>
    refine .same ?_ rfl
    rw [hs.trace_of_stage hd hstage]
    exact (hs.trace_setStage hd s.session _).trans (by cases success <;> rfl)

/-- The place that a coroutine is about to remove has this property. -/
def Placed (P : Bytes → Prop) (s : Draining ι) : Prop :=
  s.popping = true → ∀ place queue, s.session.sendQueue = place :: queue → P place

/-- The place is the one of the frame that has been moved out, or a frame has been pushed there. -/
theorem placed_of_moves {P : Bytes → Prop} (hnil : P []) {s s' : Draining ι} {e : Event ι}
    (hs : Single s) (h : Moves maxPayload s e s')
    (hpush : e = .strand → ∀ frame, s.task = .entered (.priority frame) → s.popping = true →
      P frame) (hP : Placed P s) : Placed P s' := by
  have hidle {s' : Draining ι} (h : s'.popping = false) : Placed P s' := fun hpopping ↦
    absurd (h.symm.trans hpopping) Bool.false_ne_true
  have hstage (session : Session) {i : ℕ} {d : Drain} (hd : s.drains[i]? = some d) {stage : DrainAt}
      (hstage : stage.isPopping = false) : Placed P ((s.modify session).setStage i d stage) := by
    obtain ⟨rfl, hdrains, -⟩ := hs.of_drain hd
    refine hidle ((popping_of_drains (d := { d with stage }) ?_).trans hstage)
    change s.drains.set 0 _ = _
    rw [hdrains]
    rfl
  cases h with
  | @party e inner hparty h =>
    intro hpopping place queue hqueue
    have hstate := congrArg Prod.fst (queueState_of_party hparty h)
    exact hP hpopping place queue (hstate.symm.trans hqueue)
  | next => exact hP
  | closed => exact hP
  | emit => exact hP
  | full => exact hP
  | room => exact hP
  | @pushFront frame htask =>
    intro hpopping place queue hqueue
    obtain ⟨rfl, -⟩ := List.cons.inj hqueue
    exact hpush rfl frame htask hpopping
  | @pushBack frame htask =>
    intro hpopping place queue hqueue
    obtain ⟨first, hfirst⟩ := hs.exists_of_popping hpopping
    have hsame : first = place := by
      change s.session.sendQueue ++ [frame] = _ at hqueue
      rw [hfirst] at hqueue
      exact (List.cons.inj hqueue).1
    exact hsame ▸ hP hpopping first _ hfirst
  | busy => exact hP
  | alone => exact hP
  | start htask =>
    cases hs with
    | none hdrains =>
      refine hidle (popping_of_drains (d := ⟨.testing, true⟩) ?_)
      exact congrArg (· ++ [(⟨.testing, true⟩ : Drain)]) hdrains
    | one _ _ hstarting => exact absurd htask hstarting
  | empty hd => exact hstage s.session hd rfl
  | more hd => exact hstage s.session hd rfl
  | take hd =>
    intro _ place queue hqueue
    obtain ⟨rfl, -⟩ := List.cons.inj hqueue
    exact hnil
  | pop hd => exact hstage _ hd rfl
  | @hand i d frame hd =>
    obtain ⟨rfl, hdrains, -⟩ := hs.of_drain hd
    apply hidle
    rw [hand]
    split
    · exact (popping_of_drains (d := ⟨.testing, d.onStrand⟩) (by rw [setStage, hdrains]; rfl)).trans
        rfl
    · exact (popping_of_drains (d := ⟨.suspended frame, false⟩) (by rw [hdrains]; rfl)).trans rfl
  | fail hd => exact hstage _ hd rfl
  | clear hd => exact hstage _ hd rfl
  | @leave i d hd =>
    obtain ⟨rfl, hdrains, -⟩ := hs.of_drain hd
    apply hidle
    rw [popping, hdrains]
    rfl
  | @written i d frame success hd =>
    obtain ⟨rfl, hdrains, -⟩ := hs.of_drain hd
    refine hidle ((popping_of_drains (d := { d with
      stage := if success then .testing else .failed }) ?_).trans (by cases success <;> rfl))
    rw [setStage, hdrains]
    rfl

end Draining

end Aevox
