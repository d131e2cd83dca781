import Aevox.Library.Machine
import Aevox.Library.OneShot
import Aevox.WebSocket.Stream

/-!
# Sessions whose parties interleave

The parties of a session are its read loop and any number of callers: threads of the application,
and other sessions that publish to a topic. Each of them is in the middle of a coroutine, and the
session moves by one operation of one of them, by one closure of the strand, or by the completion of
a write. Reads return whatever they return, callers start whenever they like, and what the
application does in a callback is part of the event. The read loop by itself is one of the runs
(`exists_run_of_reads`).

## The Close frame

`close_sent_` is a right that is won once, in the sense of `Right`: its compare-and-swap claims the
right to send the Close frame that the branch behind it sends. Every coroutine of the session is
orderly, so every run keeps `Right.Inv`. At most one Close frame enters the send queue
(`at_most_one_close`).
-/

namespace Aevox

open Coroutine

namespace Session

/-! ## Parties and events -/

/-- Who is at work on a session. -/
inductive Party (ι : Type) where
  | reader
  | caller (i : ι)
  deriving DecidableEq

/-- What the coroutine of a party ends with. -/
@[reducible] def Party.Result {ι : Type} : Party ι → Type
  | reader => Progress
  | caller _ => Unit

/-- A session and its parties, with what the client has sent so far, and whether a read has found
the connection gone. -/
structure State (ι : Type) where
  session : Session
  threads : (t : Party ι) → Thread t.Result
  received : Bytes
  lost : Bool

/-- What can happen next. -/
inductive Event (ι : Type) where
  /-- The read loop's read returns. -/
  | read (data : Option Bytes)
  /-- A caller starts on some code. -/
  | call (i : ι) (code : Code)
  /-- A party carries out an operation; if it calls the application back, that runs `callback`. -/
  | turn (t : Party ι) (callback : Code)
  /-- The strand runs a closure. -/
  | strand
  /-- A write completes. -/
  | written (success : Bool)

variable {ι : Type} {maxPayload : ℕ}

/-- A new session, before its first read. -/
def State.start : State ι where
  session := {}
  threads
    | .reader => ret (.ok [])
    | .caller _ => ret ()
  received := []
  lost := false

/-- What happens, if it can. -/
def State.step [DecidableEq ι] (maxPayload : ℕ) (s : State ι) : Event ι → Option (State ι)
  | .read data =>
    match s.threads .reader with
    | .ret (.ok accumulator) =>
      some { s with
        threads := Function.update s.threads .reader (doReadLoop maxPayload accumulator data)
        received := s.received ++ data.getD []
        lost := data.getD [] = [] }
    | _ => none
  | .call i code =>
    match s.threads (.caller i) with
    | .ret _ => some { s with threads := Function.update s.threads (.caller i) (runCode code) }
    | _ => none
  | .turn t callback =>
    match s.threads t with
    | .call op k =>
      some { s with
        session := (exec callback op s.session).2
        threads := Function.update s.threads t (k (exec callback op s.session).1) }
    | _ => none
  | .strand =>
    match s.session.strand with
    | [] => none
    | p :: rest => some { s with session := runPosted { s.session with strand := rest } p }
  | .written success =>
    match s.session.inFlight with
    | none => none
    | some _ => some { s with session := s.session.written success }

/-- The state after a sequence of events. -/
def State.run [DecidableEq ι] (maxPayload : ℕ) (s : State ι) (es : List (Event ι)) :
    Option (State ι) :=
  Machine.run (State.step maxPayload) s es

/-- **What a step does**, event by event. -/
inductive Moves [DecidableEq ι] (maxPayload : ℕ) (s : State ι) : Event ι → State ι → Prop
  | read {accumulator data} (h : s.threads .reader = ret (.ok accumulator)) :
    Moves maxPayload s (.read data) { s with
      threads := Function.update s.threads .reader (doReadLoop maxPayload accumulator data)
      received := s.received ++ data.getD []
      lost := data.getD [] = [] }
  | call {i code} (h : s.threads (.caller i) = ret ()) :
    Moves maxPayload s (.call i code)
      { s with threads := Function.update s.threads (.caller i) (runCode code) }
  | turn {t callback op k} (h : s.threads t = call op k) :
    Moves maxPayload s (.turn t callback) { s with
      session := (exec callback op s.session).2
      threads := Function.update s.threads t (k (exec callback op s.session).1) }
  | strand {p rest} (h : s.session.strand = p :: rest) :
    Moves maxPayload s .strand { s with session := runPosted { s.session with strand := rest } p }
  | written {frame success} (h : s.session.inFlight = some frame) :
    Moves maxPayload s (.written success) { s with session := s.session.written success }

theorem moves_of_step [DecidableEq ι] {s s' : State ι} {e : Event ι}
    (h : s.step maxPayload e = some s') : Moves maxPayload s e s' := by
  cases e with
  | read data =>
    rw [State.step] at h
    split at h
    · rw [← Option.some.inj h]
      exact .read ‹_›
    · exact nomatch h
  | call i code =>
    rw [State.step] at h
    split at h
    · rw [← Option.some.inj h]
      exact .call ‹_›
    · exact nomatch h
  | turn t callback =>
    rw [State.step] at h
    split at h
    · rw [← Option.some.inj h]
      exact .turn ‹_›
    · exact nomatch h
  | strand =>
    rw [State.step] at h
    split at h
    · exact nomatch h
    · rw [← Option.some.inj h]
      exact .strand ‹_›
  | written success =>
    rw [State.step] at h
    split at h
    · exact nomatch h
    · rw [← Option.some.inj h]
      exact .written ‹_›

theorem step_read [DecidableEq ι] {s : State ι} {accumulator : Bytes}
    (h : s.threads .reader = ret (.ok accumulator)) (data : Option Bytes) :
    s.step maxPayload (.read data) = some { s with
      threads := Function.update s.threads .reader (doReadLoop maxPayload accumulator data)
      received := s.received ++ data.getD []
      lost := data.getD [] = [] } := by
  rw [State.step, h]

theorem step_call [DecidableEq ι] {s : State ι} {i : ι} (h : s.threads (.caller i) = ret ())
    (code : Code) : s.step maxPayload (.call i code) =
      some { s with threads := Function.update s.threads (.caller i) (runCode code) } := by
  rw [State.step, h]

theorem step_turn [DecidableEq ι] {s : State ι} {t : Party ι} {op : Op}
    {k : op.Answer → Thread t.Result} (h : s.threads t = call op k) (callback : Code) :
    s.step maxPayload (.turn t callback) = some { s with
      session := (exec callback op s.session).2
      threads := Function.update s.threads t (k (exec callback op s.session).1) } := by
  rw [State.step, h]

/-! ## The read loop by itself -/

/-- A coroutine of the read loop that nobody interferes with takes its turns one after another. -/
theorem exists_run_of_play [DecidableEq ι] {σ : Type} {H : Handler σ} {c : Thread Progress} :
    ∀ {s : State ι} {app : σ} {progress : Progress} {s' : Session × σ},
      s.threads .reader = c → c.play H.exec (s.session, app) = (.ok progress, s') →
        ∃ es, s.run maxPayload es = some { s with
          session := s'.1, threads := Function.update s.threads .reader (ret progress) } := by
  induction c with
  | ret a =>
    intro s app progress s' hc hplay
    obtain ⟨hprogress, rfl⟩ := Prod.mk.inj hplay
    obtain rfl := Except.ok.inj hprogress
    refine ⟨[], ?_⟩
    rw [← hc, Function.update_eq_self]
    rfl
  | raise e => exact e.elim
  | call op k ih =>
    intro s app progress s' hc hplay
    obtain ⟨s₁, hs₁⟩ : ∃ s₁ : State ι, s₁ = { s with
      session := (Session.exec (H.callback op app).1 op s.session).2
      threads := Function.update s.threads .reader
        (k (Session.exec (H.callback op app).1 op s.session).1) } := ⟨_, rfl⟩
    have hreader : s₁.threads .reader = k (H.exec op (s.session, app)).1 := by
      simp only [hs₁, Function.update_self]
      rfl
    have hrest : (k (H.exec op (s.session, app)).1).play H.exec
        (s₁.session, (H.callback op app).2) = (.ok progress, s') := by
      rw [hs₁]
      exact hplay
    obtain ⟨es, hes⟩ := ih _ hreader hrest
    refine ⟨.turn .reader (H.callback op app).1 :: es, ?_⟩
    refine Machine.run_cons_eq_some_iff.mpr ⟨s₁, hs₁ ▸ step_turn hc _, ?_⟩
    rw [State.run] at hes
    rw [hes, hs₁]
    simp only [Function.update_idem]

theorem exists_run_of_read [DecidableEq ι] {σ : Type} (H : Handler σ) {s : State ι} {r : Reader σ}
    (hsession : s.session = r.session) (hreader : s.threads .reader = ret r.progress)
    (data : Option Bytes) : ∃ es s', s.run maxPayload es = some s' ∧
      s'.session = (r.read maxPayload H data).session ∧
      s'.threads .reader = ret (r.read maxPayload H data).progress := by
  obtain ⟨session, app, ending | accumulator⟩ := r
  · exact ⟨[], s, rfl, hsession, hreader⟩
  · rcases hplay : (doReadLoop maxPayload accumulator data).play H.exec (session, app) with
      ⟨e | progress, s'⟩
    · exact e.elim
    · have hread : Reader.read maxPayload H ⟨session, app, .ok accumulator⟩ data
          = ⟨s'.1, s'.2, progress⟩ := by
        simp only [Reader.read, hplay]
      obtain ⟨s₁, hs₁⟩ : ∃ s₁ : State ι, s₁ = { s with
        threads := Function.update s.threads .reader (doReadLoop maxPayload accumulator data)
        received := s.received ++ data.getD []
        lost := data.getD [] = [] } := ⟨_, rfl⟩
      have hstep : s.step maxPayload (.read data) = some s₁ := hs₁ ▸ step_read hreader data
      have hloop : s₁.threads .reader = doReadLoop maxPayload accumulator data := by
        simp only [hs₁, Function.update_self]
      have hstart : s₁.session = session := by
        rw [hs₁]
        exact hsession
      obtain ⟨es, hes⟩ := exists_run_of_play hloop (hstart ▸ hplay)
      refine ⟨.read data :: es, _, Machine.run_cons_eq_some_iff.mpr ⟨s₁, hstep, hes⟩, ?_, ?_⟩
      · rw [hread]
      · simp only [hread, Function.update_self]

/-- **The read loop by itself is one of the runs**, however the stream is split. -/
theorem exists_run_of_reads [DecidableEq ι] {σ : Type} (H : Handler σ) (chunks : List Bytes) :
    ∀ {s : State ι} {r : Reader σ}, s.session = r.session → s.threads .reader = ret r.progress →
      ∃ es s', s.run maxPayload es = some s' ∧
        s'.session = (r.reads maxPayload H chunks).session ∧
        s'.threads .reader = ret (r.reads maxPayload H chunks).progress := by
  induction chunks with
  | nil => exact fun hsession hreader ↦ ⟨[], _, rfl, hsession, hreader⟩
  | cons chunk chunks ih =>
    intro s r hsession hreader
    obtain ⟨es, s₁, hes, hsession₁, hreader₁⟩ :=
      exists_run_of_read H hsession hreader (some chunk)
    obtain ⟨es', s', hes', hsession', hreader'⟩ := ih hsession₁ hreader₁
    exact ⟨es ++ es', s', Machine.run_trans hes hes', hsession', hreader'⟩

/-! ## What all coroutines have in common -/

/-- What a coroutine of the session does besides sending its Close frame. -/
inductive Ordinary : Op → Prop
  | loadClosed : Ordinary .loadClosed
  | storeClosed : Ordinary .storeClosed
  | text (message : Bytes) : Ordinary (.post (.frame (emitFrame .text true message)))
  | binary (data : Bytes) : Ordinary (.post (.frame (emitFrame .binary true data)))
  | bus (message : Bytes) : Ordinary (.post (.bus message))
  | pong (payload : Bytes) : Ordinary (.post (.priority (emitFrame .pong true payload)))
  | onMessage (payload : Bytes) : Ordinary (.onMessage payload)
  | onClose (code : UInt16) : Ordinary (.onClose code)

/-- A property of coroutines that composes, and that neither an ordinary operation nor the sending
of a Close frame disturbs. All coroutines of the session have it then. -/
structure Discipline (Q : {α : Type} → Thread α → Prop) : Prop where
  ret {α : Type} (a : α) : Q (Coroutine.ret a)
  andThen {α β : Type} {c : Thread α} {f : α → Thread β} (hc : Q c) (hf : ∀ a, Q (f a)) :
    Q (c.andThen f)
  ordinary {α : Type} {op : Op} {k : op.Answer → Thread α} (hop : Ordinary op)
    (hk : ∀ x, Q (k x)) : Q (Coroutine.call op k)
  sendClose (code : UInt16) (reason : Bytes) : Q (Session.sendClose code reason)

namespace Discipline

variable {Q : {α : Type} → Thread α → Prop} (D : Discipline Q)
include D

theorem call (c : Call) : Q c.run := by
  cases c with
  | sendText message =>
    apply D.ordinary .loadClosed
    rintro (_ | _)
    · exact D.ordinary (.text message) fun _ ↦ D.ret _
    · exact D.ret _
  | sendBinary data =>
    apply D.ordinary .loadClosed
    rintro (_ | _)
    · exact D.ordinary (.binary data) fun _ ↦ D.ret _
    · exact D.ret _
  | closeGraceful code reason =>
    apply D.ordinary .loadClosed
    rintro (_ | _)
    · exact D.andThen (D.sendClose code reason) fun _ ↦ D.ret _
    · exact D.ret _
  | sendFromBus message =>
    apply D.ordinary .loadClosed
    rintro (_ | _)
    · exact D.ordinary (.bus message) fun _ ↦ D.ret _
    · exact D.ret _
  | isClosed => exact D.ordinary .loadClosed fun _ ↦ D.ret _

theorem runCode (code : Code) : Q (Session.runCode code) := by
  induction code with
  | ret a => exact D.ret a
  | raise e => exact e.elim
  | call c k ih => exact D.andThen (D.call c) ih

theorem closeSession : Q Session.closeSession := D.ordinary .storeClosed fun _ ↦ D.ret _

theorem handleFrame (frame : ParsedFrame) : Q (Session.handleFrame frame) := by
  have hmessage : Q (Coroutine.call (.onMessage frame.payload) fun (code : Code) ↦
      (Session.runCode code).andThen fun _ ↦ Coroutine.ret (none : Option Ending)) :=
    D.ordinary (.onMessage _) fun code ↦ D.andThen (D.runCode code) fun _ ↦ D.ret _
  unfold Session.handleFrame
  cases frame.opcode with
  | text => exact hmessage
  | binary => exact hmessage
  | pong => exact D.ret _
  | ping => exact D.ordinary (.pong _) fun _ ↦ D.ret _
  | close =>
    refine D.andThen (D.sendClose _ _) fun _ ↦ D.andThen D.closeSession fun _ ↦ ?_
    exact D.ordinary (.onClose _) fun code ↦ D.andThen (D.runCode code) fun _ ↦ D.ret _
  | continuation =>
    exact D.andThen (D.sendClose _ _) fun _ ↦ D.andThen D.closeSession fun _ ↦ D.ret _

theorem handleError (error : WebSocketError) : Q (Session.handleError error) := by
  refine D.andThen ?_ fun _ ↦ D.andThen D.closeSession fun _ ↦ D.ret _
  split
  · exact D.sendClose _ _
  · exact D.sendClose _ _

theorem parseFrames : ∀ (fuel : ℕ) (l : Bytes), Q (Session.parseFrames maxPayload fuel l)
  | 0, _ => D.ret _
  | fuel + 1, l => by
    rw [Session.parseFrames]
    split
    · exact D.ret _
    split
    · split
      · exact D.ret _
      · exact D.andThen (D.handleError _) fun _ ↦ D.ret _
    · apply D.andThen (D.handleFrame _)
      rintro (_ | ending)
      · exact parseFrames fuel _
      · exact D.ret _

theorem doReadLoop (accumulator : Bytes) (read : Option Bytes) :
    Q (Session.doReadLoop maxPayload accumulator read) := by
  have hlost : Q (Session.closeSession.andThen fun _ ↦
      Coroutine.ret (.error .lost : Progress)) := D.andThen D.closeSession fun _ ↦ D.ret _
  refine D.andThen ?_ ?_
  · cases read with
    | none => exact hlost
    | some chunk =>
      rw [afterRead]
      split
      · exact hlost
      · exact D.parseFrames _ _
  · rintro (ending | rest)
    · exact D.andThen D.closeSession fun _ ↦ D.ret _
    · exact D.ret _

end Discipline

/-- To avoid certain operations, none of which is ordinary or part of sending a Close frame. -/
theorem avoids_discipline {B : Op → Prop} (hordinary : ∀ {op}, Ordinary op → ¬B op)
    (hclaim : ∀ code reason, ¬B (.claimClose code reason))
    (hpost : ∀ code reason, ¬B (.post (.priority (emitCloseFrame code reason)))) :
    Discipline fun c ↦ c.Avoids B where
  ret _ := trivial
  andThen hc hf := avoids_andThen hf hc
  ordinary hop hk := ⟨hordinary hop, hk⟩
  sendClose code reason := by
    refine ⟨hclaim code reason, ?_⟩
    rintro (_ | _)
    · trivial
    · exact ⟨hpost code reason, fun _ ↦ trivial⟩

/-! ## The right to send a Close frame -/

/-- What operations have to do with the session's one Close frame. -/
def closeRight : Right Op Op.Answer Bytes where
  move
    | .claimClose code reason => .claim (emitCloseFrame code reason)
    | .post p => if carries .close p.bytes then .use p.bytes else .other
    | _ => .other
  wins
    | .claimClose _ _, won => won
    | _, _ => false

/-- The coroutine sends a Close frame only if it has won the right to. -/
abbrev Orderly {α : Type} (c : Thread α) : Prop := closeRight.Orderly none c

theorem move_of_not_close {p : Posted} {opcode : Opcode} {fin : Bool} {payload : Bytes}
    (h : p.bytes = emitFrame opcode fin payload) (hop : opcode ≠ .close) :
    closeRight.move (.post p) = .other := by
  apply if_neg
  rw [h, carries_emitFrame]
  simp [hop]

theorem orderly_call_other {α : Type} {op : Op} (h : closeRight.move op = .other)
    {k : op.Answer → Thread α} (hk : ∀ x, Orderly (k x)) : Orderly (call op k) := by
  refine Right.orderly_call (fun l hl ↦ ?_) fun x ↦ ?_
  · rw [h] at hl
    exact nomatch hl
  · rw [Right.after, h]
    exact hk x

theorem orderly_sendClose (code : UInt16) (reason : Bytes) : Orderly (sendClose code reason) := by
  have hclose : closeRight.move (.post (.priority (emitCloseFrame code reason)))
      = .use (emitCloseFrame code reason) := by
    apply if_pos
    rw [Posted.bytes, emitCloseFrame, carries_emitFrame]
    rfl
  refine Right.orderly_call (fun l hl ↦ by cases hl) ?_
  rintro (_ | _)
  · exact Right.orderly_ret
  -- the winner holds the right until it has posted the frame
  · refine Right.orderly_call (fun l hl ↦ ?_) fun _ ↦ ?_
    · rw [hclose] at hl
      exact congrArg some (Move.use.inj hl)
    · rw [Right.after, hclose]
      exact Right.orderly_ret

theorem orderly_discipline : Discipline fun c ↦ Orderly c where
  ret _ := Right.orderly_ret
  andThen := Right.orderly_andThen
  ordinary hop hk := by
    refine orderly_call_other ?_ hk
    cases hop with
    | text message => exact move_of_not_close rfl (by decide)
    | binary data => exact move_of_not_close rfl (by decide)
    | bus message => exact move_of_not_close rfl (by decide)
    | pong payload => exact move_of_not_close rfl (by decide)
    | _ => rfl
  sendClose := orderly_sendClose

/-! ## What every run keeps -/

/-- The frame an entry of the log has handed to the strand. -/
def Entry.frame? : Entry → Option Bytes
  | posted p => some p.bytes
  | _ => none

/-- The frames that have been enqueued for sending, in the order of their posts. -/
def enqueued (s : Session) : List Bytes := s.log.filterMap Entry.frame?

/-- The Close frames among them. -/
def closeFrames (s : Session) : List Bytes := s.enqueued.filter (carries .close)

theorem enqueued_of_log {s s' : Session} {e : Entry} (h : s'.log = s.log ++ [e]) :
    s'.enqueued = s.enqueued ++ e.frame?.toList := by
  rw [enqueued, h, List.filterMap_append]
  cases e <;> rfl

theorem closeFrames_exec (callback : Code) (op : Op) (s : Session) :
    closeFrames (exec callback op s).2 = closeRight.used (closeFrames s) op := by
  cases op with
  | post p =>
    rw [closeFrames, enqueued_of_log (s := s) rfl, List.filter_append, Right.used]
    by_cases h : carries .close p.bytes
    · have hmove : closeRight.move (.post p) = .use p.bytes := if_pos h
      rw [hmove]
      exact congrArg (closeFrames s ++ ·) (List.filter_cons_of_pos h)
    · have hmove : closeRight.move (.post p) = .other := if_neg h
      rw [hmove]
      exact (congrArg (closeFrames s ++ ·) (List.filter_cons_of_neg h)).trans (List.append_nil _)
  | onMessage payload =>
    rw [closeFrames, enqueued_of_log (s := s) rfl]
    exact congrArg _ (List.append_nil _)
  | onClose code =>
    rw [closeFrames, enqueued_of_log (s := s) rfl]
    exact congrArg _ (List.append_nil _)
  | loadClosed => rfl
  | storeClosed => rfl
  | claimClose code reason => rfl

/-- What the strand leaves alone. -/
def record (s : Session) : List Entry × Bool × List Posted := (s.log, s.closeSent, s.strand)

@[simp] theorem record_drainSendQueue (s : Session) : s.drainSendQueue.record = s.record := by
  unfold drainSendQueue
  split <;> rfl

@[simp] theorem entered_drainSendQueue (s : Session) : s.drainSendQueue.entered = s.entered := by
  unfold drainSendQueue
  split <;> rfl

@[simp] theorem record_startDrain (s : Session) : s.startDrain.record = s.record := by
  unfold startDrain
  split
  · rfl
  · exact record_drainSendQueue _

@[simp] theorem entered_startDrain (s : Session) : s.startDrain.entered = s.entered := by
  unfold startDrain
  split
  · rfl
  · exact entered_drainSendQueue _

theorem pushBack_spec (s : Session) (frame : Bytes) : (s.pushBack frame).record = s.record ∧
    ((s.pushBack frame).entered = s.entered ∨
      (s.pushBack frame).entered = s.entered ++ [frame]) := by
  unfold pushBack
  split
  · exact ⟨rfl, Or.inl rfl⟩
  · rw [record_startDrain, entered_startDrain]
    exact ⟨rfl, Or.inr rfl⟩

theorem runPosted_spec (s : Session) (p : Posted) : (s.runPosted p).record = s.record ∧
    ((s.runPosted p).entered = s.entered ∨ (s.runPosted p).entered = s.entered ++ [p.bytes]) := by
  cases p with
  | frame frame => exact pushBack_spec s frame
  | priority frame =>
    rw [runPosted, record_startDrain, entered_startDrain]
    exact ⟨rfl, Or.inr rfl⟩
  | bus message =>
    rw [runPosted]
    split
    · exact ⟨rfl, Or.inl rfl⟩
    · exact pushBack_spec s _

theorem written_spec (s : Session) (success : Bool) :
    (s.written success).record = s.record ∧ (s.written success).entered = s.entered := by
  unfold written
  split
  · exact ⟨record_drainSendQueue s, entered_drainSendQueue s⟩
  · exact ⟨rfl, rfl⟩

/-- **The invariant.** The right to the Close frame is in one place, `close_sent_` says whether it
has been won, and what has entered the queue or is about to has been posted before. -/
structure Inv (s : State ι) (won : Option Bytes) : Prop where
  right : closeRight.Inv s.threads won (closeFrames s.session)
  claimed : s.session.closeSent = won.isSome
  queued : (s.session.entered ++ s.session.strand.map Posted.bytes).Sublist s.session.enqueued

/-- The event in which a party wins the right to send its Close frame. -/
def Wins (s : State ι) (e : Event ι) (code : UInt16) (reason : Bytes) : Prop :=
  s.session.closeSent = false ∧
    ∃ t callback k, e = .turn t callback ∧ s.threads t = call (.claimClose code reason) k

/-- Only a party wins the right, on its turn. -/
theorem not_wins {s : State ι} {e : Event ι} (h : ∀ t callback, e ≠ .turn t callback)
    (code : UInt16) (reason : Bytes) : ¬Wins s e code reason := by
  rintro ⟨-, t, callback, -, he, -⟩
  exact h t callback he

theorem Inv.of_record {s : State ι} {won : Option Bytes} (hs : Inv s won) {session : Session}
    (hlog : session.log = s.session.log) (hsent : session.closeSent = s.session.closeSent)
    (hqueued : (session.entered ++ session.strand.map Posted.bytes).Sublist
      (s.session.entered ++ s.session.strand.map Posted.bytes)) :
    Inv { s with session := session } won where
  right := by
    have hframes : closeFrames session = closeFrames s.session := by
      rw [closeFrames, enqueued, hlog]
      rfl
    rw [hframes]
    exact hs.right
  claimed := hsent.trans hs.claimed
  queued := by
    have henqueued : session.enqueued = s.session.enqueued := by rw [enqueued, hlog]; rfl
    rw [henqueued]
    exact hqueued.trans hs.queued

theorem queued_exec {s : Session} (callback : Code) (op : Op)
    (h : (s.entered ++ s.strand.map Posted.bytes).Sublist s.enqueued) :
    ((exec callback op s).2.entered ++ (exec callback op s).2.strand.map Posted.bytes).Sublist
      (exec callback op s).2.enqueued := by
  cases op with
  | post p =>
    rw [enqueued_of_log (s := s) rfl]
    change (s.entered ++ (s.strand ++ [p]).map Posted.bytes).Sublist _
    rw [List.map_append, ← List.append_assoc]
    exact h.append (List.Sublist.refl _)
  | onMessage payload =>
    rw [enqueued_of_log (s := s) rfl]
    exact h.trans (List.sublist_append_left _ _)
  | onClose code =>
    rw [enqueued_of_log (s := s) rfl]
    exact h.trans (List.sublist_append_left _ _)
  | loadClosed => exact h
  | storeClosed => exact h
  | claimClose code reason => exact h

theorem inv_start : Inv (State.start : State ι) none where
  right := .free fun t ↦ by cases t <;> rfl
  claimed := rfl
  queued := .slnil

/-- Only a compare-and-swap claims the right, or touches `close_sent_`. -/
theorem claim_cases (op : Op) : (∃ code reason, op = .claimClose code reason) ∨
    (∀ l, closeRight.move op ≠ .claim l) ∧
      ∀ callback s, (exec callback op s).2.closeSent = s.closeSent := by
  cases op with
  | claimClose code reason => exact Or.inl ⟨code, reason, rfl⟩
  | post p =>
    refine Or.inr ⟨fun l hl ↦ ?_, fun _ _ ↦ rfl⟩
    unfold closeRight at hl
    dsimp only at hl
    split_ifs at hl
  | loadClosed => exact Or.inr ⟨fun l hl ↦ (nomatch hl), fun _ _ ↦ rfl⟩
  | storeClosed => exact Or.inr ⟨fun l hl ↦ (nomatch hl), fun _ _ ↦ rfl⟩
  | onMessage payload => exact Or.inr ⟨fun l hl ↦ (nomatch hl), fun _ _ ↦ rfl⟩
  | onClose code => exact Or.inr ⟨fun l hl ↦ (nomatch hl), fun _ _ ↦ rfl⟩

variable [DecidableEq ι]

/-- The turn of a party keeps the invariant, and wins the right if it is the one that wins it. -/
theorem inv_of_turn {s : State ι} {won : Option Bytes} (hs : Inv s won) {t : Party ι} {op : Op}
    {k : op.Answer → Thread t.Result} (h : s.threads t = call op k) (callback : Code) :
    Inv { s with
        session := (exec callback op s.session).2
        threads := Function.update s.threads t (k (exec callback op s.session).1) } won ∧
      (∀ code reason, ¬Wins s (.turn t callback) code reason) ∨
    won = none ∧ ∃ code reason, Wins s (.turn t callback) code reason ∧
      Inv { s with
        session := (exec callback op s.session).2
        threads := Function.update s.threads t (k (exec callback op s.session).1) }
        (some (emitCloseFrame code reason)) := by
  have hclaimed := hs.claimed
  have hqueued := queued_exec callback op hs.queued
  rcases claim_cases op with ⟨code, reason, rfl⟩ | ⟨hother, hsent⟩
  · have hwins : closeRight.wins (.claimClose code reason)
        (exec callback (.claimClose code reason) s.session).1 = won.isNone := by
      rw [← Option.not_isSome, ← hclaimed]
      rfl
    have hturn := hs.right.turn h fun _ _ ↦ hwins
    rw [← closeFrames_exec callback] at hturn
    cases won with
    | none =>
      exact Or.inr ⟨rfl, code, reason, ⟨hclaimed, t, callback, k, rfl, h⟩, hturn, rfl, hqueued⟩
    | some frame =>
      refine Or.inl ⟨⟨hturn, rfl, hqueued⟩, fun code' reason' hwins' ↦ ?_⟩
      rw [hwins'.1] at hclaimed
      exact nomatch hclaimed
  · have hturn := hs.right.turn (x := (exec callback op s.session).1) h
      fun l hl ↦ absurd hl (hother l)
    have hwon : closeRight.won won op = won := by
      unfold Right.won
      split
      · exact absurd ‹_› (hother _)
      · rfl
    rw [← closeFrames_exec callback, hwon] at hturn
    refine Or.inl ⟨⟨hturn, (hsent callback s.session).trans hclaimed, hqueued⟩, ?_⟩
    rintro code reason ⟨-, t', callback', k', he, ht'⟩
    obtain ⟨rfl, rfl⟩ := Event.turn.inj he
    obtain ⟨rfl, -⟩ := Coroutine.call.inj (h.symm.trans ht')
    exact hother _ rfl

/-- **Every step keeps the invariant**, and the right is won in a step that wins it. -/
theorem inv_of_moves {s s' : State ι} {e : Event ι} (h : Moves maxPayload s e s')
    {won : Option Bytes} (hs : Inv s won) :
    Inv s' won ∧ (∀ code reason, ¬Wins s e code reason) ∨
      won = none ∧ ∃ code reason, Wins s e code reason ∧
        Inv s' (some (emitCloseFrame code reason)) := by
  cases h with
  | read h =>
    exact Or.inl ⟨⟨hs.right.start h (orderly_discipline.doReadLoop _ _), hs.claimed, hs.queued⟩,
      not_wins (by nofun)⟩
  | call h =>
    exact Or.inl ⟨⟨hs.right.start h (orderly_discipline.runCode _), hs.claimed, hs.queued⟩,
      not_wins (by nofun)⟩
  | turn h => exact inv_of_turn hs h _
  | @strand p rest h =>
    obtain ⟨hrecord, hentered⟩ := runPosted_spec { s.session with strand := rest } p
    have hstrand : (runPosted { s.session with strand := rest } p).strand = rest :=
      congrArg (·.2.2) hrecord
    refine Or.inl ⟨hs.of_record (congrArg Prod.fst hrecord) (congrArg (·.2.1) hrecord) ?_,
      not_wins (by nofun)⟩
    rw [h, List.map_cons, hstrand]
    rcases hentered with hdropped | hpushed
    · rw [hdropped]
      exact (List.Sublist.refl _).append (List.sublist_cons_self _ _)
    · rw [hpushed, List.append_assoc]
      exact List.Sublist.refl _
  | @written frame success h =>
    obtain ⟨hrecord, hentered⟩ := written_spec s.session success
    have hstrand : (s.session.written success).strand = s.session.strand :=
      congrArg (·.2.2) hrecord
    refine Or.inl ⟨hs.of_record (congrArg Prod.fst hrecord) (congrArg (·.2.1) hrecord) ?_,
      not_wins (by nofun)⟩
    rw [hentered, hstrand]

/-- Somebody has won the right to send the Close frame with this code and this reason. -/
def HasWon (maxPayload : ℕ) (es : List (Event ι)) (code : UInt16) (reason : Bytes) : Prop :=
  ∃ es₁ e es₂ s, es = es₁ ++ e :: es₂ ∧ State.start.run maxPayload es₁ = some s ∧
    Wins s e code reason

omit [DecidableEq ι] in
/-- One event wins for one code and one reason. -/
theorem Wins.unique {s : State ι} {e : Event ι} {code code' : UInt16} {reason reason' : Bytes}
    (h : Wins s e code reason) (h' : Wins s e code' reason') : code = code' ∧ reason = reason' := by
  obtain ⟨-, t, callback, k, rfl, ht⟩ := h
  obtain ⟨-, t', callback', k', he, ht'⟩ := h'
  obtain ⟨rfl, rfl⟩ := Event.turn.inj he
  obtain ⟨hop, -⟩ := Coroutine.call.inj (ht.symm.trans ht')
  exact Op.claimClose.inj hop

theorem hasWon_concat_iff {es : List (Event ι)} {s : State ι}
    (hrun : State.start.run maxPayload es = some s) {e : Event ι} {code : UInt16} {reason : Bytes} :
    HasWon maxPayload (es ++ [e]) code reason ↔
      HasWon maxPayload es code reason ∨ Wins s e code reason := by
  constructor
  · rintro ⟨es₁, e', es₂, s₁, hes, hrun₁, hwins⟩
    rcases List.eq_nil_or_concat' es₂ with rfl | ⟨es₂, e'', rfl⟩
    · obtain ⟨rfl, he⟩ := List.append_inj' hes rfl
      obtain rfl := List.singleton_inj.mp he
      rw [hrun] at hrun₁
      rw [Option.some.inj hrun₁]
      exact Or.inr hwins
    · rw [← List.cons_append, ← List.append_assoc] at hes
      exact Or.inl ⟨es₁, e', es₂, s₁, (List.append_inj' hes rfl).1, hrun₁, hwins⟩
  · rintro (⟨es₁, e', es₂, s₁, rfl, hrun₁, hwins⟩ | hwins)
    · exact ⟨es₁, e', es₂ ++ [e], s₁, by simp, hrun₁, hwins⟩
    · exact ⟨es, e, [], s, rfl, hrun, hwins⟩

/-- **Every run keeps the invariant**, and knows what the right has been won for. -/
theorem inv_of_run {es : List (Event ι)} {s : State ι}
    (hrun : State.start.run maxPayload es = some s) : ∃ won, Inv s won ∧
      ∀ frame, won = some frame ↔
        ∃ code reason, HasWon maxPayload es code reason ∧ frame = emitCloseFrame code reason := by
  refine Machine.run_history (P := fun es s ↦ ∃ won, Inv s won ∧ ∀ frame, won = some frame ↔
      ∃ code reason, HasWon maxPayload es code reason ∧ frame = emitCloseFrame code reason)
    ⟨none, inv_start, fun frame ↦ ⟨fun h ↦ (nomatch h), ?_⟩⟩ ?_ hrun
  · rintro ⟨code, reason, ⟨es₁, e, es₂, s₁, hes, -⟩, -⟩
    exact absurd hes (by simp)
  · rintro es s e s' hrun ⟨won, hs, hwon⟩ hstep
    rcases inv_of_moves (moves_of_step hstep) hs with ⟨hs', hlost⟩ | ⟨rfl, code, reason, hwins, hs'⟩
    · refine ⟨won, hs', fun frame ↦ (hwon frame).trans ?_⟩
      simp only [hasWon_concat_iff hrun, hlost, or_false]
    · have hfirst : ∀ code reason, ¬HasWon maxPayload es code reason := fun code reason h ↦
        nomatch (hwon _).mpr ⟨code, reason, h, rfl⟩
      refine ⟨some (emitCloseFrame code reason), hs', fun frame ↦ ?_⟩
      simp only [hasWon_concat_iff hrun, hfirst, false_or]
      constructor
      · exact fun h ↦ ⟨code, reason, hwins, (Option.some.inj h).symm⟩
      · rintro ⟨code', reason', hwins', rfl⟩
        obtain ⟨rfl, rfl⟩ := hwins.unique hwins'
        rfl

/-- **At most one Close frame.** However the read loop and the callers interleave, at most one Close
frame enters the send queue in the lifetime of a session. -/
theorem at_most_one_close {es : List (Event ι)} {s : State ι}
    (hrun : State.start.run maxPayload es = some s) :
    (s.session.entered.filter (carries .close)).length ≤ 1 := by
  obtain ⟨won, hs, -⟩ := inv_of_run hrun
  have hentered : s.session.entered.Sublist s.session.enqueued :=
    (List.sublist_append_left _ _).trans hs.queued
  calc (s.session.entered.filter (carries .close)).length
      ≤ (closeFrames s.session).length := (hentered.filter _).length_le
    _ ≤ 1 := hs.right.length_used

/-- The client's Close frame arrives while two callers are closing the session: both have found it
open, and one of them is about to post its frame. -/
theorem at_most_one_close_race : ∃ s : State Bool,
    State.start.run 16
      [.call false ((call (.closeGraceful 1000 []) fun _ ↦ ret ()) : Code),
        .call true ((call (.closeGraceful 1001 []) fun _ ↦ ret ()) : Code),
        .turn (.caller false) (ret ()), .turn (.caller true) (ret ()),
        .turn (.caller true) (ret ()), .read (some [0x88, 0x80, 0, 0, 0, 0]),
        .turn .reader (ret ()), .turn (.caller false) (ret ()), .turn .reader (ret ()),
        .turn (.caller true) (ret ()), .strand] = some s ∧
      (s.session.entered.filter (carries .close)).length ≤ 1 :=
  Exists.imp (fun _ hrun ↦ ⟨hrun, at_most_one_close hrun⟩) ⟨_, rfl⟩

end Session

end Aevox
