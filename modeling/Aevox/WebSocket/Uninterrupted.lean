import Aevox.WebSocket.Delivery

/-!
# Closures that are not interrupted

A session whose parties interleave (`Session.State`) lets every closure of the strand run as a
whole, and a completed write carries on with the loop up to the next one. Access by access this is a
run as well, and one in which nothing disturbs the coroutine that drains the queue
(`follows_of_run`). So it is the interruptions that lose frames: as long as `closed_` is not set,
none is lost here (`no_frame_lost_uninterrupted`).
-/

namespace Aevox

open Coroutine

namespace Session

/-- The frame of a pending write is where the coroutine is. -/
def settled (s : Session) : Session := { s with inFlight := none }

/-- `sending_` says whether a write is pending. -/
def Flagged (s : Session) : Prop := s.sending = s.inFlight.isSome

theorem flagged_drainSendQueue {s : Session} (h : s.sending = true) :
    s.drainSendQueue.Flagged ∧ s.drainSendQueue.closed = s.closed := by
  unfold drainSendQueue
  split
  · exact ⟨rfl, rfl⟩
  · exact ⟨h, rfl⟩

theorem flagged_startDrain {s : Session} (hs : s.Flagged) :
    s.startDrain.Flagged ∧ s.startDrain.closed = s.closed := by
  unfold startDrain
  split
  · exact ⟨hs, rfl⟩
  · exact flagged_drainSendQueue rfl

theorem flagged_pushBack {s : Session} (hs : s.Flagged) (frame : Bytes) :
    (s.pushBack frame).Flagged ∧ (s.pushBack frame).closed = s.closed := by
  unfold pushBack
  split
  · exact ⟨hs, rfl⟩
  · exact flagged_startDrain hs

/-- A closure starts a write if it sets `sending_`, and does not touch `closed_`. -/
theorem flagged_runPosted {s : Session} (hs : s.Flagged) (p : Posted) :
    (s.runPosted p).Flagged ∧ (s.runPosted p).closed = s.closed := by
  cases p with
  | frame frame => exact flagged_pushBack hs frame
  | priority frame => exact flagged_startDrain hs
  | bus message =>
    rw [runPosted]
    split
    · exact ⟨hs, rfl⟩
    · exact flagged_pushBack hs _

end Session

namespace Draining

open Session

variable {ι : Type} [DecidableEq ι] {maxPayload : ℕ}

/-! ## No frame is empty -/

/-- The operation posts an empty frame. -/
def PostsNothing (op : Op) : Prop := ∃ p, op = .post p ∧ p.bytes = []

theorem emitFrame_ne_nil (opcode : Opcode) (fin : Bool) (payload : Bytes) :
    emitFrame opcode fin payload ≠ [] := by
  simp [emitFrame]

theorem frames_discipline : Discipline fun c ↦ c.Avoids PostsNothing := by
  refine avoids_discipline ?_ ?_ ?_
  · rintro op hop ⟨p, rfl, hp⟩
    cases hop with
    | text => exact emitFrame_ne_nil _ _ _ hp
    | binary => exact emitFrame_ne_nil _ _ _ hp
    | bus => exact emitFrame_ne_nil _ _ _ hp
    | pong => exact emitFrame_ne_nil _ _ _ hp
  · rintro code reason ⟨p, hop, -⟩
    exact nomatch hop
  · rintro code reason ⟨p, hop, hp⟩
    rw [← Op.post.inj hop] at hp
    exact emitFrame_ne_nil _ _ _ hp

/-- The invariant. No frame that waits is empty, or will be. -/
structure Framed (s : State ι) : Prop where
  queue : ∀ frame ∈ s.session.sendQueue, frame ≠ []
  strand : ∀ p ∈ s.session.strand, p.bytes ≠ []
  parties : ∀ t, (s.threads t).Avoids PostsNothing

section Queue

variable {P : Bytes → Prop} {s : Session}

theorem forall_drainSendQueue (h : ∀ frame ∈ s.sendQueue, P frame) :
    ∀ frame ∈ s.drainSendQueue.sendQueue, P frame := by
  unfold drainSendQueue
  split
  · exact h
  · rename_i hqueue
    rw [hqueue] at h
    exact (List.forall_mem_cons.mp h).2

theorem forall_startDrain (h : ∀ frame ∈ s.sendQueue, P frame) :
    ∀ frame ∈ s.startDrain.sendQueue, P frame := by
  unfold startDrain
  split
  · exact h
  · exact forall_drainSendQueue h

theorem forall_pushBack {last : Bytes} (hlast : P last) (h : ∀ frame ∈ s.sendQueue, P frame) :
    ∀ frame ∈ (s.pushBack last).sendQueue, P frame := by
  unfold pushBack
  split
  · exact h
  · apply forall_startDrain
    exact List.forall_mem_append.mpr ⟨h, List.forall_mem_singleton.mpr hlast⟩

theorem forall_runPosted {p : Posted} (hp : P p.bytes) (h : ∀ frame ∈ s.sendQueue, P frame) :
    ∀ frame ∈ (s.runPosted p).sendQueue, P frame := by
  cases p with
  | frame frame => exact forall_pushBack hp h
  | priority frame =>
    apply forall_startDrain
    exact List.forall_mem_cons.mpr ⟨hp, h⟩
  | bus message =>
    rw [runPosted]
    split
    · exact h
    · exact forall_pushBack hp h

end Queue

omit [DecidableEq ι] in
theorem framed_start : Framed (State.start : State ι) where
  queue := nofun
  strand := nofun
  parties
    | .reader => trivial
    | .caller _ => trivial

theorem framed_of_moves {s s' : State ι} {e : Session.Event ι} (hs : Framed s)
    (h : Session.Moves maxPayload s e s') : Framed s' := by
  have hupdate : ∀ {t : Party ι} {c : Thread t.Result}, c.Avoids PostsNothing →
      ∀ t', (Function.update s.threads t c t').Avoids PostsNothing := fun hc ↦
    (Function.forall_update_iff _ fun _ ↦ Coroutine.Avoids PostsNothing).mpr
      ⟨hc, fun t' _ ↦ hs.parties t'⟩
  cases h with
  | read => exact ⟨hs.queue, hs.strand, hupdate (frames_discipline.doReadLoop _ _)⟩
  | call => exact ⟨hs.queue, hs.strand, hupdate (frames_discipline.runCode _)⟩
  | @turn t callback op k hturn =>
    have hcall := hs.parties t
    rw [hturn] at hcall
    have hthreads := hupdate (hcall.2 (exec callback op s.session).1)
    cases op with
    | post p =>
      refine ⟨hs.queue, List.forall_mem_append.mpr ⟨hs.strand, ?_⟩, hthreads⟩
      exact List.forall_mem_singleton.mpr fun hp ↦ hcall.1 ⟨p, rfl, hp⟩
    | _ => exact ⟨hs.queue, hs.strand, hthreads⟩
  | @strand p rest h =>
    have hstrand := hs.strand
    rw [h] at hstrand
    obtain ⟨hp, hrest⟩ := List.forall_mem_cons.mp hstrand
    have hstrand' : (runPosted { s.session with strand := rest } p).strand = rest :=
      congrArg (·.2.2) (runPosted_spec _ p).1
    exact ⟨forall_runPosted hp hs.queue, fun p' hp' ↦ hrest p' (hstrand' ▸ hp'), hs.parties⟩
  | @written frame success =>
    have hstrand : (s.session.written success).strand = s.session.strand :=
      congrArg (·.2.2) (written_spec s.session success).1
    refine ⟨?_, fun p hp ↦ hs.strand p (hstrand ▸ hp), hs.parties⟩
    cases success with
    | true => exact forall_drainSendQueue hs.queue
    | false => exact nofun

/-! ## One event after another -/

/-- A session between two accesses of the strand, while the coroutine, if there is one, waits for a
write. -/
def between (s : State ι) (task : StrandAt) (handed : List Bytes) (writeFailed : Bool) :
    Draining ι where
  inner := { s with session := s.session.settled }
  task
  drains := s.session.inFlight.toList.map fun frame ↦ ⟨.suspended frame, false⟩
  handed
  writeFailed

omit [DecidableEq ι] in
theorem undisturbed_between (s : State ι) (task : StrandAt) (handed : List Bytes)
    (writeFailed : Bool) (e : Event ι) : Undisturbed (between s task handed writeFailed) e := by
  rcases hflight : s.session.inFlight with _ | frame
  · refine undisturbed_of_drains ?_ e
    rw [between, hflight]
    rfl
  · have hdrains : (between s task handed writeFailed).drains = [⟨.suspended frame, false⟩] := by
      rw [between, hflight]
      rfl
    refine fun _ _ ↦ ⟨fun _ _ ↦ popping_of_drains hdrains, fun _ _ hdeserted ↦ ?_⟩
    rw [Deserted, hdrains] at hdeserted
    exact DrainAt.noConfusion (hdeserted _ List.mem_cons_self)

/-- An undisturbed run leads from one state to the other. -/
abbrev Leads (maxPayload : ℕ) (t t' : Draining ι) : Prop :=
  Machine.Reach (step maxPayload) Undisturbed t t'

theorem leads_of_drain {t t' : Draining ι} (es : List (Event ι)) (hes : ∀ e ∈ es, e ≠ .strand)
    (hrun : t.run maxPayload es = some t') : Leads maxPayload t t' :=
  ⟨es, hrun, Machine.along_of_forall fun e he _ hstrand ↦ absurd hstrand (hes e he)⟩

section Strand

variable (maxPayload)

/-- The coroutine gets from the head of its loop to the next write, or to its end. -/
theorem leads_drainSendQueue (s : State ι) (task : StrandAt) (onStrand : Bool)
    (hqueue : ∀ frame ∈ s.session.sendQueue, frame ≠ [])
    (hrelease : ∀ stage, Drain.release ⟨stage, onStrand⟩ task = .idle) (handed : List Bytes)
    (writeFailed : Bool) : ∃ handed', Leads maxPayload
      ⟨{ s with session := s.session.settled }, task, [⟨.testing, onStrand⟩], handed, writeFailed⟩
      (between { s with session := s.session.drainSendQueue } .idle handed' writeFailed) := by
  obtain ⟨⟨closed, closeSent, strand, sendQueue, sending, inFlight, log, entered⟩, threads,
    received, lost⟩ := s
  cases sendQueue with
  | nil =>
    refine ⟨handed, leads_of_drain (List.replicate 2 (.drain 0)) (by simp) ?_⟩
    exact congrArg some (congrArg (Draining.mk _ · _ _ _) (hrelease .leaving))
  | cons frame queue =>
    cases frame with
    | nil => exact absurd rfl (hqueue [] List.mem_cons_self)
    | cons b frame =>
      refine ⟨handed ++ [b :: frame], leads_of_drain (List.replicate 4 (.drain 0)) (by simp) ?_⟩
      exact congrArg some (congrArg (Draining.mk _ · _ _ _) (hrelease (.writing (b :: frame))))

theorem leads_startDrain (s : State ι) (hqueue : ∀ frame ∈ s.session.sendQueue, frame ≠ [])
    (hflag : s.session.Flagged) (handed : List Bytes)
    (writeFailed : Bool) : ∃ handed', Leads maxPayload (between s .pushed handed writeFailed)
      (between { s with session := s.session.startDrain } .idle handed' writeFailed) := by
  obtain ⟨⟨closed, closeSent, strand, sendQueue, sending, inFlight, log, entered⟩, threads,
    received, lost⟩ := s
  obtain rfl : sending = inFlight.isSome := hflag
  cases inFlight with
  | none =>
    obtain ⟨handed', hdrain⟩ := leads_drainSendQueue maxPayload
      ⟨⟨closed, closeSent, strand, sendQueue, true, none, log, entered⟩, threads, received, lost⟩
      .draining true hqueue (fun _ ↦ rfl) handed writeFailed
    -- the test of `sending_`, and its setting
    refine ⟨handed', .trans (.single (e := .strand) (undisturbed_between _ _ _ _ _) rfl) ?_⟩
    exact .trans (.single (e := .strand) (undisturbed_of_drains rfl _) rfl) hdrain
  | some frame => exact ⟨handed, .single (e := .strand) (undisturbed_between _ _ _ _ _) rfl⟩

theorem leads_pushBack (s : State ι) {frame : Bytes} (hframe : frame ≠ [])
    (hqueue : ∀ frame ∈ s.session.sendQueue, frame ≠ [])
    (hflag : s.session.Flagged) (handed : List Bytes)
    (writeFailed : Bool) : ∃ handed', Leads maxPayload
      (between s (.entered (.frame frame)) handed writeFailed)
      (between { s with session := s.session.pushBack frame } .idle handed' writeFailed) := by
  rw [pushBack]
  by_cases hfull : s.session.sendQueue.length ≥ kMaxSendQueueDepth
  · rw [if_pos hfull]
    exact ⟨handed, .single (e := .strand) (undisturbed_between _ _ _ _ _) (if_pos hfull)⟩
  · rw [if_neg hfull]
    obtain ⟨handed', hstart⟩ := leads_startDrain maxPayload
      { s with session := { s.session with
          sendQueue := s.session.sendQueue ++ [frame], entered := s.session.entered ++ [frame] } }
      (List.forall_mem_append.mpr ⟨hqueue, List.forall_mem_singleton.mpr hframe⟩) hflag
      handed writeFailed
    refine ⟨handed', .trans (.single (e := .strand) (undisturbed_between _ _ _ _ _)
      (if_neg hfull)) ?_⟩
    exact .trans (.single (e := .strand) (undisturbed_between _ (.pushing frame) _ _ _) rfl) hstart

/-- **A closure of the strand**, whatever it has been posted for. -/
theorem leads_runPosted (s : State ι) {p : Posted} (hp : p.bytes ≠ [])
    (hqueue : ∀ frame ∈ s.session.sendQueue, frame ≠ [])
    (hflag : s.session.Flagged) (handed : List Bytes)
    (writeFailed : Bool) : ∃ handed', Leads maxPayload
      (between s (.entered p) handed writeFailed)
      (between { s with session := s.session.runPosted p } .idle handed' writeFailed) := by
  cases p with
  | frame frame => exact leads_pushBack maxPayload s hp hqueue hflag handed writeFailed
  | priority frame =>
    obtain ⟨handed', hstart⟩ := leads_startDrain maxPayload
      { s with session := { s.session with
          sendQueue := frame :: s.session.sendQueue, entered := s.session.entered ++ [frame] } }
      (List.forall_mem_cons.mpr ⟨hp, hqueue⟩) hflag handed writeFailed
    exact ⟨handed', .trans (.single (e := .strand) (undisturbed_between _ _ _ _ _) rfl) hstart⟩
  | bus message =>
    rw [runPosted]
    by_cases hclosed : s.session.closed = true
    · rw [if_pos hclosed]
      exact ⟨handed, .single (e := .strand) (undisturbed_between _ _ _ _ _) (if_pos hclosed)⟩
    · rw [if_neg hclosed]
      obtain ⟨handed', hpush⟩ := leads_pushBack maxPayload s hp hqueue hflag handed writeFailed
      exact ⟨handed', .trans (.single (e := .strand) (undisturbed_between _ _ _ _ _)
        (if_neg hclosed)) hpush⟩

end Strand

/-- The parties do not notice how far the coroutine has got. -/
theorem step_party {s s' : State ι} {e : Session.Event ι} (hparty : isParty e = true)
    (h : Session.Moves maxPayload s e s') (task : StrandAt) (handed : List Bytes)
    (writeFailed : Bool) : (between s task handed writeFailed).step maxPayload (.party e) =
      some (between s' task handed writeFailed) := by
  rw [step, if_pos hparty]
  cases h with
  | read h =>
    rw [between, step_read (by exact h)]
    rfl
  | call h =>
    rw [between, step_call (by exact h)]
    rfl
  | @turn t callback op k h =>
    rw [between, step_turn (by exact h)]
    cases op <;> rfl
  | strand h => exact absurd hparty Bool.false_ne_true
  | written h => exact absurd hparty Bool.false_ne_true

/-- The session is as `s` says, and no closure is under way. -/
structure Follows (s : State ι) (t : Draining ι) : Prop where
  eq_between : t = between s .idle t.handed t.writeFailed
  flagged : s.session.Flagged
  closed : t.writeFailed = true → s.session.closed = true

/-- **Every event of the session is a run.** -/
theorem follows_of_moves {s s' : State ι} {t : Draining ι} {e : Session.Event ι}
    (hs : Framed s) (ht : Follows s t) (h : Session.Moves maxPayload s e s') :
    ∃ t', Leads maxPayload t t' ∧ Follows s' t' := by
  obtain ⟨handed, writeFailed, rfl⟩ : ∃ handed writeFailed,
    t = between s .idle handed writeFailed := ⟨_, _, ht.eq_between⟩
  have hflag := ht.flagged
  have hclosed := ht.closed
  have hparty (hparty : isParty e = true) :
      Leads maxPayload (between s .idle handed writeFailed)
        (between s' .idle handed writeFailed) :=
    .single (undisturbed_between _ _ _ _ _) (step_party hparty h _ _ _)
  cases h with
  | read => exact ⟨_, hparty rfl, rfl, hflag, hclosed⟩
  | call => exact ⟨_, hparty rfl, rfl, hflag, hclosed⟩
  | @turn t callback op k h =>
    refine ⟨_, hparty rfl, rfl, ?_, ?_⟩
    · cases op <;> exact hflag
    · cases op
      case storeClosed => exact fun _ ↦ rfl
      all_goals exact hclosed
  | @strand p rest h =>
    have hp : p.bytes ≠ [] := hs.strand p (h ▸ List.mem_cons_self)
    obtain ⟨hflag', hclosed'⟩ := flagged_runPosted (s := { s.session with strand := rest }) hflag p
    obtain ⟨handed', hposted⟩ := leads_runPosted maxPayload
      { s with session := { s.session with strand := rest } } hp hs.queue hflag handed writeFailed
    have hnext : step maxPayload (between s .idle handed writeFailed) .strand = some (between
        { s with session := { s.session with strand := rest } } (.entered p) handed
          writeFailed) := by
      simp only [step, strandStep, between, settled, h]
      rfl
    refine ⟨_, .trans (.single (undisturbed_between _ _ _ _ _) hnext) hposted, rfl, hflag', ?_⟩
    exact fun hfailed ↦ hclosed'.trans (hclosed hfailed)
  | @written frame success h =>
    obtain ⟨⟨closed, closeSent, strand, sendQueue, sending, inFlight, log, entered⟩, threads,
      received, lost⟩ := s
    obtain rfl : inFlight = some frame := h
    cases success with
    | true =>
      obtain ⟨hflag', hclosed'⟩ := flagged_drainSendQueue hflag
      obtain ⟨handed', hdrain⟩ := leads_drainSendQueue maxPayload
        ⟨⟨closed, closeSent, strand, sendQueue, sending, some frame, log, entered⟩, threads,
          received, lost⟩ .idle false hs.queue (fun _ ↦ rfl) handed (writeFailed || !true)
      refine ⟨_, .trans (.single (e := .written 0 true) (undisturbed_between _ _ _ _ _) rfl) hdrain,
        rfl, hflag', ?_⟩
      exact fun hfailed ↦ hclosed'.trans (hclosed ((Bool.or_false _).symm.trans hfailed))
    | false =>
      refine ⟨between _ .idle handed (writeFailed || !false),
        leads_of_drain [.written 0 false, .drain 0, .drain 0, .drain 0] (by simp) rfl, rfl, rfl,
        fun _ ↦ rfl⟩

/-- **Refinement.** Whatever the session does closure by closure, it can do access by access, and
nothing disturbs the coroutine then. -/
theorem follows_of_run {es : List (Session.Event ι)} {s : State ι}
    (hrun : State.start.run maxPayload es = some s) :
    ∃ t, Leads maxPayload start t ∧ Follows s t := by
  have hstart : Follows (State.start : State ι) start :=
    ⟨rfl, rfl, fun h ↦ absurd h Bool.false_ne_true⟩
  have hstep (s : State ι) (e : Session.Event ι) (s' : State ι) (t : Draining ι)
      (hs : Framed s ∧ Follows s t) (hstep : s.step maxPayload e = some s') :
      ∃ t', Leads maxPayload t t' ∧ Framed s' ∧ Follows s' t' := by
    have hmoves := Session.moves_of_step hstep
    obtain ⟨t', hreach, ht'⟩ := follows_of_moves hs.1 hs.2 hmoves
    exact ⟨t', hreach, framed_of_moves hs.1 hmoves, ht'⟩
  obtain ⟨t, hreach, -, ht⟩ := Machine.reach_of_run hstep ⟨framed_start, hstart⟩ hrun
  exact ⟨t, hreach, ht⟩

/-- **No frame is lost** where closures are not interrupted: once nothing is under way, the frames
that have entered the queue are those that have been handed to the stream, unless the session has
been closed. -/
theorem no_frame_lost_uninterrupted {es : List (Session.Event ι)} {s : State ι}
    (hrun : State.start.run maxPayload es = some s) (hstrand : s.session.strand = [])
    (hflight : s.session.inFlight = none) (hclosed : s.session.closed = false) :
    ∃ t, Leads maxPayload start t ∧ Follows s t ∧ s.session.entered.Perm t.handed := by
  obtain ⟨t, ⟨es', hrun', hmeets⟩, ht⟩ := follows_of_run hrun
  refine ⟨t, ⟨es', hrun', hmeets⟩, ht, ?_⟩
  have hfailed : t.writeFailed = false := by
    by_contra h
    rw [ht.closed (Bool.not_eq_false _ ▸ h)] at hclosed
    exact absurd hclosed.symm Bool.false_ne_true
  have hquiet : Quiet t := by
    rw [ht.eq_between]
    refine ⟨hstrand, rfl, ?_⟩
    rw [between, hflight]
    rfl
  have hentered : t.session.entered = s.session.entered := by
    rw [ht.eq_between]
    rfl
  exact hentered ▸ (kept_of_run hrun' hmeets hfailed).perm_handed hquiet

end Draining

end Aevox
