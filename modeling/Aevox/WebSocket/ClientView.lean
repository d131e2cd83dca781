import Aevox.WebSocket.Delivery

/-!
# What the client reads

The bytes that `drain_send_queue` hands to the stream reach the client in pieces, and when the
connection breaks only some of them do. A client that takes frames off the front of what has arrived
is a decoder (`serverFrames`), and what `emit_frame` writes is read back by it.

Every frame on its way to the stream is one that `emit_frame` has written, or the empty vector that
a frame has been moved out of (`Emitting`), and the strand pushes frames in the order in which the
parties have posted them (`submitted_of_run`). So whatever part of the bytes has arrived, the client
reads whole frames, is never told that the stream is malformed, and the messages it reads are some
of those that have been sent, unaltered and in the order in which they were posted
(`client_reads_sent`).
-/

namespace Aevox

open Coroutine

/-! ## Frames of the server -/

/-- `emit_frame`, of all there is to say about a frame. -/
def ParsedFrame.emit (frame : ParsedFrame) : Bytes :=
  emitFrame frame.opcode frame.fin frame.payload

/-- A frame as the session sends it: in one piece. -/
structure ParsedFrame.Sendable (frame : ParsedFrame) : Prop where
  opcode : frame.opcode ≠ .continuation
  fin : frame.fin = true

/-- A text or binary frame. -/
def ParsedFrame.isMessage (frame : ParsedFrame) : Bool :=
  frame.opcode = .text || frame.opcode = .binary

/-- A client that reads what the server sends. -/
def serverFrames (maxPayload : ℕ) : Decoder UInt8 ParsedFrame ParseFrameError where
  look l :=
    match parseFrameDetailed l maxPayload false with
    | .error err => if err.kind = .incomplete then .more else .stop err
    | .ok result => .item result.frame result.bytesConsumed
  look_nil := rfl
  consumed_le {l frame n} h := by
    cases hparse : parseFrameDetailed l maxPayload false with
    | error err =>
      simp only [hparse] at h
      split_ifs at h
    | ok result =>
      simp only [hparse] at h
      obtain ⟨-, rfl⟩ := Verdict.item.inj h
      exact (of_parseFrameDetailed hparse).2
  stable {l} h m := by
    have hfinal : ¬Awaits (parseFrameDetailed l maxPayload false) := by
      rintro ⟨err, herr, hkind⟩
      simp only [herr, if_pos hkind, ne_eq, not_true_eq_false] at h
    simp only [parseFrameDetailed_append hfinal m]

theorem readsBack_serverFrames : (serverFrames (2 ^ 63)).ReadsBack ParsedFrame.emit
    fun frame ↦ frame.Sendable ∧ frame.emit.length < 2 ^ 63 := by
  rintro ⟨opcode, fin, payload⟩ ⟨⟨hop, rfl⟩, hlen⟩ rest
  have hpayload : payload.length < 2 ^ 63 := by
    refine Nat.lt_of_le_of_lt ?_ hlen
    rw [ParsedFrame.emit, emitFrame_eq]
    simp only [List.length_cons, List.length_append]
    omega
  have hparse := parseFrameDetailed_emitFrame hop hpayload.le hpayload rest
  simp only [serverFrames, ParsedFrame.emit, hparse]

theorem isData_emit (frame : ParsedFrame) : Draining.isData frame.emit = frame.isMessage := by
  rw [Draining.isData, ParsedFrame.emit, carries_emitFrame, carries_emitFrame,
    ParsedFrame.isMessage]

namespace Draining

open Session

variable {ι : Type} [DecidableEq ι] {maxPayload : ℕ}

/-! ## Only frames are posted -/

/-- `emit_frame` has written this. -/
def Emitted (bytes : Bytes) : Prop := ∃ frame : ParsedFrame, frame.Sendable ∧ bytes = frame.emit

theorem emitted {opcode : Opcode} (h : opcode ≠ .continuation) (payload : Bytes) :
    Emitted (emitFrame opcode true payload) := ⟨⟨opcode, true, payload⟩, ⟨h, rfl⟩, rfl⟩

/-- The operation posts something that is not a frame. -/
def Garbles (op : Op) : Prop := ∃ p, op = .post p ∧ ¬Emitted p.bytes

theorem not_garbles {op : Op} (h : ∀ p, op = .post p → Emitted p.bytes) : ¬Garbles op :=
  fun ⟨p, hop, hp⟩ ↦ hp (h p hop)

/-- No coroutine of the session posts anything but frames. -/
theorem emits_discipline : Discipline fun c ↦ c.Avoids Garbles := by
  have hpost {p : Posted} {opcode : Opcode} {payload : Bytes} (h : opcode ≠ .continuation)
      (hp : p.bytes = emitFrame opcode true payload) : ¬Garbles (.post p) := by
    refine not_garbles fun p' hp' ↦ ?_
    rw [← Op.post.inj hp', hp]
    exact emitted h payload
  refine avoids_discipline (fun hop ↦ ?_) (fun _ _ ↦ ?_) fun _ _ ↦ hpost (by decide) rfl
  · cases hop with
    | text message => exact hpost (by decide) rfl
    | binary data => exact hpost (by decide) rfl
    | bus message => exact hpost (by decide) rfl
    | pong payload => exact hpost (by decide) rfl
    | _ => exact not_garbles fun p hp ↦ Op.noConfusion hp
  · exact not_garbles fun p hp ↦ Op.noConfusion hp

/-! ## Frames are pushed in the order of their posts -/

end Draining

namespace Session

/-- The frame of the closure that the strand runs, until it is pushed. -/
def StrandAt.pending : StrandAt → List Bytes
  | entered p => [p.bytes]
  | pushing frame => [frame]
  | _ => []

end Session

namespace Draining

open Session

variable {ι : Type} [DecidableEq ι] {maxPayload : ℕ}

/-- The frames that have been posted, and neither pushed nor dropped. -/
def pending (s : Draining ι) : List Bytes := s.task.pending ++ s.session.strand.map Posted.bytes

omit [DecidableEq ι] in
theorem pending_release (d : Drain) (task : StrandAt) (strand : List Bytes) :
    ((Drain.release d task).pending ++ strand).Sublist (task.pending ++ strand) := by
  rw [Drain.release]
  split
  · exact List.sublist_append_right _ _
  · exact List.Sublist.refl _

theorem pushed_of_moves {s s' : Draining ι} {e : Event ι} (h : Moves maxPayload s e s')
    (he : ∀ e', e ≠ .party e') : s'.inner.threads = s.inner.threads ∧
      s'.session.log = s.session.log ∧
      (s'.session.entered ++ s'.pending).Sublist (s.session.entered ++ s.pending) := by
  have hsame {task : StrandAt} (h : task.pending = s.task.pending) :
      (s.session.entered ++ (task.pending ++ s.session.strand.map Posted.bytes)).Sublist
        (s.session.entered ++ s.pending) := by
    rw [h]
    exact List.Sublist.refl _
  have hdrop {task : StrandAt} (h : task.pending = []) :
      (s.session.entered ++ (task.pending ++ s.session.strand.map Posted.bytes)).Sublist
        (s.session.entered ++ s.pending) := by
    rw [h]
    exact (List.Sublist.refl _).append (List.sublist_append_right _ _)
  have hpush {frame : Bytes} (h : s.task.pending = [frame]) :
      (s.session.entered ++ [frame] ++ s.session.strand.map Posted.bytes).Sublist
        (s.session.entered ++ s.pending) := by
    rw [pending, h, List.append_assoc]
  cases h with
  | party => exact absurd rfl (he _)
  | @next p rest htask hstrand =>
    refine ⟨rfl, rfl, ?_⟩
    rw [pending, pending, htask, hstrand]
    exact List.Sublist.refl _
  | closed htask => exact ⟨rfl, rfl, hdrop rfl⟩
  | emit htask => exact ⟨rfl, rfl, hsame (by rw [htask]; rfl)⟩
  | full htask => exact ⟨rfl, rfl, hdrop rfl⟩
  | room htask => exact ⟨rfl, rfl, hsame (by rw [htask]; rfl)⟩
  | pushFront htask => exact ⟨rfl, rfl, hpush (by rw [htask]; rfl)⟩
  | pushBack htask => exact ⟨rfl, rfl, hpush (by rw [htask]; rfl)⟩
  | busy htask => exact ⟨rfl, rfl, hdrop rfl⟩
  | alone htask => exact ⟨rfl, rfl, hdrop rfl⟩
  | start htask => exact ⟨rfl, rfl, hdrop rfl⟩
  | @hand i d frame =>
    rw [hand]
    split
    · exact ⟨rfl, rfl, hsame rfl⟩
    · exact ⟨rfl, rfl, (List.Sublist.refl _).append (pending_release d _ _)⟩
  | @leave i d => exact ⟨rfl, rfl, (List.Sublist.refl _).append (pending_release d _ _)⟩
  | _ => exact ⟨rfl, rfl, hsame rfl⟩

/-- The invariant of what has been posted. -/
structure Submitted (s : Draining ι) : Prop where
  parties : ∀ t, (s.inner.threads t).Avoids Garbles
  posted : ∀ bytes ∈ s.session.enqueued, Emitted bytes
  order : (s.session.entered ++ s.pending).Sublist s.session.enqueued

/-- An operation adds the same to what waits for the strand as to what has been posted. -/
theorem enqueued_exec (callback : Code) {op : Op} (hop : ¬Garbles op) (s : Session) :
    ∃ new : List Bytes, (∀ bytes ∈ new, Emitted bytes) ∧
      (exec callback op s).2.enqueued = s.enqueued ++ new ∧
      (exec callback op s).2.strand.map Posted.bytes = s.strand.map Posted.bytes ++ new ∧
      (exec callback op s).2.entered = s.entered := by
  cases op with
  | post p =>
    refine ⟨[p.bytes], ?_, enqueued_of_log (s := s) (e := .posted p) rfl, List.map_append, rfl⟩
    exact List.forall_mem_singleton.mpr (not_not.mp fun hp ↦ hop ⟨p, rfl, hp⟩)
  | onMessage payload =>
    exact ⟨[], nofun, enqueued_of_log (s := s) (e := .message payload) rfl,
      (List.append_nil _).symm, rfl⟩
  | onClose code =>
    exact ⟨[], nofun, enqueued_of_log (s := s) (e := .close code) rfl,
      (List.append_nil _).symm, rfl⟩
  | _ => exact ⟨[], nofun, (List.append_nil _).symm, (List.append_nil _).symm, rfl⟩

theorem submitted_of_moves {s s' : Draining ι} {e : Event ι} (h : Moves maxPayload s e s')
    (hs : Submitted s) : Submitted s' := by
  by_cases he : ∃ e', e = .party e'
  · obtain ⟨e', rfl⟩ := he
    cases h with
    | @party _ inner hparty h =>
      have hupdate : ∀ {t : Party ι} {c : Thread t.Result}, c.Avoids Garbles →
          ∀ t', (Function.update s.inner.threads t c t').Avoids Garbles := fun hc ↦
        (Function.forall_update_iff _ fun _ ↦ Coroutine.Avoids Garbles).mpr
          ⟨hc, fun t' _ ↦ hs.parties t'⟩
      cases Session.moves_of_step h with
      | read => exact ⟨hupdate (emits_discipline.doReadLoop _ _), hs.posted, hs.order⟩
      | call => exact ⟨hupdate (emits_discipline.runCode _), hs.posted, hs.order⟩
      | @turn t callback op k hturn =>
        have hcall := hs.parties t
        rw [hturn] at hcall
        obtain ⟨new, hnew, henqueued, hstrand, hentered⟩ :=
          enqueued_exec callback hcall.1 s.session
        refine ⟨hupdate (hcall.2 _), ?_, ?_⟩
        · change ∀ bytes ∈ (exec callback op s.session).2.enqueued, Emitted bytes
          rw [henqueued]
          exact List.forall_mem_append.mpr ⟨hs.posted, hnew⟩
        · change ((exec callback op s.session).2.entered ++ (s.task.pending
            ++ (exec callback op s.session).2.strand.map Posted.bytes)).Sublist
              (exec callback op s.session).2.enqueued
          rw [henqueued, hstrand, hentered, ← List.append_assoc, ← List.append_assoc,
            List.append_assoc s.session.entered]
          exact hs.order.append (List.Sublist.refl new)
      | strand => exact absurd hparty Bool.false_ne_true
      | written => exact absurd hparty Bool.false_ne_true
  · obtain ⟨hthreads, hlog, hsub⟩ := pushed_of_moves h fun e' he' ↦ he ⟨e', he'⟩
    have henqueued : s'.session.enqueued = s.session.enqueued := by rw [enqueued, hlog, enqueued]
    exact ⟨hthreads ▸ hs.parties, henqueued ▸ hs.posted, henqueued ▸ hsub.trans hs.order⟩

/-! ## Only frames are handed over -/

/-- What may be on its way: a frame, or the empty vector that one has been moved out of. -/
def Sound (bytes : Bytes) : Prop := bytes = [] ∨ Emitted bytes

/-- The invariant of what is on its way. -/
structure Emitting (s : Draining ι) : Prop where
  trace : ∀ bytes ∈ s.trace, Sound bytes
  placed : Placed Sound s
  submitted : Submitted s

omit [DecidableEq ι] in
theorem Submitted.emitted_of_task {s : Draining ι} (hs : Submitted s) {bytes : Bytes}
    (h : bytes ∈ s.task.pending) : Emitted bytes :=
  hs.posted bytes (hs.order.subset (List.mem_append_right _ (List.mem_append_left _ h)))

omit [DecidableEq ι] in
theorem sound_of_traced {s s' : Draining ι} {e : Event ι} (hs : Emitting s) (h : Traced s e s') :
    ∀ bytes ∈ s'.trace, Sound bytes := by
  obtain ⟨htaken, hrest⟩ := List.forall_mem_append.mp hs.trace
  have htask {frame : Bytes} (h : s.task.pending = [frame]) : Sound frame :=
    Or.inr (hs.submitted.emitted_of_task (h ▸ List.mem_singleton_self frame))
  cases h with
  | same htrace => exact htrace ▸ hs.trace
  | back _ hpushing htrace =>
    rw [htrace]
    refine List.forall_mem_append.mpr ⟨hs.trace, List.forall_mem_singleton.mpr (htask ?_)⟩
    rw [hpushing]
    rfl
  | front _ hentered _ htrace =>
    rw [htrace]
    refine List.forall_mem_append.mpr ⟨htaken, List.forall_mem_cons.mpr ⟨htask ?_, hrest⟩⟩
    rw [hentered]
    rfl
  | lost _ _ hpopping hplace htrace =>
    rw [htrace]
    exact List.forall_mem_append.mpr
      ⟨htaken, List.forall_mem_cons.mpr ⟨hs.placed hpopping _ _ hplace, hrest⟩⟩
  | cleared _ htrace => exact fun bytes h ↦ hs.trace bytes (htrace.subset h)

theorem emitting_of_moves {s s' : Draining ι} {e : Event ι} (hsingle : Single s) (hs : Emitting s)
    (h : Moves maxPayload s e s') : Emitting s' := by
  refine ⟨sound_of_traced hs (traced_of_moves hsingle h), ?_, submitted_of_moves h hs.submitted⟩
  refine placed_of_moves (Or.inl rfl) hsingle h (fun _ frame htask _ ↦ Or.inr ?_) hs.placed
  refine hs.submitted.emitted_of_task ?_
  rw [htask]
  exact List.mem_singleton_self frame

theorem emitting_of_run {es : List (Event ι)} {s : Draining ι}
    (hrun : start.run maxPayload es = some s) : Emitting s := by
  refine (Machine.run_invariant (I := fun s ↦ Single s ∧ Emitting s) (fun s e s' hs hstep ↦ ?_)
    ⟨single_start, ⟨nofun, fun h ↦ absurd h Bool.false_ne_true, ⟨?_, nofun, .slnil⟩⟩⟩ hrun).2
  · have hmoves := moves_of_step hstep
    exact ⟨single_of_moves hs.1 hmoves, emitting_of_moves hs.1 hs.2 hmoves⟩
  · rintro (_ | _) <;> trivial

/-! ## What the client reads -/

omit [DecidableEq ι] in
theorem exists_frames {l : List Bytes} (h : ∀ bytes ∈ l, Sound bytes) :
    ∃ frames : List ParsedFrame, (∀ frame ∈ frames, frame.Sendable) ∧
      frames.map ParsedFrame.emit = l.filter (!·.isEmpty) ∧
      frames.flatMap ParsedFrame.emit = l.flatten := by
  induction l with
  | nil => exact ⟨[], nofun, rfl, rfl⟩
  | cons bytes l ih =>
    obtain ⟨hbytes, hl⟩ := List.forall_mem_cons.mp h
    obtain ⟨frames, hframes, hmap, hflat⟩ := ih hl
    rcases hbytes with rfl | ⟨frame, hframe, rfl⟩
    · exact ⟨frames, hframes, hmap, hflat⟩
    · have hne : (!frame.emit.isEmpty) = true := by
        rw [ParsedFrame.emit, emitFrame_eq]
        rfl
      refine ⟨frame :: frames, List.forall_mem_cons.mpr ⟨hframe, hframes⟩, ?_, ?_⟩
      · rw [List.map_cons, hmap]
        exact (List.filter_cons_of_pos (p := fun bytes : Bytes ↦ !bytes.isEmpty) hne).symm
      · rw [List.flatMap_cons, hflat, List.flatten_cons]

/-- **What the client reads is what has been sent.** Whatever part of the bytes that have been
handed to the stream has arrived, the client takes whole frames off it and waits for more, and the
messages among them are some of those that have been posted, in this order. From all bytes it reads
all frames. -/
theorem client_reads_sent {es : List (Event ι)} {s : Draining ι}
    (hrun : start.run maxPayload es = some s) (hlen : ∀ bytes ∈ s.handed, bytes.length < 2 ^ 63)
    {arrived : Bytes} (harrived : arrived <+: s.handed.flatten) :
    ∃ frames rest, (serverFrames (2 ^ 63)).decode arrived = (frames, .ok rest) ∧
      frames.map ParsedFrame.emit <+: s.handed.filter (!·.isEmpty) ∧
      ((frames.filter ParsedFrame.isMessage).map ParsedFrame.emit).Sublist s.session.enqueued ∧
      (arrived = s.handed.flatten →
        frames.map ParsedFrame.emit = s.handed.filter (!·.isEmpty) ∧ rest = []) := by
  have hemitting := emitting_of_run hrun
  have hhanded : ∀ bytes ∈ s.handed, Sound bytes := fun bytes hbytes ↦
    hemitting.trace bytes (List.mem_append_left _ (List.mem_append_left _ hbytes))
  obtain ⟨all, hall, hmap, hflat⟩ := exists_frames hhanded
  have hsendable : ∀ frame ∈ all, frame.Sendable ∧ frame.emit.length < 2 ^ 63 := by
    intro frame hframe
    have hmem : frame.emit ∈ s.handed.filter (!·.isEmpty) := hmap ▸ List.mem_map_of_mem hframe
    exact ⟨hall frame hframe, hlen _ (List.mem_of_mem_filter hmem)⟩
  obtain ⟨frames, rest, hdecode, hpre, harr, hcomplete⟩ :=
    readsBack_serverFrames.decode_of_prefix hsendable (hflat ▸ harrived)
  have hframes : frames.map ParsedFrame.emit <+: s.handed.filter (!·.isEmpty) := hmap ▸ hpre.map _
  refine ⟨frames, rest, hdecode, hframes, ?_, fun hwhole ↦ ?_⟩
  · have hmessages : (frames.filter ParsedFrame.isMessage).map ParsedFrame.emit
        = (frames.map ParsedFrame.emit).filter isData := by
      rw [List.filter_map]
      congr 2
      exact funext fun frame ↦ (isData_emit frame).symm
    have hentered : (s.handed.filter isData).Sublist (s.session.entered.filter isData) := by
      refine List.Sublist.trans (List.Sublist.filter _ ?_) (ordered_of_run hrun).order
      rw [trace, taken, List.append_assoc]
      exact List.sublist_append_left _ _
    rw [hmessages]
    refine (hframes.sublist.filter _).trans ?_
    refine ((List.filter_sublist).filter _).trans (hentered.trans ?_)
    exact List.filter_sublist.trans
      ((List.sublist_append_left _ _).trans hemitting.submitted.order)
  · have hsame := hcomplete (hwhole.trans hflat.symm)
    refine ⟨by rw [hsame, hmap], ?_⟩
    rw [hsame, hwhole, hflat] at harr
    exact List.self_eq_append_right.mp harr

/-- A caller sends a text message, and three of its bytes have arrived. -/
theorem client_reads_sent_hi : ∃ s : Draining Unit,
    start.run 16 (sending () (ascii "hi") ++ List.replicate 5 .strand ++
      List.replicate 4 (.drain 0)) = some s ∧
    s.handed = [emitFrame .text true (ascii "hi")] ∧
    ∃ frames rest,
      (serverFrames (2 ^ 63)).decode (s.handed.flatten.take 3) = (frames, .ok rest) ∧
      frames.map ParsedFrame.emit <+: s.handed.filter (!·.isEmpty) ∧
      ((frames.filter ParsedFrame.isMessage).map ParsedFrame.emit).Sublist s.session.enqueued ∧
      (s.handed.flatten.take 3 = s.handed.flatten →
        frames.map ParsedFrame.emit = s.handed.filter (!·.isEmpty) ∧ rest = []) := by
  obtain ⟨s, hrun, hhanded⟩ : ∃ s : Draining Unit,
      start.run 16 (sending () (ascii "hi") ++ List.replicate 5 .strand ++
        List.replicate 4 (.drain 0)) = some s ∧
      s.handed = [emitFrame .text true (ascii "hi")] := ⟨_, rfl, rfl⟩
  exact ⟨s, hrun, hhanded,
    client_reads_sent hrun (by rw [hhanded]; decide +kernel) (List.take_prefix 3 _)⟩

end Draining

end Aevox
