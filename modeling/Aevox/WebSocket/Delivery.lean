import Aevox.WebSocket.Draining

/-!
# What becomes of enqueued frames

There is one writer, and it hands over the data frames in the order in which they were accepted
(`one_writer_fifo`), wherever the strand and the coroutine that drains the queue interrupt each
other: what is pushed to the front of the queue, and what it may push out of its place, is never a
data frame.

Frames can be lost, though, once the coroutine runs beside the strand. A frame that is pushed to the
front between taking the front frame and removing its place is removed in its stead. And a closure
that pushes a frame after the coroutine has found the queue empty, but tests `sending_` before it is
cleared, leaves the frame to a coroutine that returns without looking at the queue again. If neither
happens, no frame is lost (`no_frame_lost`).
-/

namespace Aevox

open Coroutine

namespace Draining

open Session

variable {ι : Type} [DecidableEq ι] {maxPayload : ℕ}

/-! ## Data frames -/

/-- A text or binary frame. -/
def isData (frame : Bytes) : Bool := carries .text frame || carries .binary frame

/-- What goes to the front of the queue is not a data frame. -/
def Proper (p : Posted) : Prop := ∀ frame, p = .priority frame → isData frame = false

/-- The operation posts a data frame to the front of the queue. -/
def Misposts (op : Op) : Prop := ∃ p, op = .post p ∧ ¬Proper p

/-- The coroutine posts no data frame to the front of the queue. -/
abbrev Posts {α : Type} (c : Thread α) : Prop := c.Avoids Misposts

theorem proper_priority {opcode : Opcode} (hdata : opcode ≠ .text ∧ opcode ≠ .binary) (fin : Bool)
    (payload : Bytes) : Proper (.priority (emitFrame opcode fin payload)) := by
  intro frame h
  rw [← Posted.priority.inj h, isData, carries_emitFrame, carries_emitFrame,
    decide_eq_false hdata.1, decide_eq_false hdata.2]
  rfl

theorem not_misposts {op : Op} (h : ∀ p, op = .post p → Proper p) : ¬Misposts op :=
  fun ⟨p, hop, hp⟩ ↦ hp (h p hop)

/-- No coroutine of the session posts a data frame to the front of the queue. -/
theorem posts_discipline : Discipline fun c ↦ Posts c := by
  refine avoids_discipline (fun hop ↦ not_misposts ?_) (fun _ _ ↦ not_misposts nofun)
    fun _ _ ↦ not_misposts fun p hp ↦ ?_
  · cases hop with
    | pong payload =>
      intro p hp
      rw [← Op.post.inj hp]
      exact proper_priority (by decide) true payload
    | text message =>
      intro p hp
      rw [← Op.post.inj hp]
      exact nofun
    | binary data =>
      intro p hp
      rw [← Op.post.inj hp]
      exact nofun
    | bus message =>
      intro p hp
      rw [← Op.post.inj hp]
      exact nofun
    | _ => exact fun p hp ↦ Op.noConfusion hp
  · rw [← Op.post.inj hp]
    exact proper_priority (by decide) true _

/-! ## One writer -/

/-- The invariant. Data frames are never in front of the queue out of turn. -/
structure Ordered (s : Draining ι) : Prop where
  order : (s.trace.filter isData).Sublist (s.session.entered.filter isData)
  placed : Placed (fun place ↦ isData place = false) s
  parties : ∀ t, Posts (s.inner.threads t)
  strand : ∀ p ∈ s.session.strand, Proper p
  task : ∀ p, s.task = .entered p → Proper p

theorem strand_exec {s : Session} (hs : ∀ p ∈ s.strand, Proper p) (callback : Code) {op : Op}
    (hop : ¬Misposts op) : ∀ p ∈ (exec callback op s).2.strand, Proper p := by
  cases op with
  | post p =>
    intro p' hp'
    rcases List.mem_append.mp hp' with hmem | hmem
    · exact hs p' hmem
    · rw [List.mem_singleton.mp hmem]
      exact not_not.mp fun hp ↦ hop ⟨p, rfl, hp⟩
  | loadClosed => exact hs
  | storeClosed => exact hs
  | claimClose code reason => exact hs
  | onMessage payload => exact hs
  | onClose code => exact hs

theorem proper_of_party {s s' : State ι} {e : Session.Event ι} (hparty : isParty e = true)
    (h : s.step maxPayload e = some s') (hparties : ∀ t, Posts (s.threads t))
    (hstrand : ∀ p ∈ s.session.strand, Proper p) :
    (∀ t, Posts (s'.threads t)) ∧ ∀ p ∈ s'.session.strand, Proper p := by
  have hupdate : ∀ {t : Party ι} {c : Thread t.Result}, Posts c →
      ∀ t', Posts (Function.update s.threads t c t') := fun hc ↦
    (Function.forall_update_iff _ fun _ ↦ Posts).mpr ⟨hc, fun t' _ ↦ hparties t'⟩
  cases Session.moves_of_step h with
  | read => exact ⟨hupdate (posts_discipline.doReadLoop _ _), hstrand⟩
  | call => exact ⟨hupdate (posts_discipline.runCode _), hstrand⟩
  | @turn t callback op k hturn =>
    have hcall := hparties t
    rw [hturn] at hcall
    exact ⟨hupdate (hcall.2 _), strand_exec hstrand callback hcall.1⟩
  | strand h => exact absurd hparty Bool.false_ne_true
  | written h => exact absurd hparty Bool.false_ne_true

theorem proper_of_moves {s s' : Draining ι} {e : Event ι} (h : Moves maxPayload s e s')
    (hs : Ordered s) : (∀ t, Posts (s'.inner.threads t)) ∧ (∀ p ∈ s'.session.strand, Proper p) ∧
      ∀ p, s'.task = .entered p → Proper p := by
  have hrelease (d : Drain) : ∀ p, Drain.release d s.task = .entered p → Proper p := by
    intro p hp
    rw [Drain.release] at hp
    split at hp
    · exact absurd hp (by simp)
    · exact hs.task p hp
  cases h with
  | party hparty h =>
    obtain ⟨hparties, hstrand⟩ := proper_of_party hparty h hs.parties hs.strand
    exact ⟨hparties, hstrand, hs.task⟩
  | @next p rest htask h =>
    have hmem := hs.strand
    rw [h] at hmem
    refine ⟨hs.parties, fun p' hp' ↦ hmem p' (List.mem_cons_of_mem _ hp'), fun p' hp' ↦ ?_⟩
    rw [← StrandAt.entered.inj hp']
    exact hmem p List.mem_cons_self
  | emit =>
    refine ⟨hs.parties, hs.strand, fun p' hp' ↦ ?_⟩
    rw [← StrandAt.entered.inj hp']
    exact fun frame hframe ↦ absurd hframe (by simp)
  | @hand i d frame =>
    rw [hand]
    split
    · exact ⟨hs.parties, hs.strand, hs.task⟩
    · exact ⟨hs.parties, hs.strand, hrelease d⟩
  | @leave i d => exact ⟨hs.parties, hs.strand, hrelease d⟩
  | closed => exact ⟨hs.parties, hs.strand, by simp⟩
  | full => exact ⟨hs.parties, hs.strand, by simp⟩
  | room => exact ⟨hs.parties, hs.strand, by simp⟩
  | pushFront => exact ⟨hs.parties, hs.strand, by simp [push]⟩
  | pushBack => exact ⟨hs.parties, hs.strand, by simp [push]⟩
  | busy => exact ⟨hs.parties, hs.strand, by simp⟩
  | alone => exact ⟨hs.parties, hs.strand, by simp⟩
  | start => exact ⟨hs.parties, hs.strand, by simp⟩
  | _ => exact ⟨hs.parties, hs.strand, hs.task⟩

omit [DecidableEq ι] in
theorem order_of_traced {s s' : Draining ι} {e : Event ι} (hs : Ordered s) (h : Traced s e s') :
    (s'.trace.filter isData).Sublist (s'.session.entered.filter isData) := by
  -- what goes into the queue out of order is not a data frame
  have hcontrol {frame place : Bytes} (hplace : isData place = false)
      (htrace : s'.trace = s.taken ++ place :: s.rest)
      (hentered : s'.session.entered = s.session.entered ++ [frame]) :
      (s'.trace.filter isData).Sublist (s'.session.entered.filter isData) := by
    rw [htrace, hentered, List.filter_append, List.filter_append,
      List.filter_cons_of_neg (by rw [hplace]; exact Bool.false_ne_true), ← List.filter_append]
    exact hs.order.trans (List.sublist_append_left _ _)
  cases h with
  | same htrace hentered =>
    rw [htrace, hentered]
    exact hs.order
  | back _ _ htrace hentered =>
    rw [htrace, hentered, List.filter_append, List.filter_append]
    exact hs.order.append (List.Sublist.refl _)
  | front _ htask _ htrace hentered => exact hcontrol (hs.task _ htask _ rfl) htrace hentered
  | lost _ _ hpopping hplace htrace hentered =>
    exact hcontrol (hs.placed hpopping _ _ hplace) htrace hentered
  | cleared _ htrace hentered =>
    rw [hentered]
    exact (htrace.sublist.filter _).trans hs.order

theorem ordered_of_moves {s s' : Draining ι} {e : Event ι} (hsingle : Single s)
    (hs : Ordered s) (h : Moves maxPayload s e s') : Ordered s' := by
  obtain ⟨hparties, hstrand, htask⟩ := proper_of_moves h hs
  refine ⟨order_of_traced hs (traced_of_moves hsingle h), ?_, hparties, hstrand, htask⟩
  exact placed_of_moves (P := fun place ↦ isData place = false) rfl hsingle h
    (fun _ frame htask _ ↦ hs.task _ htask frame rfl) hs.placed

theorem single_of_run {es : List (Event ι)} {s : Draining ι}
    (hrun : start.run maxPayload es = some s) : Single s :=
  Machine.run_invariant (fun _ _ _ hs hstep ↦ single_of_moves hs (moves_of_step hstep))
    single_start hrun

theorem ordered_of_run {es : List (Event ι)} {s : Draining ι}
    (hrun : start.run maxPayload es = some s) : Ordered s := by
  refine (Machine.run_invariant (I := fun s ↦ Single s ∧ Ordered s) (fun s e s' hs hstep ↦ ?_)
    ⟨single_start, ⟨.slnil, fun h ↦ absurd h Bool.false_ne_true, ?_, nofun, nofun⟩⟩ hrun).2
  · have hmoves := moves_of_step hstep
    exact ⟨single_of_moves hs.1 hmoves, ordered_of_moves hs.1 hs.2 hmoves⟩
  · rintro (_ | _) <;> trivial

/-- The frame a suspended coroutine is writing. -/
def inFlight (d : Drain) : Option Bytes :=
  match d.stage with
  | .suspended frame => some frame
  | _ => none

/-- The writes in flight. -/
def writes (s : Draining ι) : List Bytes := s.drains.filterMap inFlight

/-- **One writer, first in, first out.** In every run there is at most one write in flight, and the
data frames that have been handed to the stream are some of those that have been accepted, in this
order. -/
theorem one_writer_fifo {es : List (Event ι)} {s : Draining ι}
    (hrun : start.run maxPayload es = some s) : s.writes.length ≤ 1 ∧
      (s.handed.filter isData).Sublist (s.session.entered.filter isData) := by
  constructor
  · have hdrains : s.drains.length ≤ 1 := by
      cases single_of_run hrun with
      | none hdrains => exact hdrains ▸ Nat.zero_le 1
      | one hdrains => exact hdrains ▸ Nat.le_refl 1
    exact (List.length_filterMap_le _ _).trans hdrains
  · refine List.Sublist.trans (List.Sublist.filter _ ?_) (ordered_of_run hrun).order
    rw [trace, taken, List.append_assoc]
    exact List.sublist_append_left _ _

/-- A caller that sends one text message. -/
def sendsText (message : Bytes) : Code := call (.sendText message) fun _ ↦ ret ()

/-- The events of a caller that sends a text message, up to its post. -/
def sending (i : ι) (message : Bytes) : List (Event ι) :=
  [.party (.call i (sendsText message)), .party (.turn (.caller i) (ret ())),
    .party (.turn (.caller i) (ret ()))]

/-- Two messages, and a Ping whose Pong is pushed to the front of the queue while the coroutine is
about to remove the place of the second one. -/
theorem one_writer_fifo_interrupted : ∃ s : Draining Bool,
    start.run 16 (sending false [0x61] ++ sending true [0x62] ++
      [.party (.read (some [0x89, 0x80, 0, 0, 0, 0])), .party (.turn .reader (ret ()))] ++
      List.replicate 5 .strand ++ List.replicate 4 (.drain 0) ++ List.replicate 4 .strand ++
      [.written 0 true, .strand, .drain 0, .drain 0, .strand, .drain 0, .drain 0]) = some s ∧
      s.writes.length ≤ 1 ∧ (s.handed.filter isData).Sublist (s.session.entered.filter isData) :=
  Exists.imp (fun _ hrun ↦ ⟨hrun, one_writer_fifo hrun⟩) ⟨_, rfl⟩

/-! ## No frame is lost -/

/-- No closure is under way or waiting, and no coroutine drains the queue. -/
structure Quiet (s : Draining ι) : Prop where
  strand : s.session.strand = []
  task : s.task = .idle
  drains : s.drains = []

/-- No coroutine will look at the queue again. -/
def Deserted (s : Draining ι) : Prop := ∀ d ∈ s.drains, d.stage = .leaving

/-- As long as no write has failed: nothing is pushed to the front of the queue while a coroutine is
about to remove its first place, and `sending_` is not tested between the coroutine's last look at
the queue and the moment when it clears the flag. -/
def Undisturbed (s : Draining ι) (e : Event ι) : Prop :=
  e = .strand → s.writeFailed = false →
    (∀ frame, s.task = .entered (.priority frame) → s.popping = false) ∧
      (s.task = .pushed → s.drains ≠ [] → ¬Deserted s)

/-- The invariant of undisturbed runs. A closure that has pushed a frame onto a queue nobody looks
at has not tested `sending_` yet, or is about to start a coroutine. -/
structure Kept (s : Draining ι) : Prop where
  trace : s.trace.Perm s.session.entered
  noticed : Deserted s → s.session.sendQueue = [] ∨ s.task = .pushed ∨ s.task = .starting

theorem writeFailed_of_moves {s s' : Draining ι} {e : Event ι} (h : Moves maxPayload s e s')
    (hs' : s'.writeFailed = false) : s.writeFailed = false := by
  cases h with
  | @hand i d frame =>
    rw [hand] at hs'
    split at hs' <;> exact hs'
  | written => exact (Bool.or_eq_false_iff.mp hs').1
  | _ => exact hs'

omit [DecidableEq ι] in
theorem perm_of_traced {s s' : Draining ι} {e : Event ι} (hs : Kept s) (h : Traced s e s')
    (hmeets : Undisturbed s e) (hfailed : s.writeFailed = false)
    (hfailed' : s'.writeFailed = false) : s'.trace.Perm s'.session.entered := by
  cases h with
  | same htrace hentered =>
    rw [htrace, hentered]
    exact hs.trace
  | back _ _ htrace hentered =>
    rw [htrace, hentered]
    exact hs.trace.append_right _
  | @front frame _ _ _ htrace hentered =>
    rw [htrace, hentered]
    have hlast : (s.taken ++ frame :: s.rest).Perm (s.trace ++ [frame]) :=
      List.perm_middle.trans (List.perm_append_singleton frame s.trace).symm
    exact hlast.trans (hs.trace.append_right _)
  | lost he htask hpopping =>
    have hidle := (hmeets he hfailed).1 _ htask
    rw [hpopping] at hidle
    exact absurd hidle.symm Bool.false_ne_true
  | cleared hcleared =>
    rw [hfailed'] at hcleared
    exact absurd hcleared Bool.false_ne_true

/-- As long as frames wait, somebody will notice them. -/
theorem noticed_of_moves {s s' : Draining ι} {e : Event ι} (hsingle : Single s) (hs : Kept s)
    (h : Moves maxPayload s e s') (hmeets : Undisturbed s e) (hfailed : s.writeFailed = false)
    (hfailed' : s'.writeFailed = false) (hdeserted : Deserted s') :
    s'.session.sendQueue = [] ∨ s'.task = .pushed ∨ s'.task = .starting := by
  -- the strand is at work on a frame it has not pushed yet
  have hbefore {task : StrandAt} (htask : s.task = task) (hpushed : task ≠ .pushed)
      (hstarting : task ≠ .starting) (hdeserted : Deserted s) : s.session.sendQueue = [] := by
    rcases hs.noticed hdeserted with hqueue | hcase | hcase
    · exact hqueue
    · exact absurd (htask.symm.trans hcase) hpushed
    · exact absurd (htask.symm.trans hcase) hstarting
  -- the coroutine is there to look at the queue
  have hthere {i : ℕ} {d : Drain} (hd : s.drains[i]? = some d) (d' : Drain) {P : Prop}
      (hmem : Deserted s') (hset : s'.drains = s.drains.set i d') (hstage : d'.stage ≠ .leaving) :
      P := by
    obtain ⟨rfl, hdrains, -⟩ := hsingle.of_drain hd
    rw [Deserted, hset, hdrains] at hmem
    exact absurd (hmem d' List.mem_cons_self) hstage
  cases h with
  | @party e inner hparty h =>
    have hqueue := congrArg Prod.fst (queueState_of_party hparty h)
    exact (hs.noticed hdeserted).imp_left hqueue.trans
  | next htask => exact Or.inl (hbefore htask (by simp) (by simp) hdeserted)
  | closed htask => exact Or.inl (hbefore htask (by simp) (by simp) hdeserted)
  | emit htask => exact Or.inl (hbefore htask (by simp) (by simp) hdeserted)
  | full htask => exact Or.inl (hbefore htask (by simp) (by simp) hdeserted)
  | room htask => exact Or.inl (hbefore htask (by simp) (by simp) hdeserted)
  | pushFront => exact Or.inr (Or.inl rfl)
  | pushBack => exact Or.inr (Or.inl rfl)
  | busy htask h =>
    -- `sending_` is set, so there is a coroutine, and it has not left the loop
    cases hsingle with
    | none _ hsending =>
      rw [h] at hsending
      exact absurd hsending.symm Bool.false_ne_true
    | one hdrains =>
      have hne : s.drains ≠ [] := hdrains ▸ List.cons_ne_nil _ _
      exact absurd hdeserted ((hmeets rfl hfailed).2 htask hne)
  | alone => exact Or.inr (Or.inr rfl)
  | start =>
    have hlast := hdeserted ⟨.testing, true⟩ (List.mem_append_right _ List.mem_cons_self)
    exact absurd hlast (by simp)
  | empty _ _ h => exact Or.inl h
  | @more i d hd => exact hthere hd { d with stage := .taking } hdeserted rfl (by simp)
  | @take i d frame queue hd =>
    exact hthere hd { d with stage := .popping frame } hdeserted rfl (by simp)
  | @pop i d frame front queue hd =>
    exact hthere hd { d with stage := .writing frame } hdeserted rfl (by simp)
  | @hand i d frame hd =>
    by_cases hnil : frame = []
    · refine hthere hd { d with stage := .testing } hdeserted ?_ (by simp)
      rw [hand, if_pos hnil]
      rfl
    · refine hthere hd ⟨.suspended frame, false⟩ hdeserted ?_ (by simp)
      rw [hand, if_neg hnil]
  | @fail i d hd => exact hthere hd { d with stage := .clearing } hdeserted rfl (by simp)
  | clear => exact Or.inl rfl
  | @leave i d hd hstage =>
    obtain ⟨rfl, hdrains, -, hstarting, hstrand, -, -⟩ := hsingle.of_drain hd
    have hnoticed : s.session.sendQueue = [] ∨ s.task = .pushed ∨ s.task = .starting := by
      refine hs.noticed fun d' hd' ↦ ?_
      rw [hdrains] at hd'
      rw [List.mem_singleton.mp hd', hstage]
    by_cases honStrand : d.onStrand = true
    · -- the closure is in `ff_drain_queue`
      rcases hnoticed with hqueue | hcase | hcase
      · exact Or.inl hqueue
      · exact absurd ((hstrand.mp honStrand).symm.trans hcase) (by simp)
      · exact absurd hcase hstarting
    · have htask : Drain.release d s.task = s.task := if_neg honStrand
      exact hnoticed.imp_right fun hcase ↦ by rwa [htask]
  | @written i d frame success hd =>
    cases success with
    | true => exact hthere hd { d with stage := .testing } hdeserted rfl (by simp)
    | false => exact absurd (Bool.or_eq_false_iff.mp hfailed').2 (by simp)

/-- Until a write fails, undisturbed runs keep the invariant. -/
theorem kept_of_run {es : List (Event ι)} {s : Draining ι} (hrun : start.run maxPayload es = some s)
    (hmeets : Machine.Along (step maxPayload) Undisturbed start es)
    (hfailed : s.writeFailed = false) : Kept s := by
  have hs : Single s ∧ (s.writeFailed = false → Kept s) := by
    refine Machine.run_invariant_along (I := fun s ↦ Single s ∧ (s.writeFailed = false → Kept s))
      (fun s e s' hs hC hstep ↦ ?_) hmeets ⟨single_start, fun _ ↦ ⟨.nil, fun _ ↦ Or.inl rfl⟩⟩ hrun
    have hmoves := moves_of_step hstep
    refine ⟨single_of_moves hs.1 hmoves, fun hfailed' ↦ ?_⟩
    have hfailed := writeFailed_of_moves hmoves hfailed'
    have hkept := hs.2 hfailed
    exact ⟨perm_of_traced hkept (traced_of_moves hs.1 hmoves) hC hfailed hfailed',
      noticed_of_moves hs.1 hkept hmoves hC hfailed hfailed'⟩
  exact hs.2 hfailed

omit [DecidableEq ι] in
theorem Kept.perm_handed {s : Draining ι} (hs : Kept s) (hquiet : Quiet s) :
    s.session.entered.Perm s.handed := by
  have hqueue : s.session.sendQueue = [] := by
    rcases hs.noticed (fun d hd ↦ absurd (hquiet.drains ▸ hd) List.not_mem_nil)
      with hqueue | hcase | hcase
    · exact hqueue
    · exact absurd (hquiet.task.symm.trans hcase) nofun
    · exact absurd (hquiet.task.symm.trans hcase) nofun
  have htrace := hs.trace
  rw [trace_of_no_drains hquiet.drains, hqueue, List.append_nil] at htrace
  exact htrace.symm

/-- **No frame is lost.** In every run whose steps do not disturb the coroutine, once it has
returned and no closure is under way, the frames that have entered the queue are those that have
been handed to the stream, unless a write has failed. -/
theorem no_frame_lost {es : List (Event ι)} {s : Draining ι}
    (hrun : start.run maxPayload es = some s)
    (hmeets : Machine.Along (step maxPayload) Undisturbed start es) (hquiet : Quiet s)
    (hfailed : s.writeFailed = false) : s.session.entered.Perm s.handed :=
  (kept_of_run hrun hmeets hfailed).perm_handed hquiet

omit [DecidableEq ι] in
theorem undisturbed_of_drains {s : Draining ι} (h : s.drains = []) (e : Event ι) :
    Undisturbed s e := by
  refine fun _ _ ↦ ⟨fun _ _ ↦ ?_, fun _ hne ↦ absurd h hne⟩
  rw [popping, h]
  rfl

/-- A closure that pushes a frame while nobody drains the queue, and starts a coroutine that sends
it. -/
theorem no_frame_lost_alone : ∃ s : Draining Unit,
    start.run 16 (sending () [0x61] ++ (List.replicate 5 .strand ++
      (List.replicate 4 (.drain 0) ++ [.written 0 true, .drain 0, .drain 0]))) = some s ∧
      s.session.entered.Perm s.handed := by
  obtain ⟨s₁, s₂, s, hrun₁, hrun₂, hrun₃, hquiet, hfailed, hmeets⟩ : ∃ s₁ s₂ s : Draining Unit,
      start.run 16 (sending () [0x61]) = some s₁ ∧
        s₁.run 16 (List.replicate 5 .strand) = some s₂ ∧
        s₂.run 16 (List.replicate 4 (.drain 0) ++ [.written 0 true, .drain 0, .drain 0]) = some s ∧
        Quiet s ∧ s.writeFailed = false ∧
        Machine.Along (step 16) Undisturbed s₁ (List.replicate 5 .strand) := by
    refine ⟨_, _, _, rfl, rfl, rfl, ⟨rfl, rfl, rfl⟩, rfl, ?_⟩
    iterate 5 refine Machine.along_cons (undisturbed_of_drains rfl _) rfl ?_
    trivial
  have hrun := Machine.run_trans hrun₁ (Machine.run_trans hrun₂ hrun₃)
  have hothers : ∀ {es : List (Event Unit)} {s : Draining Unit}, (∀ e ∈ es, e ≠ .strand) →
      Machine.Along (step 16) Undisturbed s es := fun hes ↦
    Machine.along_of_forall fun e he _ hstrand ↦ absurd hstrand (hes e he)
  refine ⟨s, hrun, no_frame_lost hrun ?_ hquiet hfailed⟩
  refine Machine.along_append (hothers ?_) hrun₁ (Machine.along_append hmeets hrun₂ (hothers ?_))
  · simp [sending]
  · simp

/-- The coroutine has found the queue empty and has not cleared `sending_` yet when a second message
is pushed. -/
theorem not_no_frame_lost : ¬∀ (maxPayload : ℕ) (es : List (Event Unit)) (s : Draining Unit),
    start.run maxPayload es = some s → Quiet s → s.writeFailed = false →
      ∀ frame ∈ s.session.entered, frame ∈ s.handed := by
  intro h
  obtain ⟨s, hrun, hquiet, hfailed, hentered, hhanded⟩ : ∃ s : Draining Unit,
      start.run 16 (sending () [0x61] ++ List.replicate 5 .strand ++ List.replicate 4 (.drain 0) ++
        [.written 0 true, .drain 0] ++ sending () [0x62] ++ List.replicate 4 .strand ++
        [.drain 0]) = some s ∧ Quiet s ∧ s.writeFailed = false ∧
      s.session.entered = [[0x81, 1, 0x61], [0x81, 1, 0x62]] ∧ s.handed = [[0x81, 1, 0x61]] :=
    ⟨_, rfl, ⟨rfl, rfl, rfl⟩, rfl, rfl, rfl⟩
  have hmem := h 16 _ s hrun hquiet hfailed [0x81, 1, 0x62] (by rw [hentered]; decide)
  rw [hhanded] at hmem
  exact absurd hmem (by decide)

end Draining

end Aevox
