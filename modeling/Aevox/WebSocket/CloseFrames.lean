import Aevox.Library.Provenance
import Aevox.Library.Utf8
import Aevox.WebSocket.ControlFrames

/-!
# Well-formed Close frames

A Close frame carries a status code, of which some must not be sent, and a reason in UTF-8. The
session checks neither: `close` passes its arguments on, the echo of the client's Close frame takes
over its code, and `emit_close_frame` cuts the reason after a number of bytes, which may be inside a
character. So the Close frame of a session is well-formed exactly when the one compare-and-swap that
wins is for a code that may be sent and a reason whose beginning is valid (`sends_well_formed_iff`).

Where it may come from is a matter of the application's code and of the client's byte stream
(`mem_wanted_of_hasWon`). The Close frames that answer violations are always well-formed.
-/

namespace Aevox

open Coroutine

namespace Session

/-! ## Well-formed frames -/

/-- The status code may appear on the wire. -/
def Sendable (code : UInt16) : Prop :=
  1000 ≤ code ∧ code ≠ 1004 ∧ code ≠ 1005 ∧ code ≠ 1006 ∧ code ≠ 1015

instance (code : UInt16) : Decidable (Sendable code) := inferInstanceAs (Decidable (_ ∧ _))

/-- A Close frame without a body, or with a status code and a reason. -/
def WellFormedClose (frame : Bytes) : Prop :=
  frame = [0x88, 0] ∨ ∃ (code : UInt16) (reason : Bytes), Sendable code ∧ Utf8.IsText reason ∧
    reason.length ≤ kMaxCloseReasonBytes ∧
    frame = 0x88 :: (reason.length + kCloseCodeBytes).toUInt8 ::
      (code >>> 8).toUInt8 :: code.toUInt8 :: reason

/-- Every Close frame that has been enqueued is well-formed. -/
def SendsWellFormed (s : Session) : Prop := ∀ frame ∈ closeFrames s, WellFormedClose frame

/-- The code may be sent, and the reason is cut between two characters if it is cut. -/
def Proper (code : UInt16) (reason : Bytes) : Prop :=
  Sendable code ∧ Utf8.IsText (reason.take kMaxCloseReasonBytes)

theorem proper_nil {code : UInt16} (h : Sendable code) : Proper code [] := ⟨h, Utf8.isText_nil⟩

theorem emitCloseFrame_eq (code : UInt16) (reason : Bytes) :
    emitCloseFrame code reason
      = 0x88 :: ((reason.take kMaxCloseReasonBytes).length + kCloseCodeBytes).toUInt8 ::
        (code >>> 8).toUInt8 :: code.toUInt8 :: reason.take kMaxCloseReasonBytes := by
  have hcut := List.length_take_le kMaxCloseReasonBytes reason
  have hfits : ((code >>> 8).toUInt8 :: code.toUInt8 :: reason.take kMaxCloseReasonBytes).length
      < kPayload16Marker.toNat :=
    Nat.lt_of_le_of_lt (Nat.add_le_add_right hcut kCloseCodeBytes) (by decide)
  rw [emitCloseFrame, emitFrame, if_pos rfl, if_pos hfits]
  rfl

theorem eq_of_bytes {code code' : UInt16} (hhigh : (code >>> 8).toUInt8 = (code' >>> 8).toUInt8)
    (hlow : code.toUInt8 = code'.toUInt8) : code = code' := by
  have hhigh' := congrArg UInt8.toNat hhigh
  have hlow' := congrArg UInt8.toNat hlow
  have hlt := code.toNat_lt
  have hlt' := code'.toNat_lt
  rw [UInt16.toNat_toUInt8, UInt16.toNat_toUInt8, UInt16.toNat_shiftRight,
    UInt16.toNat_shiftRight] at hhigh'
  rw [UInt16.toNat_toUInt8, UInt16.toNat_toUInt8] at hlow'
  have hshift : ∀ n : ℕ, n >>> ((8 : UInt16).toNat % 16) = n / 256 := fun n ↦
    Nat.shiftRight_eq_div_pow n 8
  rw [hshift, hshift] at hhigh'
  apply UInt16.toNat_inj.mp
  omega

/-- **A Close frame is well-formed when its code and its reason are proper.** -/
theorem wellFormedClose_emitCloseFrame_iff {code : UInt16} {reason : Bytes} :
    WellFormedClose (emitCloseFrame code reason) ↔ Proper code reason := by
  rw [emitCloseFrame_eq]
  constructor
  · rintro (hempty | ⟨code', reason', hcode, hreason, -, hframe⟩)
    · exact absurd (List.cons.inj (List.cons.inj hempty).2).2 (List.cons_ne_nil _ _)
    · obtain ⟨-, hframe⟩ := List.cons.inj hframe
      obtain ⟨-, hframe⟩ := List.cons.inj hframe
      obtain ⟨hhigh, hframe⟩ := List.cons.inj hframe
      obtain ⟨hlow, hcut⟩ := List.cons.inj hframe
      rw [Proper, eq_of_bytes hhigh hlow, hcut]
      exact ⟨hcode, hreason⟩
  · rintro ⟨hcode, hreason⟩
    exact Or.inr ⟨code, _, hcode, hreason, List.length_take_le _ _, rfl⟩

/-! ## What asks for a Close frame -/

/-- What some path of the code closes the session with. -/
def closesOf (code : Code) : Set (UInt16 × Bytes) :=
  {p | ¬code.Avoids (· = .closeGraceful p.1 p.2)}

@[simp] theorem closesOf_ret : closesOf (ret ()) = ∅ :=
  Set.eq_empty_iff_forall_notMem.mpr fun _ hp ↦ hp trivial

theorem mem_closesOf_call {c : Call} {k : c.Result → Code} {p : UInt16 × Bytes} :
    p ∈ closesOf (call c k) ↔ c = .closeGraceful p.1 p.2 ∨ ∃ x, p ∈ closesOf (k x) := by
  simp only [closesOf, Set.mem_ofPred_eq, Avoids, not_and_or, not_not, not_forall]

theorem closesOf_closeGraceful (code : UInt16) (reason : Bytes) :
    closesOf (call (.closeGraceful code reason) fun _ ↦ ret ()) = {(code, reason)} := by
  ext p
  rw [mem_closesOf_call, Set.mem_singleton_iff]
  constructor
  · rintro (heq | ⟨x, hp⟩)
    · obtain ⟨rfl, rfl⟩ := Call.closeGraceful.inj heq
      rfl
    · rw [closesOf_ret] at hp
      exact hp.elim
  · rintro rfl
    exact Or.inl rfl

/-- What the application may close the session with when it gets this answer. -/
def askedBy : (op : Op) → op.Answer → Set (UInt16 × Bytes)
  | .onMessage _, code => closesOf code
  | .onClose _, code => closesOf code
  | _, _ => ∅

/-- What the read loop answers the end of the stream with. -/
def replies : Progress → Set (UInt16 × Bytes)
  | .error (.closedByPeer payload) => {(closeCode payload, [])}
  | .error (.violated error) =>
    if error.code = .frameTooLarge then {(kCloseMessageTooLarge, ascii "Message too large")}
    else {(kCloseProtocolError, ascii "Protocol error")}
  | _ => ∅

/-- The Close frame an operation tries to send. -/
def Op.claimed : Op → Option (UInt16 × Bytes)
  | claimClose code reason => some (code, reason)
  | _ => none

/-- What a party may do that has been asked for these Close frames only. -/
def allowed (P : Set (UInt16 × Bytes)) : Set Op := {op | ∀ p, op.claimed = some p → p ∈ P}

/-- What an answer tells the party to do. -/
def tells (op : Op) (x : op.Answer) : Set Op := {op' | ∃ p ∈ askedBy op x, op'.claimed = some p}

/-- Every Close frame the party tries to send is in `P`, or a callback has asked for it. -/
abbrev Closes {α : Type} (P : Set (UInt16 × Bytes)) (c : Thread α) : Prop :=
  c.Within tells (allowed P)

theorem allowed_mono {P Q : Set (UInt16 × Bytes)} (h : P ⊆ Q) : allowed P ⊆ allowed Q :=
  fun _ hop p hp ↦ h (hop p hp)

/-- What a callback has asked for is allowed behind it. -/
theorem allowed_askedBy_subset (P : Set (UInt16 × Bytes)) (op : Op) (x : op.Answer) :
    allowed (askedBy op x) ⊆ allowed P ∪ tells op x := by
  intro op' hop'
  cases hclaimed : op'.claimed with
  | none => exact Or.inl fun p hp ↦ nomatch hclaimed.symm.trans hp
  | some p => exact Or.inr ⟨p, hop' p hclaimed, hclaimed⟩

theorem allowed_union_tells_subset {P Q : Set (UInt16 × Bytes)} (hPQ : P ⊆ Q) {op : Op}
    {x : op.Answer} (hx : askedBy op x ⊆ Q) : allowed P ∪ tells op x ⊆ allowed Q := by
  rintro op' (hop' | ⟨p, hasked, hclaimed⟩)
  · exact allowed_mono hPQ hop'
  · intro p' hp'
    obtain rfl := Option.some.inj (hclaimed.symm.trans hp')
    exact hx hasked

/-! ## The parties -/

section Parties

variable {P : Set (UInt16 × Bytes)}

theorem closes_call_other {α : Type} {op : Op} (h : op.claimed = none) {k : op.Answer → Thread α}
    (hk : ∀ x, Closes P (k x)) : Closes P (call op k) :=
  ⟨fun _ hp ↦ (nomatch h.symm.trans hp), fun x ↦ (hk x).mono Set.subset_union_left⟩

theorem closes_sendClose {code : UInt16} {reason : Bytes} (h : (code, reason) ∈ P) :
    Closes P (sendClose code reason) := by
  constructor
  · intro p hp
    rwa [← Option.some.inj hp]
  · intro won
    apply Within.mono Set.subset_union_left
    cases won with
    | false => trivial
    | true => exact closes_call_other rfl fun _ ↦ trivial

theorem closes_closeSession : Closes P closeSession := closes_call_other rfl fun _ ↦ trivial

theorem closes_send (opcode : Opcode) (data : Bytes) : Closes P (send opcode data) := by
  apply closes_call_other rfl
  rintro (_ | _)
  · exact closes_call_other rfl fun _ ↦ trivial
  · trivial

theorem closes_call {c : Call}
    (h : ∀ code reason, c = .closeGraceful code reason → (code, reason) ∈ P) : Closes P c.run := by
  cases c with
  | sendText message => exact closes_send .text message
  | sendBinary data => exact closes_send .binary data
  | closeGraceful code reason =>
    apply closes_call_other rfl
    rintro (_ | _)
    · exact within_andThen (fun _ ↦ trivial) (closes_sendClose (h code reason rfl))
    · trivial
  | sendFromBus message =>
    apply closes_call_other rfl
    rintro (_ | _)
    · exact closes_call_other rfl fun _ ↦ trivial
    · trivial
  | isClosed => exact closes_call_other rfl fun _ ↦ trivial

/-- Application code asks for the Close frames it asks for. -/
theorem closes_runCode {code : Code} (h : closesOf code ⊆ P) : Closes P (runCode code) := by
  have havoids : code.Avoids fun c ↦ ∃ p : {p : UInt16 × Bytes // p ∉ P},
      c = .closeGraceful p.1.1 p.1.2 :=
    avoids_exists fun p ↦ not_not.mp fun hp ↦ p.2 (h hp)
  apply within_interpret
  refine havoids.mono fun c hc ↦ ?_
  by_contra hnone
  refine hc (closes_call fun closeCode reason heq ↦ ?_)
  by_contra hP
  exact hnone ⟨⟨(closeCode, reason), hP⟩, heq⟩

theorem closes_callback (op : Op) {x : op.Answer} {code : Code} (h : closesOf code = askedBy op x) :
    (runCode code).Within tells (allowed P ∪ tells op x) :=
  (closes_runCode h.le).mono (allowed_askedBy_subset P op x)

theorem closes_handleFrame {frame : ParsedFrame} (hclose : frame.opcode ≠ .close)
    (hcont : frame.opcode ≠ .continuation) : Closes P (handleFrame frame) := by
  obtain ⟨opcode, fin, payload⟩ := frame
  have hmessage : Closes P (call (.onMessage payload) fun (code : Code) ↦
      (runCode code).andThen fun _ ↦ ret (none : Option Ending)) :=
    ⟨nofun, fun _ ↦ within_andThen (fun _ ↦ trivial) (closes_callback (.onMessage payload) rfl)⟩
  cases opcode with
  | continuation => exact absurd rfl hcont
  | close => exact absurd rfl hclose
  | pong => trivial
  | ping => exact closes_call_other rfl fun _ ↦ trivial
  | text => exact hmessage
  | binary => exact hmessage

theorem closes_handleFrame_close {fin : Bool} {payload : Bytes}
    (h : (closeCode payload, []) ∈ P) : Closes P (handleFrame ⟨.close, fin, payload⟩) := by
  refine within_andThen (fun _ ↦ within_andThen (fun _ ↦ ?_) closes_closeSession)
    (closes_sendClose h)
  exact ⟨nofun, fun _ ↦
    within_andThen (fun _ ↦ trivial) (closes_callback (.onClose (closeCode payload)) rfl)⟩

theorem closes_handleError {error : WebSocketError} (h : replies (.error (.violated error)) ⊆ P) :
    Closes P (handleError error) := by
  refine within_andThen (fun _ ↦ within_andThen (fun _ ↦ trivial) closes_closeSession) ?_
  rw [replies] at h
  split
  · rw [if_pos ‹_›] at h
    exact closes_sendClose (h rfl)
  · rw [if_neg ‹_›] at h
    exact closes_sendClose (h rfl)

theorem closes_parseFrames {maxPayload : ℕ} (l : Bytes)
    (h : replies ((frames maxPayload).decode l).2 ⊆ P) :
    Closes P (parseFrames maxPayload l.length l) := by
  induction l using parse_induction maxPayload with
  | awaits l hawaits =>
    rw [parseFrames_of_awaits hawaits]
    trivial
  | error l err hparse hkind =>
    rw [Decoder.decode_of_stop (D := frames maxPayload) (look_of_error hparse hkind)] at h
    rw [parseFrames_violation hparse hkind]
    exact within_andThen (fun _ ↦ trivial) (closes_handleError h)
  | ok l result hparse ih =>
    obtain ⟨hcont, -⟩ := of_parseFrameDetailed hparse
    obtain ⟨⟨opcode, fin, payload⟩, consumed⟩ := result
    rw [parseFrames_frame hparse]
    by_cases hclose : opcode = .close
    -- what follows a Close frame is not looked at
    · subst hclose
      rw [Decoder.decode_of_stop (D := frames maxPayload) (look_of_close hparse)] at h
      exact within_andThen_of_emits (f := unlessEnded _) (emits_handleFrame_close fin payload)
        trivial (closes_handleFrame_close (h rfl))
    · rw [Decoder.decode_of_item (D := frames maxPayload) (look_of_ok hparse hclose)] at h
      exact within_andThen_of_emits (f := unlessEnded _) (emits_handleFrame hclose hcont) (ih h)
        (closes_handleFrame hclose hcont)

/-- **The read loop sends what the stream calls for, and what callbacks ask for.** -/
theorem closes_doReadLoop {maxPayload : ℕ} {accumulator : Bytes} {data : Option Bytes}
    (h : replies ((frames maxPayload).decode (accumulator ++ data.getD [])).2 ⊆ P) :
    Closes P (doReadLoop maxPayload accumulator data) := by
  have hend : Closes P (closeSession.andThen fun _ ↦ ret (.error .lost : Progress)) :=
    within_andThen (fun _ ↦ trivial) closes_closeSession
  refine within_andThen ?_ ?_
  · rintro (ending | rest)
    · exact within_andThen (fun _ ↦ trivial) closes_closeSession
    · trivial
  · cases data with
    | none => exact hend
    | some chunk =>
      rw [afterRead]
      split
      · exact hend
      · exact closes_parseFrames _ h

end Parties

/-! ## Where the Close frame comes from -/

section Runs

variable {ι : Type} {maxPayload : ℕ}

/-- What the code that starts or is called back in an event may close the session with. -/
def Event.closes : Event ι → Set (UInt16 × Bytes)
  | .call _ code => closesOf code
  | .turn _ callback => closesOf callback
  | _ => ∅

/-- What anybody wants to close the session with: the application, or the read loop in reply to the
client. -/
def wanted (maxPayload : ℕ) (es : List (Event ι)) (received : Bytes) : Set (UInt16 × Bytes) :=
  {p | ∃ e ∈ es, p ∈ e.closes} ∪ replies ((frames maxPayload).decode received).2

theorem askedBy_exec (callback : Code) (op : Op) (s : Session) :
    askedBy op (exec callback op s).1 ⊆ closesOf callback := by
  cases op with
  | onMessage payload => exact subset_rfl
  | onClose code => exact subset_rfl
  | loadClosed => exact Set.empty_subset _
  | storeClosed => exact Set.empty_subset _
  | claimClose code reason => exact Set.empty_subset _
  | post p => exact Set.empty_subset _

variable [DecidableEq ι]

theorem replies_subset_of_moves {s s' : State ι} {e : Event ι} (h : Moves maxPayload s e s')
    (hs : Watched maxPayload s) : replies ((frames maxPayload).decode s.received).2
      ⊆ replies ((frames maxPayload).decode s'.received).2 := by
  cases h with
  | read h =>
    rw [(hs.of_waiting h).1]
    exact Set.empty_subset _
  | call h => exact subset_rfl
  | turn h => exact subset_rfl
  | strand h => exact subset_rfl
  | written h => exact subset_rfl

theorem closes_update {P : Set (UInt16 × Bytes)} {threads : (t : Party ι) → Thread t.Result}
    (h : ∀ t, Closes P (threads t)) {t : Party ι} {c : Thread t.Result} (hc : Closes P c) :
    ∀ t', Closes P (Function.update threads t c t') :=
  (Function.forall_update_iff threads fun _ c' ↦ Closes P c').mpr ⟨hc, fun t' _ ↦ h t'⟩

/-- **Every step**: the parties close the session with nothing but what is wanted. -/
theorem closes_of_moves {P Q : Set (UInt16 × Bytes)} {s s' : State ι} {e : Event ι}
    (h : Moves maxPayload s e s') (hs : Watched maxPayload s) (hPQ : P ⊆ Q) (he : e.closes ⊆ Q)
    (hreplies : replies ((frames maxPayload).decode s'.received).2 ⊆ Q)
    (hcloses : ∀ t, Closes P (s.threads t)) : ∀ t, Closes Q (s'.threads t) := by
  have hbefore : ∀ t, Closes Q (s.threads t) := fun t ↦ (hcloses t).mono (allowed_mono hPQ)
  cases h with
  | @read accumulator data h =>
    refine closes_update hbefore (closes_doReadLoop ?_)
    rw [← (decode_more (hs.of_waiting h).1 _).1]
    exact hreplies
  | call h => exact closes_update hbefore (closes_runCode he)
  | @turn t callback op k h =>
    apply closes_update hbefore
    have hcall := hcloses t
    rw [h] at hcall
    have hasked := (askedBy_exec callback op s.session).trans he
    exact (hcall.2 _).mono (allowed_union_tells_subset hPQ hasked)
  | strand h => exact hbefore
  | written h => exact hbefore

/-- **Every run**: the right to the Close frame is won for something that is wanted. -/
theorem mem_wanted_of_hasWon {es : List (Event ι)} {s : State ι}
    (hrun : State.start.run maxPayload es = some s) {code : UInt16} {reason : Bytes}
    (hwon : HasWon maxPayload es code reason) :
    (code, reason) ∈ wanted maxPayload es s.received := by
  have hevery := Machine.run_history (P := fun es s ↦
      (∀ t, Closes (wanted maxPayload es s.received) (s.threads t)) ∧
        ∀ code reason, HasWon maxPayload es code reason →
          (code, reason) ∈ wanted maxPayload es s.received) ?_ ?_ hrun
  · exact hevery.2 code reason hwon
  · refine ⟨fun t ↦ by cases t <;> trivial, ?_⟩
    rintro code reason ⟨es₁, e, es₂, s₁, hes, -⟩
    exact absurd hes (by simp)
  · rintro es s e s' hrun ⟨hcloses, hwanted⟩ hstep
    have hmoves := moves_of_step hstep
    have hs := watched_of_run hrun
    have hgrows : wanted maxPayload es s.received ⊆ wanted maxPayload (es ++ [e]) s'.received := by
      refine Set.union_subset_union ?_ (replies_subset_of_moves hmoves hs)
      rintro p ⟨e', he', hp⟩
      exact ⟨e', List.mem_append_left _ he', hp⟩
    have hevent : e.closes ⊆ wanted maxPayload (es ++ [e]) s'.received := fun p hp ↦
      Or.inl ⟨e, by simp, hp⟩
    refine ⟨closes_of_moves hmoves hs hgrows hevent Set.subset_union_right hcloses, ?_⟩
    intro code reason hwon'
    rcases (hasWon_concat_iff hrun).mp hwon' with hbefore | ⟨-, t, callback, k, -, ht⟩
    · exact hgrows (hwanted code reason hbefore)
    · have hcall := hcloses t
      rw [ht] at hcall
      exact hgrows (hcall.1 _ rfl)

/-! ## What is sent -/

theorem sendsWellFormed_of_hasWon {es : List (Event ι)} {s : State ι}
    (hrun : State.start.run maxPayload es = some s)
    (h : ∀ code reason, HasWon maxPayload es code reason → Proper code reason) :
    SendsWellFormed s.session := by
  intro frame hframe
  obtain ⟨code, reason, hwon, rfl⟩ := close_of_enqueued hrun hframe
  exact wellFormedClose_emitCloseFrame_iff.mpr (h code reason hwon)

/-- **Close frames are as well-formed as what they are asked for.** In every run, if every step that
wins the right to send the Close frame wins it for a code that may be sent and a reason that is not
cut inside a character, every Close frame enqueued is well-formed; and otherwise one has been
enqueued that is not, by the time nobody is under way any more. -/
theorem sends_well_formed_iff {es : List (Event ι)} {s : State ι}
    (hrun : State.start.run maxPayload es = some s) :
    ((∀ code reason, HasWon maxPayload es code reason → Proper code reason) →
        SendsWellFormed s.session) ∧
      ((∀ t, ∃ a, s.threads t = ret a) → SendsWellFormed s.session →
        ∀ code reason, HasWon maxPayload es code reason → Proper code reason) := by
  refine ⟨sendsWellFormed_of_hasWon hrun, fun hrest hsends code reason hwon ↦ ?_⟩
  obtain ⟨won, hs, hfor⟩ := inv_of_run hrun
  have hused : closeFrames s.session = won.toList := hs.right.used_of_rest hrest
  obtain rfl : won = some (emitCloseFrame code reason) := (hfor _).mpr ⟨code, reason, hwon, rfl⟩
  apply wellFormedClose_emitCloseFrame_iff.mp
  apply hsends
  rw [hused]
  exact List.mem_singleton.mpr rfl

theorem proper_of_violated {error : WebSocketError} {p : UInt16 × Bytes}
    (hp : p ∈ replies (.error (.violated error))) : Proper p.1 p.2 := by
  rw [replies] at hp
  split at hp
  · rw [Set.mem_singleton_iff.mp hp]
    exact ⟨by decide, "Message too large".toList, by decide⟩
  · rw [Set.mem_singleton_iff.mp hp]
    exact ⟨by decide, "Protocol error".toList, by decide⟩

/-- **Close frames are as well-formed as what is asked for**: it is enough that the application
closes the session properly, and the client with a code that may be sent. -/
theorem sendsWellFormed_of_wanted {es : List (Event ι)} {s : State ι}
    (hrun : State.start.run maxPayload es = some s)
    (happ : ∀ e ∈ es, ∀ p ∈ e.closes, Proper p.1 p.2)
    (hclient : ∀ payload,
      ((frames maxPayload).decode s.received).2 = .error (.closedByPeer payload) →
        Sendable (closeCode payload)) : SendsWellFormed s.session := by
  refine sendsWellFormed_of_hasWon hrun fun code reason hwon ↦ ?_
  rcases mem_wanted_of_hasWon hrun hwon with ⟨e, he, hp⟩ | hreply
  · exact happ e he _ hp
  · rcases hend : ((frames maxPayload).decode s.received).2 with (_ | error | payload | _) | rest
    · rw [hend] at hreply
      exact absurd hreply (Set.notMem_empty _)
    · rw [hend] at hreply
      exact proper_of_violated hreply
    · rw [hend] at hreply
      obtain ⟨rfl, rfl⟩ := Prod.mk.inj hreply
      exact proper_nil (hclient payload hend)
    · rw [hend] at hreply
      exact absurd hreply (Set.notMem_empty _)
    · rw [hend] at hreply
      exact absurd hreply (Set.notMem_empty _)

theorem mem_closes_of_call {code : UInt16} {reason : Bytes} {e : Event Unit} {p : UInt16 × Bytes}
    (he : e ∈ [.call () ((call (.closeGraceful code reason) fun _ ↦ ret ()) : Code),
      .turn (.caller ()) (ret ()), .turn (.caller ()) (ret ()), .turn (.caller ()) (ret ())])
    (hp : p ∈ e.closes) : p = (code, reason) := by
  simp only [List.mem_cons, List.not_mem_nil, or_false, or_self] at he
  rcases he with rfl | rfl
  · rwa [Event.closes, closesOf_closeGraceful] at hp
  · rw [Event.closes, closesOf_ret] at hp
    exact hp.elim

/-- A caller that closes the session normally. -/
theorem sends_well_formed_normal : ∃ s : State Unit,
    State.start.run 16 [.call () ((call (.closeGraceful 1000 []) fun _ ↦ ret ()) : Code),
      .turn (.caller ()) (ret ()), .turn (.caller ()) (ret ()), .turn (.caller ()) (ret ())]
        = some s ∧ SendsWellFormed s.session := by
  have hrun : ∃ s : State Unit,
      State.start.run 16 [.call () ((call (.closeGraceful 1000 []) fun _ ↦ ret ()) : Code),
        .turn (.caller ()) (ret ()), .turn (.caller ()) (ret ()), .turn (.caller ()) (ret ())]
          = some s ∧ s.received = [] := ⟨_, rfl, rfl⟩
  obtain ⟨s, hrun, hreceived⟩ := hrun
  refine ⟨s, hrun, (sends_well_formed_iff hrun).1 fun code reason hwon ↦ ?_⟩
  rcases mem_wanted_of_hasWon hrun hwon with ⟨e, he, hp⟩ | hreply
  · obtain ⟨rfl, rfl⟩ := Prod.mk.inj (mem_closes_of_call he hp)
    exact proper_nil (by decide)
  · rw [hreceived] at hreply
    exact hreply.elim

/-- A caller that closes the session with a code that must not be sent, and no reason. -/
theorem not_sends_well_formed : ¬∀ (maxPayload : ℕ) (es : List (Event Unit)) (s : State Unit),
    State.start.run maxPayload es = some s →
      (∀ e ∈ es, ∀ p ∈ e.closes, Utf8.IsText p.2) → SendsWellFormed s.session := by
  intro h
  have hsends := h 16 [.call () ((call (.closeGraceful 1005 []) fun _ ↦ ret ()) : Code),
    .turn (.caller ()) (ret ()), .turn (.caller ()) (ret ()), .turn (.caller ()) (ret ())] _ rfl ?_
  · have hproper : Proper 1005 [] := wellFormedClose_emitCloseFrame_iff.mp
      (hsends (emitCloseFrame 1005 []) (List.mem_singleton.mpr rfl))
    exact absurd hproper.1 (by decide)
  · intro e he p hp
    rw [mem_closes_of_call he hp]
    exact Utf8.isText_nil

end Runs

end Session

end Aevox
