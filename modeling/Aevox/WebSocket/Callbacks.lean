import Aevox.WebSocket.Interleaving

/-!
# The callbacks of a session

Whatever else happens to a session, its log shows what the client's stream calls for: `Watched` says
that what has been shown, and what the read loop's coroutine has still to show, is what the frames
received so far call for. In particular nothing but the stream decides which callbacks are made.

`on_close` is called for a Close frame, and for nothing else. When the connection is lost, and when
the client violates the protocol or sends too much, the loop ends without it, so the application
learns of the end of the session exactly when the client says goodbye (`on_close_once_iff`).
-/

namespace Aevox

open Coroutine

namespace Session

variable {ι : Type} {maxPayload : ℕ}

/-! ## What the log shows -/

/-- What an entry of the log shows. -/
def Entry.visible : Entry → Option Visible
  | message payload => some (.message payload)
  | close code => some (.close code)
  | posted p => p.visible

/-- What the session has shown so far. -/
def shown (s : Session) : List Visible := s.log.filterMap Entry.visible

theorem shown_of_log {s s' : Session} {e : Entry} (h : s'.log = s.log ++ [e]) :
    s'.shown = s.shown ++ e.visible.toList := by
  rw [shown, h, List.filterMap_append]
  cases hv : e.visible <;> simp [shown, hv]

theorem shown_exec (callback : Code) (op : Op) (s : Session) :
    shown (exec callback op s).2 = s.shown ++ op.visible.toList := by
  cases op with
  | post p =>
    rw [shown_of_log (s := s) rfl]
    rfl
  | onMessage payload =>
    rw [shown_of_log (s := s) rfl]
    rfl
  | onClose code =>
    rw [shown_of_log (s := s) rfl]
    rfl
  | loadClosed => exact (List.append_nil _).symm
  | storeClosed => exact (List.append_nil _).symm
  | claimClose code reason => exact (List.append_nil _).symm

/-- Where the read loop is bound to end up with what has been received. -/
def bound (maxPayload : ℕ) (received : Bytes) (lost : Bool) : Progress :=
  match ((frames maxPayload).decode received).2 with
  | .error ending => .error ending
  | .ok rest => if lost then .error .lost else .ok rest

@[simp] theorem bound_false (received : Bytes) :
    bound maxPayload received false = ((frames maxPayload).decode received).2 := by
  rw [bound]
  cases ((frames maxPayload).decode received).2 <;> rfl

theorem bound_true {received rest : Bytes}
    (h : ((frames maxPayload).decode received).2 = .ok rest) :
    bound maxPayload received true = .error .lost := by
  rw [bound, h]
  rfl

/-- **The invariant**: what has been shown, and what the read loop has still to show, is what the
stream calls for. Nobody else shows anything. -/
structure Watched (maxPayload : ℕ) (s : State ι) : Prop where
  reader : ∃ l, (s.threads .reader).Emits Op.visible (bound maxPayload s.received s.lost) l ∧
    s.session.shown ++ l = shows ((frames maxPayload).decode s.received)
  callers : ∀ i, Hidden (s.threads (.caller i))

theorem watched_start : Watched maxPayload (State.start : State ι) where
  reader := ⟨[], emits_ret _, rfl⟩
  callers _ := trivial

theorem Watched.of_log {s : State ι} (hs : Watched maxPayload s) {session : Session}
    (h : session.log = s.session.log) : Watched maxPayload { s with session := session } where
  reader := by
    obtain ⟨l, hemits, hshown⟩ := hs.reader
    refine ⟨l, hemits, ?_⟩
    rw [← hshown]
    exact congrArg (·.filterMap Entry.visible ++ l) h
  callers := hs.callers

/-- The loop waits for more only when the stream is in the middle of a frame. -/
theorem Watched.of_waiting {s : State ι} (hs : Watched maxPayload s) {accumulator : Bytes}
    (h : s.threads .reader = ret (.ok accumulator)) :
    ((frames maxPayload).decode s.received).2 = .ok accumulator ∧
      s.session.shown = shows ((frames maxPayload).decode s.received) := by
  obtain ⟨l, hemits, hshown⟩ := hs.reader
  rw [h] at hemits
  obtain ⟨hbound, rfl⟩ := hemits
  rw [List.append_nil] at hshown
  refine ⟨?_, hshown⟩
  rw [bound] at hbound
  split at hbound
  · exact nomatch hbound
  · split at hbound
    · exact nomatch hbound
    · rw [Except.ok.inj hbound]
      assumption

theorem decode_more {received rest : Bytes}
    (h : ((frames maxPayload).decode received).2 = .ok rest) (chunk : Bytes) :
    ((frames maxPayload).decode (received ++ chunk)).2
        = ((frames maxPayload).decode (rest ++ chunk)).2 ∧
      shows ((frames maxPayload).decode (received ++ chunk))
        = shows ((frames maxPayload).decode received)
          ++ shows ((frames maxPayload).decode (rest ++ chunk)) := by
  have happend := (frames maxPayload).decode_append received chunk
  rcases hd : (frames maxPayload).decode received with ⟨items, ending | rest'⟩
  · rw [hd] at h
    exact nomatch h
  · rw [hd] at h happend
    obtain rfl : rest' = rest := Except.ok.inj h
    rw [happend]
    refine ⟨rfl, ?_⟩
    simp only [shows, List.flatMap_append, endingShows, List.append_nil, List.append_assoc]

variable [DecidableEq ι]

theorem Watched.read {s : State ι} (hs : Watched maxPayload s) {accumulator : Bytes}
    (h : s.threads .reader = ret (.ok accumulator)) (data : Option Bytes) :
    Watched maxPayload { s with
      threads := Function.update s.threads .reader (doReadLoop maxPayload accumulator data)
      received := s.received ++ data.getD []
      lost := data.getD [] = [] } where
  reader := by
    obtain ⟨hrest, hshown⟩ := hs.of_waiting h
    dsimp only
    rw [Function.update_self, hshown]
    by_cases hdata : data.getD [] = []
    · refine ⟨[], ?_, ?_⟩
      · rw [hdata, List.append_nil, decide_eq_true rfl, bound_true hrest]
        exact emits_doReadLoop_lost hdata accumulator
      · rw [hdata, List.append_nil, List.append_nil]
    · obtain ⟨chunk, rfl⟩ : ∃ chunk, data = some chunk := by
        cases data with
        | none => exact absurd rfl hdata
        | some chunk => exact ⟨chunk, rfl⟩
      obtain ⟨hbound, hshows⟩ := decode_more hrest chunk
      refine ⟨shows ((frames maxPayload).decode (accumulator ++ chunk)), ?_, hshows.symm⟩
      rw [decide_eq_false hdata, bound_false, Option.getD_some, hbound]
      exact emits_doReadLoop hdata accumulator
  callers i := hs.callers i

theorem hidden_update {threads : (t : Party ι) → Thread t.Result}
    (h : ∀ i, Hidden (threads (.caller i))) {i : ι} {c : Thread Unit} (hc : Hidden c) (i' : ι) :
    Hidden (Function.update threads (.caller i) c (.caller i')) := by
  rcases eq_or_ne i' i with rfl | hne
  · rw [Function.update_self]
    exact hc
  · rw [Function.update_of_ne fun h ↦ hne (Party.caller.inj h)]
    exact h i'

theorem Watched.call {s : State ι} (hs : Watched maxPayload s) (i : ι) (code : Code) :
    Watched maxPayload
      { s with threads := Function.update s.threads (.caller i) (runCode code) } where
  reader := hs.reader
  callers := hidden_update hs.callers (hidden_runCode code)

theorem Watched.turn {s : State ι} (hs : Watched maxPayload s) {t : Party ι} {op : Op}
    {k : op.Answer → Thread t.Result} (h : s.threads t = Coroutine.call op k) (callback : Code) :
    Watched maxPayload { s with
      session := (exec callback op s.session).2
      threads := Function.update s.threads t (k (exec callback op s.session).1) } := by
  cases t with
  | reader =>
    refine ⟨?_, hs.callers⟩
    obtain ⟨l, hemits, hshown⟩ := hs.reader
    rw [h] at hemits
    dsimp only
    rw [Function.update_self, shown_exec, ← hshown]
    cases hop : op.visible with
    | none =>
      refine ⟨l, (emits_call_of_none hop).mp hemits _, ?_⟩
      rw [Option.toList_none, List.append_nil]
    | some e =>
      obtain ⟨l', rfl, hk⟩ := (emits_call_of_some hop).mp hemits
      refine ⟨l', hk _, ?_⟩
      rw [Option.toList_some, List.append_assoc]
      rfl
  | caller i =>
    have hhidden := hs.callers i
    rw [h] at hhidden
    refine ⟨?_, hidden_update hs.callers (hhidden.2 _)⟩
    obtain ⟨l, hemits, hshown⟩ := hs.reader
    refine ⟨l, hemits, ?_⟩
    dsimp only
    rw [shown_exec, not_not.mp hhidden.1, Option.toList_none, List.append_nil, hshown]

/-- **Every run is watched.** -/
theorem watched_of_run {es : List (Event ι)} {s : State ι}
    (hrun : State.start.run maxPayload es = some s) : Watched maxPayload s := by
  refine Machine.run_invariant (fun s e s' hs hstep ↦ ?_) watched_start hrun
  cases moves_of_step hstep with
  | read h => exact hs.read h _
  | call h => exact hs.call _ _
  | turn h => exact hs.turn h _
  | @strand p rest h => exact hs.of_log (congrArg Prod.fst (runPosted_spec _ p).1)
  | @written frame success h => exact hs.of_log (congrArg Prod.fst (written_spec _ success).1)

end Session

end Aevox
