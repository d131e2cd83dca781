import Aevox.WebSocket.Draining

/-!
# Waiting for the end of a session

The coroutine of the connection parks itself in `wait_for_close`: it stores its handle and looks at
`closed_` once more. The read loop, behind its own loop, sets `closed_`, takes the handle and
resumes it. Whoever removes the handle from its slot continues the coroutine: the read loop by its
exchange, or the coroutine itself by its compare-and-swap, when it has seen `closed_` after storing
the handle. `Place` says where the handle is; it is in one place at a time, and when nobody will
move any more, it has been continued (`resumed_once`).
-/

namespace Aevox

open Coroutine

namespace Session

/-- The address of a coroutine. -/
abbrev Handle : Type := ℕ

/-- Where the coroutine of the connection is in `wait_for_close`. -/
inductive WaiterAt where
  /-- Before the first test of `closed_`. -/
  | entering
  /-- Before `await_ready`. -/
  | ready
  /-- In `await_suspend`, before it stores the handle. -/
  | storing
  /-- Before it tests `closed_` again. -/
  | rechecking
  /-- Before `try_claim_waiter`. -/
  | claiming
  /-- `await_suspend` has returned true: it waits to be resumed. -/
  | parked
  /-- It has gone on by itself. -/
  | returned
  deriving DecidableEq

/-- Where the read loop is on its way out. -/
inductive ExitAt where
  /-- Before the exchange. -/
  | looping
  /-- With what the exchange has returned. -/
  | resuming (addr : Option Handle)
  | exited
  deriving DecidableEq

end Session

/-- A session and the coroutine that waits for its end, with the coroutines that have been continued
behind `wait_for_close`. -/
structure Waiting (ι : Type) where
  inner : Draining ι
  closeWaiterAddr : Option Session.Handle
  waiter : Session.WaiterAt
  exit : Session.ExitAt
  continued : List Session.Handle

namespace Waiting

open Session

/-- What can happen next. -/
inductive Event (ι : Type) where
  /-- The session moves: its read loop, a caller, the strand or a write. -/
  | inner (e : Draining.Event ι)
  /-- The coroutine in `wait_for_close` moves. -/
  | waiter
  /-- The read loop moves, behind its loop. -/
  | exit

variable {ι : Type}

/-- A new session. -/
def start : Waiting ι where
  inner := Draining.start
  closeWaiterAddr := none
  waiter := .entering
  exit := .looping
  continued := []

/-- `closed_` -/
abbrev closed (s : Waiting ι) : Bool := s.inner.session.closed

/-- The read loop has ended, and set `closed_` for the last time. -/
def readerEnded (s : Waiting ι) : Bool :=
  match s.inner.inner.threads .reader with
  | .ret (.error _) => true
  | _ => false

/-- A coroutine goes on behind `wait_for_close`. -/
def resume (s : Waiting ι) (h : Handle) : Waiting ι := { s with continued := s.continued ++ [h] }

/-- The next access of `wait_for_close`, by the coroutine with this handle. -/
def waiterStep (h : Handle) (s : Waiting ι) : Option (Waiting ι) :=
  match s.waiter with
  | .entering =>
    if s.closed then some { s.resume h with waiter := .returned }
    else some { s with waiter := .ready }
  | .ready =>
    if s.closed then some { s.resume h with waiter := .returned }
    else some { s with waiter := .storing }
  | .storing => some { s with closeWaiterAddr := some h, waiter := .rechecking }
  | .rechecking =>
    if s.closed then some { s with waiter := .claiming } else some { s with waiter := .parked }
  | .claiming =>
    if s.closeWaiterAddr = some h then
      some { s.resume h with closeWaiterAddr := none, waiter := .returned }
    else some { s with waiter := .parked }
  | .parked => none
  | .returned => none

/-- The next step of the read loop behind its loop. -/
def exitStep (s : Waiting ι) : Option (Waiting ι) :=
  match s.exit with
  | .looping =>
    if s.readerEnded then
      some { s with closeWaiterAddr := none, exit := .resuming s.closeWaiterAddr }
    else none
  | .resuming none => some { s with exit := .exited }
  | .resuming (some addr) => some { s.resume addr with exit := .exited }
  | .exited => none

/-- What happens, if it can. -/
def step [DecidableEq ι] (maxPayload : ℕ) (h : Handle) (s : Waiting ι) :
    Event ι → Option (Waiting ι)
  | .inner e => (s.inner.step maxPayload e).map fun inner ↦ { s with inner }
  | .waiter => s.waiterStep h
  | .exit => s.exitStep

/-- The state after a sequence of events. -/
def run [DecidableEq ι] (maxPayload : ℕ) (h : Handle) (s : Waiting ι) (es : List (Event ι)) :
    Option (Waiting ι) :=
  Machine.run (step maxPayload h) s es

/-! ## `closed_` -/

/-- The read loop does not end before it has set `closed_`. -/
def EndsClosed : Thread Progress → Prop
  | ret progress => ∃ rest, progress = .ok rest
  | raise _ => True
  | call op k => op = .storeClosed ∨ ∀ x, EndsClosed (k x)

theorem endsClosed_andThen_afterLoop (c : Thread Progress) : EndsClosed (c.andThen afterLoop) := by
  induction c with
  | ret progress =>
    cases progress with
    | error ending => exact Or.inl rfl
    | ok rest => exact ⟨rest, rfl⟩
  | raise e => exact e.elim
  | call op k ih => exact Or.inr ih

/-- `closed_` is set, or the read loop has not ended. -/
def Shuts (s : Session.State ι) : Prop :=
  s.session.closed = true ∨ EndsClosed (s.threads .reader)

variable [DecidableEq ι] {maxPayload : ℕ} {h : Handle}

/-- Nobody resets `closed_`, and the read loop sets it before it ends. -/
theorem shuts_of_party {s s' : Session.State ι} {e : Session.Event ι}
    (hparty : Draining.isParty e = true) (hstep : s.step maxPayload e = some s') (hs : Shuts s) :
    (s.session.closed = true → s'.session.closed = true) ∧ Shuts s' := by
  have hown {c : Thread Progress} (hc : EndsClosed c) :
      EndsClosed (Function.update s.threads .reader c .reader) := by
    rwa [Function.update_self]
  have hother (i : ι) (c : Thread Unit) (hreader : EndsClosed (s.threads .reader)) :
      EndsClosed (Function.update s.threads (.caller i) c .reader) := by
    rwa [Function.update_of_ne (by simp)]
  cases Session.moves_of_step hstep with
  | read => exact ⟨id, Or.inr (hown (endsClosed_andThen_afterLoop _))⟩
  | @call i code => exact ⟨id, hs.imp_right (hother i (runCode code))⟩
  | @turn t callback op k hturn =>
    have hclosed : s.session.closed = true → (exec callback op s.session).2.closed = true := by
      intro hclosed
      cases op with
      | storeClosed => rfl
      | _ => exact hclosed
    refine ⟨hclosed, ?_⟩
    rcases hs with hs | hreader
    · exact Or.inl (hclosed hs)
    cases t with
    | caller i => exact Or.inr (hother i (k (exec callback op s.session).1) hreader)
    | reader =>
      rw [hturn] at hreader
      rcases hreader with rfl | hreader
      · exact Or.inl rfl
      · exact Or.inr (hown (hreader _))
  | strand => exact absurd hparty Bool.false_ne_true
  | written => exact absurd hparty Bool.false_ne_true

theorem shuts_of_moves {s s' : Draining ι} {e : Draining.Event ι}
    (hmoves : Draining.Moves maxPayload s e s') (hs : Shuts s.inner) :
    (s.session.closed = true → s'.session.closed = true) ∧ Shuts s'.inner := by
  cases hmoves with
  | party hparty hstep => exact shuts_of_party hparty hstep hs
  | fail => exact ⟨fun _ ↦ rfl, Or.inl rfl⟩
  | @hand i d frame =>
    rw [Draining.hand]
    split <;> exact ⟨id, hs⟩
  | _ => exact ⟨id, hs⟩

/-! ## Where the handle is -/

/-- The coroutine has stored its handle and may still be in `await_suspend`. -/
def Stored (waiter : WaiterAt) : Prop :=
  waiter = .rechecking ∨ waiter = .claiming ∨ waiter = .parked

/-- **The handle is in one place**: it has not been stored; it is in the slot, and a coroutine that
has parked itself will be found by the read loop; the read loop has taken it; or its coroutine has
been continued, by the read loop or by itself. -/
inductive Place (h : Handle) (s : Waiting ι) : Prop
  | unstored (hwaiter : s.waiter = .entering ∨ s.waiter = .ready ∨ s.waiter = .storing)
      (hslot : s.closeWaiterAddr = none) (hexit : ∀ addr, s.exit ≠ .resuming (some addr))
      (hcontinued : s.continued = [])
  | slot (hwaiter : Stored s.waiter) (hparked : s.waiter = .parked → s.exit = .looping)
      (hslot : s.closeWaiterAddr = some h) (hexit : ∀ addr, s.exit ≠ .resuming (some addr))
      (hcontinued : s.continued = [])
  | taken (hwaiter : Stored s.waiter) (hslot : s.closeWaiterAddr = none)
      (hexit : s.exit = .resuming (some h)) (hcontinued : s.continued = [])
  | resumed (hwaiter : Stored s.waiter) (hslot : s.closeWaiterAddr = none)
      (hexit : s.exit = .exited) (hcontinued : s.continued = [h])
  | returned (hwaiter : s.waiter = .returned) (hslot : s.closeWaiterAddr = none)
      (hexit : ∀ addr, s.exit ≠ .resuming (some addr)) (hcontinued : s.continued = [h])

/-- The invariant. -/
structure Inv (h : Handle) (s : Waiting ι) : Prop where
  place : Place h s
  shuts : Shuts s.inner.inner
  exit : s.exit ≠ .looping → s.closed = true
  claiming : s.waiter = .claiming → s.closed = true
  continued : s.continued ≠ [] → s.closed = true

omit [DecidableEq ι] in
theorem inv_start : Inv h (start : Waiting ι) where
  place := .unstored (Or.inl rfl) rfl nofun rfl
  shuts := Or.inr ⟨[], rfl⟩
  exit := fun hne ↦ absurd rfl hne
  claiming := nofun
  continued := fun hne ↦ absurd rfl hne

section

omit [DecidableEq ι]

theorem Place.of_unstored {s : Waiting ι} (hplace : Place h s)
    (hwaiter : s.waiter = .entering ∨ s.waiter = .ready ∨ s.waiter = .storing) :
    s.closeWaiterAddr = none ∧ (∀ addr, s.exit ≠ .resuming (some addr)) ∧ s.continued = [] := by
  have hstored : ¬Stored s.waiter := by
    rcases hwaiter with hw | hw | hw <;> rw [hw] <;> rintro (h | h | h) <;> cases h
  cases hplace with
  | unstored _ hslot hexit hcontinued => exact ⟨hslot, hexit, hcontinued⟩
  | slot hw => exact absurd hw hstored
  | taken hw => exact absurd hw hstored
  | resumed hw => exact absurd hw hstored
  | returned hw =>
    rw [hw] at hwaiter
    rcases hwaiter with hw | hw | hw <;> cases hw

theorem Place.recheck {s : Waiting ι} (hplace : Place h s) (hstored : Stored s.waiter)
    {waiter : WaiterAt} (hwaiter : Stored waiter)
    (hparked : waiter = .parked → s.closeWaiterAddr = some h → s.exit = .looping) :
    Place h { s with waiter } := by
  cases hplace with
  | unstored hw => rcases hw with hw | hw | hw <;> rw [hw] at hstored <;>
      rcases hstored with h | h | h <;> cases h
  | slot _ _ hslot hexit hcontinued =>
    exact .slot hwaiter (fun hw ↦ hparked hw hslot) hslot hexit hcontinued
  | taken _ hslot hexit hcontinued => exact .taken hwaiter hslot hexit hcontinued
  | resumed _ hslot hexit hcontinued => exact .resumed hwaiter hslot hexit hcontinued
  | returned hw =>
    rw [hw] at hstored
    rcases hstored with h | h | h <;> cases h

theorem Place.claim {s : Waiting ι} (hplace : Place h s) (hslot : s.closeWaiterAddr = some h) :
    Place h { s.resume h with closeWaiterAddr := none, waiter := .returned } := by
  cases hplace with
  | slot _ _ _ hexit hcontinued =>
    exact .returned rfl rfl hexit (congrArg (· ++ [h]) hcontinued)
  | unstored _ hnone => exact absurd (hslot.symm.trans hnone) (Option.some_ne_none h)
  | taken _ hnone => exact absurd (hslot.symm.trans hnone) (Option.some_ne_none h)
  | resumed _ hnone => exact absurd (hslot.symm.trans hnone) (Option.some_ne_none h)
  | returned _ hnone => exact absurd (hslot.symm.trans hnone) (Option.some_ne_none h)

theorem inv_of_waiterStep {s s' : Waiting ι} (hs : Inv h s) (hstep : s.waiterStep h = some s') :
    Inv h s' := by
  have hreturn (hclosed : s.closed = true)
      (hw : s.waiter = .entering ∨ s.waiter = .ready ∨ s.waiter = .storing) :
      Inv h { s.resume h with waiter := .returned } := by
    obtain ⟨hslot, hexit, hcontinued⟩ := hs.place.of_unstored hw
    exact ⟨.returned rfl hslot hexit (congrArg (· ++ [h]) hcontinued), hs.shuts, hs.exit, nofun,
      fun _ ↦ hclosed⟩
  unfold waiterStep at hstep
  split at hstep
  next hw =>
    split at hstep <;> cases hstep
    · exact hreturn ‹_› (Or.inl hw)
    · obtain ⟨hslot, hexit, hcontinued⟩ := hs.place.of_unstored (Or.inl hw)
      exact ⟨.unstored (Or.inr (Or.inl rfl)) hslot hexit hcontinued, hs.shuts, hs.exit, nofun,
        hs.continued⟩
  next hw =>
    split at hstep <;> cases hstep
    · exact hreturn ‹_› (Or.inr (Or.inl hw))
    · obtain ⟨hslot, hexit, hcontinued⟩ := hs.place.of_unstored (Or.inr (Or.inl hw))
      exact ⟨.unstored (Or.inr (Or.inr rfl)) hslot hexit hcontinued, hs.shuts, hs.exit, nofun,
        hs.continued⟩
  next hw =>
    cases hstep
    obtain ⟨-, hexit, hcontinued⟩ := hs.place.of_unstored (Or.inr (Or.inr hw))
    exact ⟨.slot (Or.inl rfl) nofun rfl hexit hcontinued, hs.shuts, hs.exit, nofun, hs.continued⟩
  next hw =>
    split at hstep <;> cases hstep
    · exact ⟨hs.place.recheck (Or.inl hw) (Or.inr (Or.inl rfl)) nofun, hs.shuts, hs.exit,
        fun _ ↦ ‹_›, hs.continued⟩
    · -- the read loop cannot be behind its exchange: it would have set `closed_` before
      next hopen =>
      refine ⟨hs.place.recheck (Or.inl hw) (Or.inr (Or.inr rfl)) fun _ _ ↦ ?_, hs.shuts, hs.exit,
        nofun, hs.continued⟩
      by_contra hexit
      exact hopen (hs.exit hexit)
  next hw =>
    split at hstep <;> cases hstep
    · exact ⟨hs.place.claim ‹_›, hs.shuts, hs.exit, nofun, fun _ ↦ hs.claiming hw⟩
    · next hslot =>
      exact ⟨hs.place.recheck (Or.inr (Or.inl hw)) (Or.inr (Or.inr rfl))
        fun _ heq ↦ absurd heq hslot, hs.shuts, hs.exit, nofun, hs.continued⟩
  next => cases hstep
  next => cases hstep

theorem Place.exchange {s : Waiting ι} (hplace : Place h s) (hexit : s.exit = .looping) :
    Place h { s with closeWaiterAddr := none, exit := .resuming s.closeWaiterAddr } := by
  have hnone (hslot : s.closeWaiterAddr = none) (addr : Handle) :
      ExitAt.resuming s.closeWaiterAddr ≠ .resuming (some addr) := fun heq ↦
    absurd (hslot.symm.trans (ExitAt.resuming.inj heq)) (Option.some_ne_none addr).symm
  cases hplace with
  | unstored hw hslot _ hcontinued => exact .unstored hw rfl (hnone hslot) hcontinued
  | slot hw _ hslot _ hcontinued => exact .taken hw rfl (congrArg _ hslot) hcontinued
  | taken _ _ hexit' =>
    rw [hexit] at hexit'
    cases hexit'
  | resumed _ _ hexit' =>
    rw [hexit] at hexit'
    cases hexit'
  | returned hw hslot _ hcontinued => exact .returned hw rfl (hnone hslot) hcontinued

theorem Place.exit {s : Waiting ι} (hplace : Place h s) (hexit : s.exit = .resuming none) :
    Place h { s with exit := .exited } := by
  cases hplace with
  | unstored hw hslot _ hcontinued => exact .unstored hw hslot nofun hcontinued
  | slot hw hparked hslot _ hcontinued =>
    refine .slot hw (fun hw' ↦ ?_) hslot nofun hcontinued
    have hlooping := hparked hw'
    rw [hexit] at hlooping
    cases hlooping
  | taken _ _ hexit' =>
    rw [hexit] at hexit'
    cases hexit'
  | resumed _ _ hexit' =>
    rw [hexit] at hexit'
    cases hexit'
  | returned hw hslot _ hcontinued => exact .returned hw hslot nofun hcontinued

theorem Place.resume {s : Waiting ι} (hplace : Place h s) {addr : Handle}
    (hexit : s.exit = .resuming (some addr)) :
    Place h { s.resume addr with exit := .exited } := by
  cases hplace with
  | taken hw hslot hexit' hcontinued =>
    rw [hexit] at hexit'
    cases hexit'
    exact .resumed hw hslot rfl (congrArg (· ++ [h]) hcontinued)
  | unstored _ _ hnot => exact absurd hexit (hnot addr)
  | slot _ _ _ hnot => exact absurd hexit (hnot addr)
  | resumed _ _ hexit' =>
    rw [hexit] at hexit'
    cases hexit'
  | returned _ _ hnot => exact absurd hexit (hnot addr)

/-- The read loop has set `closed_` when it ends. -/
theorem Inv.closed_of_readerEnded {s : Waiting ι} (hs : Inv h s) (hended : s.readerEnded = true) :
    s.closed = true := by
  rcases hs.shuts with hclosed | hreader
  · exact hclosed
  · unfold readerEnded at hended
    split at hended
    next heq =>
      rw [heq] at hreader
      obtain ⟨rest, hrest⟩ := hreader
      cases hrest
    next => exact absurd hended Bool.false_ne_true

theorem inv_of_exitStep {s s' : Waiting ι} (hs : Inv h s) (hstep : s.exitStep = some s') :
    Inv h s' := by
  unfold exitStep at hstep
  split at hstep
  next hexit =>
    split at hstep <;> cases hstep
    have hclosed := hs.closed_of_readerEnded ‹_›
    exact ⟨hs.place.exchange hexit, hs.shuts, fun _ ↦ hclosed, fun _ ↦ hclosed, fun _ ↦ hclosed⟩
  next hexit =>
    cases hstep
    have hclosed := hs.exit (by rw [hexit]; nofun)
    exact ⟨hs.place.exit hexit, hs.shuts, fun _ ↦ hclosed, fun _ ↦ hclosed, fun _ ↦ hclosed⟩
  next hexit =>
    cases hstep
    have hclosed := hs.exit (by rw [hexit]; nofun)
    exact ⟨hs.place.resume hexit, hs.shuts, fun _ ↦ hclosed, fun _ ↦ hclosed, fun _ ↦ hclosed⟩
  next => cases hstep

end

theorem inv_of_step {s s' : Waiting ι} {e : Event ι} (hs : Inv h s)
    (hstep : s.step maxPayload h e = some s') : Inv h s' := by
  cases e with
  | inner e =>
    obtain ⟨inner, hinner, rfl⟩ := Option.map_eq_some_iff.mp hstep
    obtain ⟨hclosed, hshuts⟩ := shuts_of_moves (Draining.moves_of_step hinner) hs.shuts
    have hplace : Place h { s with inner } := by
      cases hs.place with
      | unstored h₁ h₂ h₃ h₄ => exact .unstored h₁ h₂ h₃ h₄
      | slot h₁ h₂ h₃ h₄ h₅ => exact .slot h₁ h₂ h₃ h₄ h₅
      | taken h₁ h₂ h₃ h₄ => exact .taken h₁ h₂ h₃ h₄
      | resumed h₁ h₂ h₃ h₄ => exact .resumed h₁ h₂ h₃ h₄
      | returned h₁ h₂ h₃ h₄ => exact .returned h₁ h₂ h₃ h₄
    exact ⟨hplace, hshuts, fun hexit ↦ hclosed (hs.exit hexit),
      fun hw ↦ hclosed (hs.claiming hw), fun hc ↦ hclosed (hs.continued hc)⟩
  | waiter => exact inv_of_waiterStep hs hstep
  | exit => exact inv_of_exitStep hs hstep

/-- **Resumed exactly once, and not before the end.** In every run of a session with a coroutine in
`wait_for_close`, the coroutine does not go on before `closed_` is set; and when it is parked or has
gone on and the read loop has exited, it has gone on once. -/
theorem resumed_once {es : List (Event ι)} {s : Waiting ι}
    (hrun : start.run maxPayload h es = some s) : (s.continued ≠ [] → s.closed = true) ∧
      (s.waiter = .parked ∨ s.waiter = .returned → s.exit = .exited → s.continued = [h]) := by
  have hs : Inv h s :=
    Machine.run_invariant (fun _ _ _ hs hstep ↦ inv_of_step hs hstep) inv_start hrun
  refine ⟨hs.continued, fun hwaiter hexit ↦ ?_⟩
  cases hs.place with
  | unstored hw =>
    rcases hw with hw | hw | hw <;> rw [hw] at hwaiter <;> rcases hwaiter with h | h <;> cases h
  | slot hw hparked =>
    rcases hwaiter with hwaiter | hwaiter
    · have hlooping := hparked hwaiter
      rw [hexit] at hlooping
      cases hlooping
    · rw [hwaiter] at hw
      rcases hw with h | h | h <;> cases h
  | taken _ _ hexit' =>
    rw [hexit] at hexit'
    cases hexit'
  | resumed _ _ _ hcontinued => exact hcontinued
  | returned _ _ _ hcontinued => exact hcontinued

/-- The connection is lost after the coroutine has stored its handle: the read loop takes the handle
before the coroutine tries to take it back. -/
theorem resumed_once_lost : ∃ s : Waiting Unit, start.run 16 7
    [.waiter, .waiter, .waiter, .inner (.party (.read none)),
      .inner (.party (.turn .reader (ret ()))), .inner (.party (.turn .reader (ret ()))), .exit,
      .waiter, .waiter, .exit] = some s ∧ s.closed = true ∧ s.continued = [7] := by
  obtain ⟨s, hrun, hwaiter, hexit, hne⟩ : ∃ s : Waiting Unit, start.run 16 7
      [.waiter, .waiter, .waiter, .inner (.party (.read none)),
        .inner (.party (.turn .reader (ret ()))), .inner (.party (.turn .reader (ret ()))), .exit,
        .waiter, .waiter, .exit] = some s ∧ s.waiter = .parked ∧ s.exit = .exited ∧
      s.continued ≠ [] := ⟨_, rfl, rfl, rfl, List.cons_ne_nil _ _⟩
  obtain ⟨hclosed, honce⟩ := resumed_once hrun
  exact ⟨s, hrun, hclosed hne, honce (Or.inl hwaiter) hexit⟩

end Waiting

end Aevox
