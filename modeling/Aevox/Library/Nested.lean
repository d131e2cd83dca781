import Aevox.Library.Coroutine
import Aevox.Library.Frames
import Aevox.Library.Machine
import Mathlib.Data.List.ReduceOption

/-!
# Coroutines that await one another

A `Nested` coroutine also awaits others, which are nested again. What it does is what the plain
coroutine does that has each of them in the place of its await (`denote`). Awaiting is `attempt`:
the one that awaits goes on with how the other one ended.

A program may run nested coroutines beside others (`Embedding`). While one of them runs on a call
stack, the stack down to the first caller of another kind denotes what remains to be done
(`Denotes`). A step of the stack does not change that and an answer to the stack is one to the
remainder, so that a coroutine with all its awaits goes the way of the plain one (`run_denotes`).
-/

namespace Coroutine

variable {Op : Type} {Ans : Op → Type} {ε α β : Type}

/-- The coroutine that has ended. -/
def ended : Except ε α → Coroutine Op Ans ε α
  | .ok a => ret a
  | .error e => raise e

/-- The operation the coroutine is suspended in returns. -/
def reply [DecidableEq Op] : Coroutine Op Ans ε α → (Σ op, Ans op) → Option (Coroutine Op Ans ε α)
  | call op k, ⟨op', x⟩ => if h : op' = op then some (k (h ▸ x)) else none
  | _, _ => none

theorem reply_call [DecidableEq Op] {op : Op} (k : Ans op → Coroutine Op Ans ε α) (x : Ans op) :
    (call op k).reply ⟨op, x⟩ = some (k x) := dif_pos rfl

theorem call_ne_ended (op : Op) (k : Ans op → Coroutine Op Ans ε α) (r : Except ε α) :
    call op k ≠ ended r := by
  rcases r with e | a
  · simp [ended]
  · simp [ended]

theorem ended_eq_ret_iff {r : Except ε α} {a : α} :
    (ended r : Coroutine Op Ans ε α) = ret a ↔ r = .ok a := by
  rcases r with e | a
  · simp [ended]
  · simp [ended]

theorem ended_eq_raise_iff {r : Except ε α} {e : ε} :
    (ended r : Coroutine Op Ans ε α) = raise e ↔ r = .error e := by
  rcases r with e | a
  · simp [ended]
  · simp [ended]

theorem attempt_ended (c : Coroutine Op Ans ε α) : c.attempt ended = c := by
  induction c with
  | ret a => rfl
  | raise e => rfl
  | call op k ih => exact congrArg (call op) (funext ih)

end Coroutine

open Frames

/-- A coroutine that may await others. -/
inductive Nested (Op : Type) (Ans : Op → Type) (ε : Type) {Ty : Type} (El : Ty → Type) : Ty → Type
  | ret {a : Ty} (v : El a) : Nested Op Ans ε El a
  | raise {a : Ty} (e : ε) : Nested Op Ans ε El a
  | call {a : Ty} (op : Op) (k : Ans op → Nested Op Ans ε El a) : Nested Op Ans ε El a
  | await {a b : Ty} (sub : Nested Op Ans ε El b) (k : Except ε (El b) → Nested Op Ans ε El a) :
      Nested Op Ans ε El a

namespace Nested

variable {Op : Type} {Ans : Op → Type} {ε Ty : Type} {El : Ty → Type} {a b : Ty}

/-- `co_return co_await sub` and whatever else only lets an exception through. -/
def andThen (sub : Nested Op Ans ε El b) (k : El b → Nested Op Ans ε El a) :
    Nested Op Ans ε El a :=
  .await sub fun
    | .ok v => k v
    | .error e => .raise e

/-- What a nested coroutine does. -/
def denote : ∀ {a : Ty}, Nested Op Ans ε El a → Coroutine Op Ans ε (El a)
  | _, ret v => .ret v
  | _, raise e => .raise e
  | _, call op k => .call op fun x ↦ (k x).denote
  | _, await sub k => sub.denote.attempt fun r ↦ (k r).denote

theorem denote_andThen (sub : Nested Op Ans ε El b) (k : El b → Nested Op Ans ε El a) :
    (sub.andThen k).denote = sub.denote.andThen fun v ↦ (k v).denote := by
  refine congrArg _ (funext fun r ↦ ?_)
  rcases r with e | v
  · rfl
  · rfl

/-- `co_return co_await sub` -/
theorem denote_andThen_ret (sub : Nested Op Ans ε El a) :
    (sub.andThen ret).denote = sub.denote := by
  rw [denote_andThen, Coroutine.andThen]
  refine Eq.trans (congrArg _ (funext fun r ↦ ?_)) sub.denote.attempt_ended
  rcases r with e | v
  · rfl
  · rfl

/-- The next action, in a type of codes that has the nested coroutines among them. -/
def action {Code : Ty → Type} (code : ∀ {b : Ty}, Nested Op Ans ε El b → Code b) :
    Nested Op Ans ε El a → Action Op Ans ε El Code a
  | ret v => .ret v
  | raise e => .raise e
  | call op k => .call op fun x ↦ code (k x)
  | await sub k => .await (code sub) fun r ↦ code (k r)

/-- The program of the nested coroutines. -/
def program (Op : Type) (Ans : Op → Type) (ε : Type) {Ty : Type} (El : Ty → Type) :
    Program Op Ans ε El where
  Code := Nested Op Ans ε El
  next := action id

/-- The nested coroutines are among those of a program. -/
structure Embedding (P : Program Op Ans ε El) where
  code : ∀ {a : Ty}, Nested Op Ans ε El a → P.Code a
  next_code : ∀ {a : Ty} (t : Nested Op Ans ε El a), P.next (code t) = t.action code

/-- Those of their own program. -/
def Embedding.self : Embedding (program Op Ans ε El) := ⟨id, fun _ ↦ rfl⟩

/-! ## What remains to be done -/

variable {P : Program Op Ans ε El} {root : Ty} (E : Embedding P) (base : Callers P root b)

/-- The callers down to `base` are nested coroutines, which do `f` with the result. -/
inductive Over : ∀ {a : Ty}, Callers P root a → (Except ε (El a) → Coroutine Op Ans ε (El b)) → Prop
  | base : Over base Coroutine.ended
  | caller {a c : Ty} {k : Except ε (El c) → Nested Op Ans ε El a} {rest : Callers P root a}
      {f : Except ε (El a) → Coroutine Op Ans ε (El b)} (hrest : Over rest f) :
      Over (.caller (fun r ↦ E.code (k r)) rest) fun r ↦ (k r).denote.attempt f

/-- On top of `base` the stack still does `c`. -/
inductive Denotes : Stack P root → Coroutine Op Ans ε (El b) → Prop
  | running {a : Ty} {t : Nested Op Ans ε El a} {callers : Callers P root a}
      {f : Except ε (El a) → Coroutine Op Ans ε (El b)} (hover : Over E base callers f) :
      Denotes (.running (E.code t) callers) (t.denote.attempt f)
  | returning {a : Ty} {r : Except ε (El a)} {callers : Callers P root a}
      {f : Except ε (El a) → Coroutine Op Ans ε (El b)} (hover : Over E base callers f) :
      Denotes (.returning r callers) (f r)

variable {E base}

theorem denotes_begin (t : Nested Op Ans ε El b) :
    Denotes E base (.running (E.code t) base) t.denote := by
  have h : Denotes E base (.running (E.code t) base) (t.denote.attempt Coroutine.ended) :=
    .running .base
  rwa [Coroutine.attempt_ended] at h

theorem attempt_attempt {α β γ : Type} (c : Coroutine Op Ans ε α)
    (f : Except ε α → Coroutine Op Ans ε β) (g : Except ε β → Coroutine Op Ans ε γ) :
    (c.attempt f).attempt g = c.attempt fun r ↦ (f r).attempt g := by
  induction c with
  | ret a => rfl
  | raise e => rfl
  | call op k ih => exact congrArg (Coroutine.call op) (funext ih)

/-- Without an answer nothing is done, unless the result goes to `base`. -/
theorem Denotes.step {st st' : Stack P root} {c : Coroutine Op Ans ε (El b)}
    (h : Denotes E base st c) (hstep : st.step = some st') :
    Denotes E base st' c ∨ ∃ r, st = .returning r base ∧ c = .ended r := by
  cases h with
  | @running a t callers f hover =>
    refine .inl ?_
    rw [Stack.step, E.next_code] at hstep
    rcases t with v | e | ⟨op, k⟩ | ⟨sub, k⟩
    · obtain rfl := Option.some.inj hstep
      exact .returning hover
    · obtain rfl := Option.some.inj hstep
      exact .returning hover
    · exact absurd hstep (Option.some_ne_none _).symm
    · obtain rfl := Option.some.inj hstep
      rw [denote, attempt_attempt]
      exact .running (.caller hover)
  | returning hover =>
    cases hover with
    | base => exact .inr ⟨_, rfl, rfl⟩
    | caller hrest =>
      obtain rfl := Option.some.inj hstep
      exact .inl (.running hrest)

variable [DecidableEq Op]

theorem Denotes.answer {st st' : Stack P root} {c : Coroutine Op Ans ε (El b)}
    (h : Denotes E base st c) {x : Σ op, Ans op} (hanswer : st.answer x = some st') :
    ∃ c', c.reply x = some c' ∧ Denotes E base st' c' := by
  obtain ⟨op, x⟩ := x
  cases h with
  | @running a t callers f hover =>
    rw [Stack.answer, E.next_code] at hanswer
    rcases t with v | e | ⟨op', k⟩ | ⟨sub, k⟩
    · exact absurd hanswer (Option.some_ne_none _).symm
    · exact absurd hanswer (Option.some_ne_none _).symm
    · rw [action] at hanswer
      dsimp only at hanswer
      split at hanswer
      · rename_i hop
        subst hop
        obtain rfl := Option.some.inj hanswer
        exact ⟨_, Coroutine.reply_call _ x, .running hover⟩
      · exact absurd hanswer (Option.some_ne_none _).symm
    · exact absurd hanswer (Option.some_ne_none _).symm
  | returning hover => exact absurd hanswer (Option.some_ne_none _).symm

theorem run_denotes {E : Embedding P} {ds : List (Option (Σ op, Ans op))} :
    ∀ {st st' : Stack P root} {c : Coroutine Op Ans ε (El root)}, Denotes E .none st c →
      Machine.run Stack.move st ds = some st' →
      ∃ c', Machine.run Coroutine.reply c ds.reduceOption = some c' ∧ Denotes E .none st' c' := by
  induction ds with
  | nil =>
    intro st st' c h hrun
    obtain rfl := Option.some.inj hrun
    exact ⟨c, rfl, h⟩
  | cons d ds ih =>
    intro st st' c h hrun
    obtain ⟨st₁, hmove, hrest⟩ := Machine.run_cons_eq_some_iff.mp hrun
    rcases d with _ | x
    · rw [List.reduceOption_cons_of_none]
      rcases h.step hmove with h₁ | ⟨r, rfl, -⟩
      · exact ih h₁ hrest
      · exact absurd hmove (Option.some_ne_none _).symm
    · rw [List.reduceOption_cons_of_some]
      obtain ⟨c₁, hreply, h₁⟩ := h.answer hmove
      obtain ⟨c', hrun', h'⟩ := ih h₁ hrest
      exact ⟨c', Machine.run_cons_eq_some_iff.mpr ⟨c₁, hreply, hrun'⟩, h'⟩

end Nested
