import Mathlib.Data.List.Basic

/-!
# Coroutines

A coroutine ends with a value or an exception, or it issues an operation and goes on with the answer
it gets. `Coroutine Op Ans ε α` is the tree of everything it may do: `Op` are its operations and
`Ans op` are the answers to `op`. Nothing is assumed about who answers, so what holds along every
path of the tree holds for every environment.

`attempt` continues after either ending and is what both sequencing and exception handlers are made
of; `interpret` gives the operations of one coroutine a meaning in terms of another's; `play` lets a
state answer all of them. Two path properties go with them: `Avoids` (certain operations never
occur) and `Meets` (on every path one operation occurs, and before another one does). Avoiding is
preserved by composition, meeting by whatever is put behind it, and an operation is met behind a
part that avoids the other one. An operation that never occurs is not met, provided the coroutine is
`Live`: somebody can answer.
-/

/-- A coroutine with operations `Op`, exceptions `ε` and result `α`. -/
inductive Coroutine (Op : Type) (Ans : Op → Type) (ε α : Type) where
  | ret (a : α)
  | raise (e : ε)
  | call (op : Op) (k : Ans op → Coroutine Op Ans ε α)

namespace Coroutine

variable {Op Op' : Type} {Ans : Op → Type} {Ans' : Op' → Type} {ε α β : Type}

/-! ## Composition -/

/-- `c`, and then `f` on how it ended. -/
def attempt : Coroutine Op Ans ε α → (Except ε α → Coroutine Op Ans ε β) → Coroutine Op Ans ε β
  | ret a, f => f (.ok a)
  | raise e, f => f (.error e)
  | call op k, f => call op fun x ↦ (k x).attempt f

/-- `c`, and then `f` on its value; an exception passes through. -/
def andThen (c : Coroutine Op Ans ε α) (f : α → Coroutine Op Ans ε β) : Coroutine Op Ans ε β :=
  c.attempt fun
    | .ok a => f a
    | .error e => raise e

/-- The coroutine with every operation carried out by `h`. -/
def interpret (h : (op : Op) → Coroutine Op' Ans' ε (Ans op)) :
    Coroutine Op Ans ε α → Coroutine Op' Ans' ε α
  | ret a => ret a
  | raise e => raise e
  | call op k => (h op).andThen fun x ↦ (k x).interpret h

theorem andThen_assoc {γ : Type} (c : Coroutine Op Ans ε α) (f : α → Coroutine Op Ans ε β)
    (g : β → Coroutine Op Ans ε γ) :
    (c.andThen f).andThen g = c.andThen fun a ↦ (f a).andThen g := by
  induction c with
  | ret a => rfl
  | raise e => rfl
  | call op k ih => exact congrArg (call op) (funext ih)

/-! ## Execution -/

/-- How a coroutine ends, and in which state, if nobody but `exec` answers it. -/
def play {S : Type} (exec : (op : Op) → S → Ans op × S) :
    Coroutine Op Ans ε α → S → Except ε α × S
  | ret a, s => (.ok a, s)
  | raise e, s => (.error e, s)
  | call op k, s => (k (exec op s).1).play exec (exec op s).2

theorem play_andThen {S : Type} {exec : (op : Op) → S → Ans op × S}
    (f : α → Coroutine Op Ans ε β) (c : Coroutine Op Ans ε α) :
    ∀ s, (c.andThen f).play exec s =
      match c.play exec s with
      | (.ok a, s') => (f a).play exec s'
      | (.error e, s') => (.error e, s') := by
  induction c with
  | ret a => exact fun s ↦ rfl
  | raise e => exact fun s ↦ rfl
  | call op k ih => exact fun s ↦ ih _ _

/-! ## Paths -/

/-- No operation of `B` occurs. -/
def Avoids (B : Op → Prop) : Coroutine Op Ans ε α → Prop
  | ret _ => True
  | raise _ => True
  | call op k => ¬B op ∧ ∀ x, (k x).Avoids B

/-- On every path an operation of `A` occurs, and none of `B` before it. -/
def Meets (A B : Op → Prop) : Coroutine Op Ans ε α → Prop
  | ret _ => False
  | raise _ => False
  | call op k => A op ∨ ¬B op ∧ ∀ x, (k x).Meets A B

/-- No path ends in an exception. -/
def Total : Coroutine Op Ans ε α → Prop
  | ret _ => True
  | raise _ => False
  | call _ k => ∀ x, (k x).Total

/-- The coroutine can always be answered. -/
def Live : Coroutine Op Ans ε α → Prop
  | ret _ => True
  | raise _ => True
  | call op k => Nonempty (Ans op) ∧ ∀ x, (k x).Live

/-- What the coroutine ends with has this property, on every path without an exception. -/
def Yields (Q : α → Prop) : Coroutine Op Ans ε α → Prop
  | ret a => Q a
  | raise _ => True
  | call _ k => ∀ x, (k x).Yields Q

theorem Avoids.mono {A B : Op → Prop} (h : ∀ op, A op → B op) {c : Coroutine Op Ans ε α}
    (hc : c.Avoids B) : c.Avoids A := by
  induction c with
  | ret a => trivial
  | raise e => trivial
  | call op k ih => exact ⟨fun hA ↦ hc.1 (h op hA), fun x ↦ ih x (hc.2 x)⟩

theorem avoids_exists {J : Type} {B : J → Op → Prop} {c : Coroutine Op Ans ε α}
    (h : ∀ j, c.Avoids (B j)) : c.Avoids fun op ↦ ∃ j, B j op := by
  induction c with
  | ret a => trivial
  | raise e => trivial
  | call op k ih =>
    refine ⟨?_, fun x ↦ ih x fun j ↦ (h j).2 x⟩
    rintro ⟨j, hj⟩
    exact (h j).1 hj

theorem avoids_attempt {B : Op → Prop} {f : Except ε α → Coroutine Op Ans ε β}
    (hf : ∀ r, (f r).Avoids B) {c : Coroutine Op Ans ε α} (hc : c.Avoids B) :
    (c.attempt f).Avoids B := by
  induction c with
  | ret a => exact hf _
  | raise e => exact hf _
  | call op k ih => exact ⟨hc.1, fun x ↦ ih x (hc.2 x)⟩

theorem avoids_andThen {B : Op → Prop} {f : α → Coroutine Op Ans ε β} (hf : ∀ a, (f a).Avoids B)
    {c : Coroutine Op Ans ε α} (hc : c.Avoids B) : (c.andThen f).Avoids B := by
  refine avoids_attempt ?_ hc
  rintro (e | a)
  · trivial
  · exact hf a

theorem avoids_interpret {B : Op' → Prop} {h : (op : Op) → Coroutine Op' Ans' ε (Ans op)}
    (hh : ∀ op, (h op).Avoids B) (c : Coroutine Op Ans ε α) : (c.interpret h).Avoids B := by
  induction c with
  | ret a => trivial
  | raise e => trivial
  | call op k ih => exact avoids_andThen ih (hh op)

theorem meets_attempt {A B : Op → Prop} {f : Except ε α → Coroutine Op Ans ε β}
    {c : Coroutine Op Ans ε α} (hc : c.Meets A B) : (c.attempt f).Meets A B := by
  induction c with
  | ret a => exact hc.elim
  | raise e => exact hc.elim
  | call op k ih =>
    rcases hc with hA | ⟨hB, hk⟩
    · exact Or.inl hA
    · exact Or.inr ⟨hB, fun x ↦ ih x (hk x)⟩

/-- What is met behind a part that returns and does not reach `B` is met. -/
theorem meets_andThen {A B : Op → Prop} {f : α → Coroutine Op Ans ε β}
    (hf : ∀ a, (f a).Meets A B) {c : Coroutine Op Ans ε α} (hc : c.Avoids B) (htotal : c.Total) :
    (c.andThen f).Meets A B := by
  induction c with
  | ret a => exact hf a
  | raise e => exact htotal.elim
  | call op k ih => exact Or.inr ⟨hc.1, fun x ↦ ih x (hc.2 x) (htotal x)⟩

theorem not_meets_of_avoids {A B : Op → Prop} {c : Coroutine Op Ans ε α} (hc : c.Avoids A)
    (hlive : c.Live) : ¬c.Meets A B := by
  induction c with
  | ret a => exact id
  | raise e => exact id
  | call op k ih =>
    rintro (hA | ⟨-, hk⟩)
    · exact hc.1 hA
    · obtain ⟨x⟩ := hlive.1
      exact ih x (hc.2 x) (hlive.2 x) (hk x)

theorem Yields.andThen {Q : α → Prop} {Q' : β → Prop} {f : α → Coroutine Op Ans ε β}
    (hf : ∀ a, Q a → (f a).Yields Q') {c : Coroutine Op Ans ε α} (hc : c.Yields Q) :
    (c.andThen f).Yields Q' := by
  induction c with
  | ret a => exact hf a hc
  | raise e => trivial
  | call op k ih => exact fun x ↦ ih x (hc x)

theorem yields_true (c : Coroutine Op Ans ε α) : c.Yields fun _ ↦ True := by
  induction c with
  | ret a => trivial
  | raise e => trivial
  | call op k ih => exact ih

theorem live_attempt {f : Except ε α → Coroutine Op Ans ε β} (hf : ∀ r, (f r).Live)
    {c : Coroutine Op Ans ε α} (hc : c.Live) : (c.attempt f).Live := by
  induction c with
  | ret a => exact hf _
  | raise e => exact hf _
  | call op k ih => exact ⟨hc.1, fun x ↦ ih x (hc.2 x)⟩

theorem live_andThen {f : α → Coroutine Op Ans ε β} (hf : ∀ a, (f a).Live)
    {c : Coroutine Op Ans ε α} (hc : c.Live) : (c.andThen f).Live := by
  refine live_attempt ?_ hc
  rintro (e | a)
  · trivial
  · exact hf a

theorem live_interpret {h : (op : Op) → Coroutine Op' Ans' ε (Ans op)} (hh : ∀ op, (h op).Live)
    (c : Coroutine Op Ans ε α) : (c.interpret h).Live := by
  induction c with
  | ret a => trivial
  | raise e => trivial
  | call op k ih => exact live_andThen ih (hh op)

end Coroutine
