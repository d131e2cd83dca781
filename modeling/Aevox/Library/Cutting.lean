import Mathlib.Data.List.Basic

/-!
# Traces of events that arrive in pieces

A producer reports events one after another. Some of them carry data that it may hand over in any
number of consecutive pieces, so one and the same run shows up as many different traces. A `Gluing`
says when two neighbours are pieces of one event; `coalesce` puts all pieces back together, and two
traces show the same run exactly when they coalesce to the same list.

A consumer that may fail (`run`) need not know about any of this. If two pieces in a row have the
effect of the event they make up, as far as `observe` can tell failures apart, then any trace has
the effect of its coalesced form (`run_coalesce`). And coalescing is insensitive to where a trace
is cut (`coalesce_coalesce_append`), so pieces may be put together locally first.
-/

/-- When two neighbouring events are pieces of one. -/
structure Gluing (α : Type*) where
  /-- The event two neighbours make up, if they are pieces of one. -/
  glue : α → α → Option α
  /-- Three pieces make up one event in either order. -/
  glue_assoc : ∀ {a b c d e}, glue a b = some c → glue b d = some e →
    ∃ f, glue a e = some f ∧ glue c d = some f
  /-- A piece more in front does not change what can follow. -/
  glue_eq_none : ∀ {a b c d}, glue a b = some c → glue b d = none → glue c d = none

namespace Gluing

variable {α σ ε ω : Type*} (G : Gluing α)

/-! ## Putting pieces together -/

/-- Puts an event in front of a coalesced list. -/
def attach (a : α) : List α → List α
  | [] => [a]
  | b :: l =>
    match G.glue a b with
    | some c => c :: l
    | none => a :: b :: l

/-- Puts all pieces back together. -/
def coalesce (l : List α) : List α := l.foldr G.attach []

theorem coalesce_cons (a : α) (l : List α) : G.coalesce (a :: l) = G.attach a (G.coalesce l) := rfl

theorem coalesce_append (k l : List α) :
    G.coalesce (k ++ l) = k.foldr G.attach (G.coalesce l) := by
  rw [coalesce, List.foldr_append, coalesce]

variable {G}

theorem attach_cons_of_some {a b c : α} (h : G.glue a b = some c) (l : List α) :
    G.attach a (b :: l) = c :: l := by
  simp only [attach, h]

theorem attach_cons_of_none {a b : α} (h : G.glue a b = none) (l : List α) :
    G.attach a (b :: l) = a :: b :: l := by
  simp only [attach, h]

theorem coalesce_append_congr {l l' : List α} (h : G.coalesce l = G.coalesce l') (k : List α) :
    G.coalesce (k ++ l) = G.coalesce (k ++ l') := by
  rw [coalesce_append, coalesce_append, h]

theorem attach_attach {a b c : α} (h : G.glue a b = some c) (l : List α) :
    G.attach a (G.attach b l) = G.attach c l := by
  cases l with
  | nil => exact attach_cons_of_some h []
  | cons d l =>
    cases hbd : G.glue b d with
    | some e =>
      obtain ⟨f, hae, hcd⟩ := G.glue_assoc h hbd
      rw [attach_cons_of_some hbd, attach_cons_of_some hae, attach_cons_of_some hcd]
    | none =>
      rw [attach_cons_of_none hbd, attach_cons_of_some h,
        attach_cons_of_none (G.glue_eq_none h hbd)]

/-- **Cuts are invisible**: a coalesced beginning and the beginning itself lead to one result. -/
theorem coalesce_coalesce_append (k l : List α) :
    G.coalesce (G.coalesce k ++ l) = G.coalesce (k ++ l) := by
  induction k with
  | nil => rfl
  | cons a k ih =>
    rw [List.cons_append, coalesce_cons G a (k ++ l), ← ih, coalesce_cons G a k]
    cases hk : G.coalesce k with
    | nil => rfl
    | cons b r =>
      cases hab : G.glue a b with
      | none => rw [attach_cons_of_none hab, List.cons_append, coalesce_cons]
      | some c =>
        rw [attach_cons_of_some hab, List.cons_append, coalesce_cons, List.cons_append,
          coalesce_cons, attach_attach hab]

/-! ## Consumers -/

/-- A consumer that may fail, over a whole trace. -/
def run (step : σ → α → Except ε σ) : σ → List α → Except ε σ
  | s, [] => .ok s
  | s, a :: l => step s a >>= fun s' ↦ run step s' l

theorem run_append (step : σ → α → Except ε σ) (k l : List α) : ∀ s : σ,
    run step s (k ++ l) = run step s k >>= fun s' ↦ run step s' l := by
  induction k with
  | nil => intro s; rfl
  | cons a k ih =>
    intro s
    rw [List.cons_append, run, run]
    cases step s a with
    | error e => rfl
    | ok s' => exact ih s'

/-- What a failure shows does not depend on how the run would have gone on. -/
private theorem mapError_bind_congr {x y : Except ε σ} {observe : ε → ω}
    (h : x.mapError observe = y.mapError observe) {f g : σ → Except ε σ}
    (hfg : ∀ s, (f s).mapError observe = (g s).mapError observe) :
    (x >>= f).mapError observe = (y >>= g).mapError observe := by
  cases x with
  | error e =>
    cases y with
    | error e' => exact h
    | ok s => cases h
  | ok s =>
    cases y with
    | error e' => cases h
    | ok s' =>
      cases h
      exact hfg s

/-- **A consumer that respects the pieces respects the whole trace.** -/
theorem run_coalesce {step : σ → α → Except ε σ} {observe : ε → ω}
    (hstep : ∀ {s a b c}, G.glue a b = some c →
      (step s a >>= fun s' ↦ step s' b).mapError observe = (step s c).mapError observe)
    (l : List α) : ∀ s : σ,
    (run step s (G.coalesce l)).mapError observe = (run step s l).mapError observe := by
  induction l with
  | nil => intro s; rfl
  | cons a l ih =>
    intro s
    have htail : (run step s (a :: G.coalesce l)).mapError observe
        = (run step s (a :: l)).mapError observe := mapError_bind_congr rfl ih
    rw [coalesce_cons, ← htail]
    cases hl : G.coalesce l with
    | nil => rfl
    | cons b r =>
      cases hab : G.glue a b with
      | none => rw [attach_cons_of_none hab]
      | some c =>
        rw [attach_cons_of_some hab, run, run]
        have hassoc : (step s a >>= fun s' ↦ run step s' (b :: r))
            = (step s a >>= fun s' ↦ step s' b) >>= fun s' ↦ run step s' r := by
          cases step s a <;> rfl
        rw [hassoc]
        exact mapError_bind_congr (hstep hab).symm fun _ ↦ rfl

end Gluing
