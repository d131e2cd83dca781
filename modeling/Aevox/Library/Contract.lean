import Aevox.Library.Coroutine

/-!
# Coroutines under a contract

A `Contract` is what a coroutine and its environment owe each other, over a state only the contract
knows: which operations may be issued in a state, and with what answers and in which state an issued
operation may return. The weakest precondition `wp` asks that no operation is issued out of turn and
that every ending satisfies a postcondition; it composes the way the coroutines do.

`Ends` lists the endings the contract allows. The two descriptions agree (`wp_iff`): a weakest
precondition is the discipline of the operations together with a condition on each ending, so the
discipline can be proved once and for all and a postcondition be read off the endings alone.

Two coroutines agree (`Agrees`) if no environment that keeps the contract can tell them apart. What
one of them may issue (`Issues`) and how it may end, the other may as well.
-/

namespace Coroutine

variable {Op Op' : Type} {Ans : Op → Type} {Ans' : Op' → Type} {ε α β S : Type}

/-- When an operation may be issued, and how it may return. -/
structure Contract (Op : Type) (Ans : Op → Type) (S : Type) where
  /-- The states in which the operation may be issued. -/
  requires : S → Op → Prop
  /-- The answers, each with the state afterwards. -/
  ensures : S → (op : Op) → Ans op → S → Prop

variable {C : Contract Op Ans S} {Q : S → Except ε α → Prop}

/-- Every operation is issued when it may be, and every ending satisfies `Q`. -/
def wp (C : Contract Op Ans S) (Q : S → Except ε α → Prop) : Coroutine Op Ans ε α → S → Prop
  | ret a, s => Q s (.ok a)
  | raise e, s => Q s (.error e)
  | call op k, s => C.requires s op ∧ ∀ x s', C.ensures s op x s' → (k x).wp C Q s'

/-- `c` may end with `r`, and in the state `s'`. -/
inductive Ends (C : Contract Op Ans S) : Coroutine Op Ans ε α → S → S → Except ε α → Prop
  | ret {a s} : Ends C (ret a) s s (.ok a)
  | raise {e s} : Ends C (raise e) s s (.error e)
  | call {op k s x s' s'' r} (h : C.ensures s op x s') (hk : Ends C (k x) s' s'' r) :
      Ends C (call op k) s s'' r

/-- The operations are used as the contract asks, however the coroutine ends. -/
def Keeps (C : Contract Op Ans S) (c : Coroutine Op Ans ε α) : Prop :=
  ∀ s, c.wp C (fun _ _ ↦ True) s

/-! ## Rules -/

theorem wp_attempt {Q' : S → Except ε β → Prop} {f : Except ε α → Coroutine Op Ans ε β}
    (hf : ∀ s r, Q s r → (f r).wp C Q' s) {c : Coroutine Op Ans ε α} :
    ∀ {s : S}, c.wp C Q s → (c.attempt f).wp C Q' s := by
  induction c with
  | ret a => exact fun hc ↦ hf _ _ hc
  | raise e => exact fun hc ↦ hf _ _ hc
  | call op k ih => exact fun hc ↦ ⟨hc.1, fun x s' hx ↦ ih x (hc.2 x s' hx)⟩

theorem Keeps.attempt {c : Coroutine Op Ans ε α} (hc : c.Keeps C)
    {f : Except ε α → Coroutine Op Ans ε β} (hf : ∀ r, (f r).Keeps C) : (c.attempt f).Keeps C :=
  fun s ↦ wp_attempt (fun s' r _ ↦ hf r s') (hc s)

theorem Keeps.andThen {c : Coroutine Op Ans ε α} (hc : c.Keeps C) {f : α → Coroutine Op Ans ε β}
    (hf : ∀ a, (f a).Keeps C) : (c.andThen f).Keeps C := by
  apply hc.attempt
  rintro (e | a)
  · exact fun _ ↦ trivial
  · exact hf a

theorem Keeps.interpret {C : Contract Op' Ans' S} {h : (op : Op) → Coroutine Op' Ans' ε (Ans op)}
    (hh : ∀ op, (h op).Keeps C) (c : Coroutine Op Ans ε α) : (c.interpret h).Keeps C := by
  induction c with
  | ret a => exact fun _ ↦ trivial
  | raise e => exact fun _ ↦ trivial
  | call op k ih => exact (hh op).andThen ih

/-! ## Endings -/

/-- **A weakest precondition is a discipline and a condition on the endings.** -/
theorem wp_iff {c : Coroutine Op Ans ε α} : ∀ {s : S},
    c.wp C Q s ↔ c.wp C (fun _ _ ↦ True) s ∧ ∀ s' r, c.Ends C s s' r → Q s' r := by
  induction c with
  | ret a =>
    intro s
    refine ⟨fun h ↦ ⟨trivial, ?_⟩, fun h ↦ h.2 _ _ .ret⟩
    rintro s' r ⟨⟩
    exact h
  | raise e =>
    intro s
    refine ⟨fun h ↦ ⟨trivial, ?_⟩, fun h ↦ h.2 _ _ .raise⟩
    rintro s' r ⟨⟩
    exact h
  | call op k ih =>
    intro s
    constructor
    · rintro ⟨hreq, hk⟩
      refine ⟨⟨hreq, fun x s' hx ↦ ((ih x).mp (hk x s' hx)).1⟩, ?_⟩
      intro s'' r hend
      cases hend with
      | call hx hend => exact ((ih _).mp (hk _ _ hx)).2 _ _ hend
    · -- an ending of what follows the answer is an ending of the whole
      rintro ⟨⟨hreq, hk⟩, hend⟩
      exact ⟨hreq, fun x s' hx ↦ (ih x).mpr ⟨hk x s' hx, fun s'' r h ↦ hend s'' r (.call hx h)⟩⟩

/-- A coroutine that keeps the contract satisfies what all of its endings do. -/
theorem Keeps.wp_iff {c : Coroutine Op Ans ε α} (hc : c.Keeps C) {s : S} :
    c.wp C Q s ↔ ∀ s' r, c.Ends C s s' r → Q s' r :=
  Coroutine.wp_iff.trans (and_iff_right (hc s))

/-! ## Agreement -/

/-- An operation of `B` may be issued. -/
def Issues (C : Contract Op Ans S) (B : Op → Prop) : Coroutine Op Ans ε α → S → Prop
  | ret _, _ => False
  | raise _, _ => False
  | call op k, s => B op ∨ ∃ x s', C.ensures s op x s' ∧ (k x).Issues C B s'

/-- The two do the same, as long as the environment keeps the contract. -/
inductive Agrees (C : Contract Op Ans S) : S → Coroutine Op Ans ε α → Coroutine Op Ans ε α → Prop
  | ret {a s} : Agrees C s (ret a) (ret a)
  | raise {e s} : Agrees C s (raise e) (raise e)
  | call {op k k' s} (h : ∀ x s', C.ensures s op x s' → Agrees C s' (k x) (k' x)) :
      Agrees C s (call op k) (call op k')

variable {B : Op → Prop}

theorem not_issues_of_avoids {c : Coroutine Op Ans ε α} (hc : c.Avoids B) :
    ∀ s, ¬c.Issues C B s := by
  induction c with
  | ret a => exact fun _ ↦ id
  | raise e => exact fun _ ↦ id
  | call op k ih =>
    rintro s (hop | ⟨x, s', -, hk⟩)
    · exact hc.1 hop
    · exact ih x (hc.2 x) s' hk

theorem issues_attempt_iff {f : Except ε α → Coroutine Op Ans ε β} {c : Coroutine Op Ans ε α} :
    ∀ {s : S}, (c.attempt f).Issues C B s ↔
      c.Issues C B s ∨ ∃ s' r, c.Ends C s s' r ∧ (f r).Issues C B s' := by
  induction c with
  | ret a =>
    refine fun {s} ↦ ⟨fun h ↦ .inr ⟨s, _, .ret, h⟩, ?_⟩
    rintro (h | ⟨s', r, ⟨⟩, h⟩)
    · exact h.elim
    · exact h
  | raise e =>
    refine fun {s} ↦ ⟨fun h ↦ .inr ⟨s, _, .raise, h⟩, ?_⟩
    rintro (h | ⟨s', r, ⟨⟩, h⟩)
    · exact h.elim
    · exact h
  | call op k ih =>
    intro s
    constructor
    · rintro (hop | ⟨x, s', hx, hk⟩)
      · exact .inl (.inl hop)
      · rcases ih x |>.mp hk with hk | ⟨s'', r, hend, hf⟩
        · exact .inl (.inr ⟨x, s', hx, hk⟩)
        · exact .inr ⟨s'', r, .call hx hend, hf⟩
    · rintro ((hop | ⟨x, s', hx, hk⟩) | ⟨s'', r, hend, hf⟩)
      · exact .inl hop
      · exact .inr ⟨x, s', hx, (ih x).mpr (.inl hk)⟩
      · cases hend with
        | call hx hend => exact .inr ⟨_, _, hx, (ih _).mpr (.inr ⟨s'', r, hend, hf⟩)⟩

namespace Agrees

theorem refl (c : Coroutine Op Ans ε α) : ∀ s : S, Agrees C s c c := by
  induction c with
  | ret a => exact fun _ ↦ .ret
  | raise e => exact fun _ ↦ .raise
  | call op k ih => exact fun _ ↦ .call fun x s' _ ↦ ih x s'

variable {c d : Coroutine Op Ans ε α} {s : S}

theorem issues (h : Agrees C s c d) (hd : ¬d.Issues C B s) : ¬c.Issues C B s := by
  induction h with
  | ret => exact id
  | raise => exact id
  | call hk ih =>
    rintro (hop | ⟨x, s', hx, hc⟩)
    · exact hd (.inl hop)
    · exact ih x s' hx (fun h ↦ hd (.inr ⟨x, s', hx, h⟩)) hc

theorem ends (h : Agrees C s c d) {s' : S} {r : Except ε α} :
    c.Ends C s s' r ↔ d.Ends C s s' r := by
  induction h with
  | ret => exact .rfl
  | raise => exact .rfl
  | call _ ih =>
    constructor <;> rintro ⟨⟩
    · exact .call ‹_› ((ih _ _ ‹_›).mp ‹_›)
    · exact .call ‹_› ((ih _ _ ‹_›).mpr ‹_›)

theorem attempt (h : Agrees C s c d) {f g : Except ε α → Coroutine Op Ans ε β}
    (hf : ∀ s' r, d.Ends C s s' r → Agrees C s' (f r) (g r)) :
    Agrees C s (c.attempt f) (d.attempt g) := by
  induction h with
  | ret => exact hf _ _ .ret
  | raise => exact hf _ _ .raise
  | call _ ih => exact .call fun x s' hx ↦ ih x s' hx fun s'' r hend ↦ hf s'' r (.call hx hend)

end Agrees

end Coroutine
