import Aevox.Library.Emission
import Mathlib.Data.Set.Basic

/-!
# What a coroutine has been told

A coroutine may be allowed some operations from the start, and an answer may tell it of more:
`Within tells A` says that every operation it issues is in `A`, or one of its answers has told it
before. So whoever knows all the answers knows where an operation may have come from. Coroutines
with this property compose (`within_andThen`), and it passes from a program to its interpretation
(`within_interpret`).
-/

namespace Coroutine

variable {Op Op' : Type} {Ans : Op → Type} {Ans' : Op' → Type} {ε α β : Type}

/-- Every operation is in `A`, or an answer has told of it. -/
def Within (tells : (op : Op) → Ans op → Set Op) : Set Op → Coroutine Op Ans ε α → Prop
  | _, ret _ => True
  | _, raise _ => True
  | A, call op k => op ∈ A ∧ ∀ x, (k x).Within tells (A ∪ tells op x)

variable {tells : (op : Op) → Ans op → Set Op}

theorem Within.mono {c : Coroutine Op Ans ε α} :
    ∀ {A B : Set Op}, A ⊆ B → c.Within tells A → c.Within tells B := by
  induction c with
  | ret a => exact fun _ _ ↦ trivial
  | raise e => exact fun _ _ ↦ trivial
  | call op k ih =>
    intro A B hAB hc
    exact ⟨hAB hc.1, fun x ↦ ih x (Set.union_subset_union_left _ hAB) (hc.2 x)⟩

/-- **One after the other.** -/
theorem within_andThen {f : α → Coroutine Op Ans ε β} {c : Coroutine Op Ans ε α} :
    ∀ {A : Set Op}, (∀ a, (f a).Within tells A) → c.Within tells A →
      (c.andThen f).Within tells A := by
  induction c with
  | ret a => exact fun hf _ ↦ hf a
  | raise e => exact fun _ _ ↦ trivial
  | call op k ih =>
    intro A hf hc
    exact ⟨hc.1, fun x ↦ ih x (fun a ↦ (hf a).mono Set.subset_union_left) (hc.2 x)⟩

/-- One after the other, when it is known how the first one ends. -/
theorem within_andThen_of_emits {E : Type} {obs : Op → Option E} {r : α}
    {f : α → Coroutine Op Ans ε β} {c : Coroutine Op Ans ε α} :
    ∀ {A : Set Op} {l : List E}, c.Emits obs r l → (f r).Within tells A → c.Within tells A →
      (c.andThen f).Within tells A := by
  induction c with
  | ret a =>
    rintro A l ⟨rfl, -⟩ hf -
    exact hf
  | raise e => exact fun _ _ _ ↦ trivial
  | call op k ih =>
    intro A l hemits hf hc
    refine ⟨hc.1, fun x ↦ ?_⟩
    have hk : ∃ l', (k x).Emits obs r l' := by
      cases hobs : obs op with
      | none => exact ⟨l, (emits_call_of_none hobs).mp hemits x⟩
      | some e =>
        obtain ⟨l', -, hk⟩ := (emits_call_of_some hobs).mp hemits
        exact ⟨l', hk x⟩
    obtain ⟨l', hk⟩ := hk
    exact ih x hk (hf.mono Set.subset_union_left) (hc.2 x)

theorem within_interpret {h : (op : Op') → Coroutine Op Ans ε (Ans' op)} {A : Set Op}
    {c : Coroutine Op' Ans' ε α} (hc : c.Avoids fun op ↦ ¬(h op).Within tells A) :
    (c.interpret h).Within tells A := by
  induction c with
  | ret a => trivial
  | raise e => trivial
  | call op k ih => exact within_andThen (fun x ↦ ih x (hc.2 x)) (not_not.mp hc.1)

end Coroutine
