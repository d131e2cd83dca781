import Aevox.Library.Coroutine

/-!
# What a coroutine shows

Some operations of a coroutine are visible from outside. `Emits obs r l` says that however it is
answered, the coroutine shows exactly `l`, in this order, and ends with `r`: what is visible does
not depend on the environment. Such coroutines compose (`emits_andThen`), and a part that shows
nothing may end as it likes (`emits_andThen_of_avoids`).
-/

namespace Coroutine

variable {Op Op' : Type} {Ans : Op → Type} {ε α β E : Type}

/-- On every path the coroutine shows `l` and ends with `r`. -/
def Emits (obs : Op → Option E) (r : α) : Coroutine Op Ans ε α → List E → Prop
  | ret a, l => a = r ∧ l = []
  | raise _, _ => False
  | call op k, l =>
    match obs op with
    | none => ∀ x, (k x).Emits obs r l
    | some e => ∃ l', l = e :: l' ∧ ∀ x, (k x).Emits obs r l'

variable {obs : Op → Option E}

theorem emits_ret (r : α) : (ret r : Coroutine Op Ans ε α).Emits obs r [] := ⟨rfl, rfl⟩

theorem emits_call_of_none {op : Op} (h : obs op = none) {k : Ans op → Coroutine Op Ans ε α} {r : α}
    {l : List E} : (call op k).Emits obs r l ↔ ∀ x, (k x).Emits obs r l := by
  rw [Emits, h]

theorem emits_call_of_some {op : Op} {e : E} (h : obs op = some e)
    {k : Ans op → Coroutine Op Ans ε α} {r : α} {l : List E} :
    (call op k).Emits obs r l ↔ ∃ l', l = e :: l' ∧ ∀ x, (k x).Emits obs r l' := by
  rw [Emits, h]

/-- **One after the other.** -/
theorem emits_andThen {f : α → Coroutine Op Ans ε β} {r : α} {r' : β} {l' : List E}
    (hf : (f r).Emits obs r' l') {c : Coroutine Op Ans ε α} :
    ∀ {l : List E}, c.Emits obs r l → (c.andThen f).Emits obs r' (l ++ l') := by
  induction c with
  | ret a =>
    rintro l ⟨rfl, rfl⟩
    exact hf
  | raise e => exact fun h ↦ h.elim
  | call op k ih =>
    intro l h
    rw [andThen, attempt]
    cases hobs : obs op with
    | none =>
      rw [emits_call_of_none hobs] at h ⊢
      exact fun x ↦ ih x (h x)
    | some e =>
      obtain ⟨l₁, rfl, hk⟩ := (emits_call_of_some hobs).mp h
      exact (emits_call_of_some hobs).mpr ⟨l₁ ++ l', rfl, fun x ↦ ih x (hk x)⟩

/-- A part that shows nothing, in front of one that ends alike for all results. -/
theorem emits_andThen_of_avoids [IsEmpty ε] {f : α → Coroutine Op Ans ε β} {r : β} {l : List E}
    (hf : ∀ a, (f a).Emits obs r l) {c : Coroutine Op Ans ε α}
    (hc : c.Avoids fun op ↦ obs op ≠ none) : (c.andThen f).Emits obs r l := by
  induction c with
  | ret a => exact hf a
  | raise e => exact isEmptyElim e
  | call op k ih =>
    exact (emits_call_of_none (not_not.mp hc.1)).mpr fun x ↦ ih x (hc.2 x)

end Coroutine
