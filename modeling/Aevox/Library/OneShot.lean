import Aevox.Library.Contract
import Mathlib.Logic.Function.Basic

/-!
# A right that is won once

Several parties, each in the middle of a coroutine, compete for a right. An operation claims it for
something, and the first claim wins: a compare-and-swap on a shared flag. The winner uses the right
once, for what it has claimed it for.

`Orderly` is what a party has to do for that, whatever the others do: it uses the right only while
it holds it, and it does not end while it holds it. Parties that are all orderly keep `Inv`, step by
step (`Inv.turn`) and when one of them starts over (`Inv.start`). It follows that the right is used
at most once (`Inv.length_used`), and for what the winning claim was made for (`Inv.won_of_mem`),
and that it has been used if it has been won and nobody is under way any more
(`Inv.used_of_rest`).
-/

namespace Coroutine

variable {Op : Type} {Ans : Op → Type} {ε α β L : Type}

/-- What an operation has to do with a right that is claimed for an `L`. -/
inductive Move (L : Type) where
  | claim (l : L)
  | use (l : L)
  | other

/-- A right: what operations have to do with it, and which answers to a claim say it has won. -/
structure Right (Op : Type) (Ans : Op → Type) (L : Type) where
  move : Op → Move L
  wins : (op : Op) → Ans op → Bool

namespace Right

variable (R : Right Op Ans L)

/-- What a party holds after an operation. -/
def after (held : Option L) (op : Op) (x : Ans op) : Option L :=
  match R.move op with
  | .claim l => if R.wins op x then some l else held
  | .use _ => none
  | .other => held

/-- The right is used only by the party that holds it. -/
def contract : Contract Op Ans (Option L) where
  requires held op := ∀ l, R.move op = .use l → held = some l
  ensures held op x held' := held' = R.after held op x

/-- The party uses the right only while it holds it, and does not end while it does. -/
def Orderly (held : Option L) (c : Coroutine Op Ans ε α) : Prop :=
  c.wp R.contract (fun held' _ ↦ held' = none) held

/-- What the right has been won for after an operation. -/
def won (won : Option L) (op : Op) : Option L :=
  match R.move op with
  | .claim l => some (won.getD l)
  | _ => won

/-- What the right has been used for after an operation. -/
def used (used : List L) (op : Op) : List L :=
  match R.move op with
  | .use l => used ++ [l]
  | _ => used

variable {R}

/-! ## Orderly parties -/

theorem orderly_ret {a : α} : R.Orderly none (ret a : Coroutine Op Ans ε α) := rfl

theorem orderly_call {op : Op} {k : Ans op → Coroutine Op Ans ε α} {held : Option L}
    (hreq : ∀ l, R.move op = .use l → held = some l)
    (hk : ∀ x, R.Orderly (R.after held op x) (k x)) : R.Orderly held (call op k) :=
  ⟨hreq, fun x _ hx ↦ hx ▸ hk x⟩

theorem orderly_andThen {held : Option L} {c : Coroutine Op Ans ε α}
    {f : α → Coroutine Op Ans ε β} (hc : R.Orderly held c) (hf : ∀ a, R.Orderly none (f a)) :
    R.Orderly held (c.andThen f) := by
  refine wp_attempt ?_ hc
  rintro held' (e | a) rfl
  · rfl
  · exact hf a

/-! ## All parties together -/

variable {τ : Type} {ρ : τ → Type}

/-- **The right is in one place**: nobody holds it, and it has been used for what it was won for; or
one party holds it, and it has not been used. -/
inductive Inv (R : Right Op Ans L) (threads : (t : τ) → Coroutine Op Ans ε (ρ t)) :
    Option L → List L → Prop
  | free {won : Option L} (h : ∀ t, R.Orderly none (threads t)) : Inv R threads won won.toList
  | held {l : L} (t : τ) (ht : R.Orderly (some l) (threads t))
      (h : ∀ t', t' ≠ t → R.Orderly none (threads t')) : Inv R threads (some l) []

variable {threads : (t : τ) → Coroutine Op Ans ε (ρ t)} {w : Option L} {u : List L}

/-- **The right is used at most once.** -/
theorem Inv.length_used (h : R.Inv threads w u) : u.length ≤ 1 := by
  cases h with
  | free => cases w <;> simp
  | held => exact Nat.zero_le 1

theorem Inv.won_of_mem (h : R.Inv threads w u) {l : L} (hl : l ∈ u) : w = some l := by
  cases h with
  | free => exact Option.mem_toList.mp hl
  | held => exact absurd hl List.not_mem_nil

/-- Once nobody is under way, the right has been used if it has been won. -/
theorem Inv.used_of_rest (h : R.Inv threads w u) (hrest : ∀ t, ∃ a, threads t = ret a) :
    u = w.toList := by
  cases h with
  | free => rfl
  | held t ht =>
    obtain ⟨a, ha⟩ := hrest t
    rw [ha] at ht
    exact nomatch ht

/-- What an orderly party does next: nothing that concerns the right, or nothing more than losing
it; winning it; or using it. -/
theorem Orderly.moves {held : Option L} {op : Op} {k : Ans op → Coroutine Op Ans ε α} {x : Ans op}
    (h : R.Orderly held (call op k)) (hwins : ∀ l, R.move op = .claim l → R.wins op x = w.isNone) :
    R.Orderly held (k x) ∧ R.won w op = w ∧ R.used u op = u ∨
      (∃ l, w = none ∧ R.Orderly (some l) (k x) ∧ R.won w op = some l ∧ R.used u op = u) ∨
      ∃ l, held = some l ∧ R.Orderly none (k x) ∧ R.won w op = w ∧ R.used u op = u ++ [l] := by
  have hresume : R.Orderly (R.after held op x) (k x) := h.2 x _ rfl
  unfold after at hresume
  unfold won used
  cases hmove : R.move op with
  | other =>
    rw [hmove] at hresume
    exact Or.inl ⟨hresume, rfl, rfl⟩
  | use l =>
    rw [hmove] at hresume
    exact Or.inr (Or.inr ⟨l, h.1 l hmove, hresume, rfl, rfl⟩)
  | claim l =>
    rw [hmove] at hresume
    simp only [hwins l hmove] at hresume
    cases w with
    | none => exact Or.inr (Or.inl ⟨l, rfl, hresume, rfl, rfl⟩)
    | some l' => exact Or.inl ⟨hresume, rfl, rfl⟩

variable [DecidableEq τ]

theorem orderly_update {s : τ → Prop} {t : τ} {c : Coroutine Op Ans ε (ρ t)}
    (h : ∀ t', s t' → t' ≠ t → R.Orderly none (threads t')) (hc : s t → R.Orderly none c) :
    ∀ t', s t' → R.Orderly none (Function.update threads t c t') :=
  (Function.forall_update_iff threads fun t' c' ↦ s t' → R.Orderly none c').mpr
    ⟨hc, fun t' hne ht' ↦ h t' ht' hne⟩

theorem Inv.start (h : R.Inv threads w u) {t : τ} {a : ρ t} (ht : threads t = ret a)
    {c : Coroutine Op Ans ε (ρ t)} (hc : R.Orderly none c) :
    R.Inv (Function.update threads t c) w u := by
  cases h with
  | free hall =>
    exact .free fun t' ↦
      orderly_update (s := fun _ ↦ True) (fun t' _ _ ↦ hall t') (fun _ ↦ hc) t' trivial
  | held t₀ ht₀ hall =>
    rcases eq_or_ne t₀ t with rfl | hne
    -- the holder is under way
    · rw [ht] at ht₀
      exact nomatch ht₀
    · refine .held t₀ ?_ (orderly_update (fun t' hne' _ ↦ hall t' hne') fun _ ↦ hc)
      rwa [Function.update_of_ne hne]

/-- **One step** of one party. A claim wins if nobody has won before. -/
theorem Inv.turn (h : R.Inv threads w u) {t : τ} {op : Op} {k : Ans op → Coroutine Op Ans ε (ρ t)}
    (ht : threads t = call op k) {x : Ans op}
    (hwins : ∀ l, R.move op = .claim l → R.wins op x = w.isNone) :
    R.Inv (Function.update threads t (k x)) (R.won w op) (R.used u op) := by
  cases h with
  | free hall =>
    have hgoes : R.Orderly none (k x) → ∀ t', R.Orderly none (Function.update threads t (k x) t') :=
      fun hk t' ↦ orderly_update (s := fun _ ↦ True) (fun t' _ _ ↦ hall t') (fun _ ↦ hk) t' trivial
    rcases (ht ▸ hall t : R.Orderly none (call op k)).moves hwins with
      ⟨hk, hw, hu⟩ | ⟨l, rfl, hk, hw, hu⟩ | ⟨l, hl, -, -, -⟩
    · rw [hw, hu]
      exact .free (hgoes hk)
    · rw [hw, hu]
      refine .held t ?_ (orderly_update (fun t' _ _ ↦ hall t') fun hne ↦ absurd rfl hne)
      rwa [Function.update_self]
    · exact nomatch hl
  | @held l t₀ ht₀ hall =>
    rcases eq_or_ne t₀ t with rfl | hne
    · have hothers : ∀ t', t' ≠ t₀ → R.Orderly none (Function.update threads t₀ (k x) t') :=
        orderly_update (fun t' hne _ ↦ hall t' hne) fun hne ↦ absurd rfl hne
      rcases (ht ▸ ht₀ : R.Orderly (some l) (call op k)).moves hwins with
        ⟨hk, hw, hu⟩ | ⟨l', hnone, -⟩ | ⟨l', hl, hk, hw, hu⟩
      · rw [hw, hu]
        refine .held t₀ ?_ hothers
        rwa [Function.update_self]
      · exact nomatch hnone
      · obtain rfl := Option.some.inj hl
        rw [hw, hu]
        refine .free fun t' ↦ ?_
        rcases eq_or_ne t' t₀ with rfl | hne
        · rwa [Function.update_self]
        · exact hothers t' hne
    -- somebody else holds it
    · rcases (ht ▸ hall t hne.symm : R.Orderly none (call op k)).moves hwins with
        ⟨hk, hw, hu⟩ | ⟨l', hnone, -⟩ | ⟨l', hl, -⟩
      · rw [hw, hu]
        refine .held t₀ ?_ (orderly_update (fun t' hne' _ ↦ hall t' hne') fun _ ↦ hk)
        rwa [Function.update_of_ne hne]
      · exact nomatch hnone
      · exact nomatch hl

end Right

end Coroutine
