import Mathlib.Algebra.BigOperators.Fin
import Mathlib.Algebra.Order.BigOperators.Group.Finset

/-!
# Tallies

Finitely many parties are each at some point of their program, and every point has a weight. The
tally is the sum of the weights of the points they are at. When one party moves, the tally changes
by the difference between its two points (`tally_update`), whatever the others do.
-/

section Tally

variable {ι P : Type*} [Fintype ι] [DecidableEq ι] (w : P → ℕ) (points : ι → P)

/-- The sum of the weights of the points the parties are at. -/
def tally : ℕ := ∑ i, w (points i)

/-- One party moves from its point to `p`. -/
theorem tally_update (i : ι) (p : P) :
    tally w (Function.update points i p) + w (points i) = tally w points + w p := by
  have hrest : ∀ j ∈ Finset.univ.erase i, w (Function.update points i p j) = w (points j) :=
    fun j hj ↦ congrArg w (Function.update_of_ne (Finset.ne_of_mem_erase hj) p points)
  rw [tally, tally, ← Finset.add_sum_erase _ _ (Finset.mem_univ i),
    ← Finset.add_sum_erase _ (fun j ↦ w (points j)) (Finset.mem_univ i),
    Finset.sum_congr rfl hrest, Function.update_self]
  omega

omit [DecidableEq ι]

theorem le_tally (i : ι) : w (points i) ≤ tally w points :=
  Finset.single_le_sum (f := fun j ↦ w (points j)) (fun _ _ ↦ Nat.zero_le _) (Finset.mem_univ i)

variable {w points}

theorem tally_eq_zero_iff : tally w points = 0 ↔ ∀ i, w (points i) = 0 := by
  simp [tally]

theorem tally_const (p : P) : tally w (fun _ : ι ↦ p) = Fintype.card ι * w p := by
  rw [tally, Finset.sum_const, Finset.card_univ, smul_eq_mul]

theorem tally_le {c : ℕ} (h : ∀ p, w p ≤ c) : tally w points ≤ Fintype.card ι * c := by
  rw [← smul_eq_mul, ← Finset.card_univ]
  exact Finset.sum_le_card_nsmul _ _ _ fun i _ ↦ h (points i)

end Tally
