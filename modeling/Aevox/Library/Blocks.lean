import Mathlib.Data.List.Basic
import Mathlib.Data.List.Range
import Mathlib.Tactic.Ring

/-!
# Folding over blocks

A list is cut into blocks of `n` elements, and a function is folded over the first of them. Blocks
that lie in the front part of a list are blocks of that part (`fold_append_left`), and the fold over
a list whose front part is a whole number of blocks goes on with the rest (`fold_append`): so a fold
over a list can start before the whole of it is there.
-/

namespace Blocks

variable {α β : Type*} (n : ℕ)

/-- The `i`-th block. -/
def block (l : List α) (i : ℕ) : List α := (l.drop (i * n)).take n

/-- The fold over the first `k` blocks. -/
def fold (f : β → List α → β) (k : ℕ) (l : List α) (start : β) : β :=
  (List.range k).foldl (fun s i ↦ f s (block n l i)) start

variable {n} {f : β → List α → β}

theorem length_block {l : List α} {i : ℕ} (h : (i + 1) * n ≤ l.length) :
    (block n l i).length = n := by
  rw [Nat.add_mul, Nat.one_mul] at h
  rw [block, List.length_take, List.length_drop, Nat.min_eq_left (by omega)]

theorem block_append_left {l m : List α} {i : ℕ} (h : (i + 1) * n ≤ l.length) :
    block n (l ++ m) i = block n l i := by
  rw [Nat.add_mul, Nat.one_mul] at h
  rw [block, List.drop_append_of_le_length (by omega),
    List.take_append_of_le_length (by rw [List.length_drop]; omega), block]

theorem block_append_right {l m : List α} {a : ℕ} (h : l.length = a * n) (i : ℕ) :
    block n (l ++ m) (a + i) = block n m i := by
  rw [block, Nat.add_mul, ← h, List.drop_length_add_append, block]

/-- A fold that simulates another one element by element. -/
theorem foldl_hom_of_mem {γ : Type*} (φ : β → γ) {f : β → α → β} {g : γ → α → γ} {l : List α}
    (h : ∀ x ∈ l, ∀ s, φ (f s x) = g (φ s) x) (start : β) :
    φ (l.foldl f start) = l.foldl g (φ start) := by
  induction l generalizing start with
  | nil => rfl
  | cons x l ih =>
    rw [List.foldl_cons, List.foldl_cons, ← h x List.mem_cons_self]
    exact ih (fun y hy ↦ h y (List.mem_cons_of_mem _ hy)) _

/-- A fold that simulates another one block by block. -/
theorem fold_hom {γ : Type*} (φ : β → γ) {g : γ → List α → γ} {k : ℕ} {l m : List α}
    (h : ∀ i < k, ∀ s, φ (f s (block n l i)) = g (φ s) (block n m i)) (start : β) :
    φ (fold n f k l start) = fold n g k m (φ start) :=
  foldl_hom_of_mem φ (fun i hi s ↦ h i (List.mem_range.mp hi) s) start

/-- **A fold takes the front part only.** -/
theorem fold_append_left {k : ℕ} {l : List α} (h : k * n ≤ l.length) (m : List α) (start : β) :
    fold n f k (l ++ m) start = fold n f k l start :=
  fold_hom id (fun _ hi _ ↦ by
    rw [block_append_left (le_trans (Nat.mul_le_mul_right n hi) h)]; rfl) start

theorem fold_take {k : ℕ} {l : List α} (h : k * n ≤ l.length) (start : β) :
    fold n f k (l.take (k * n)) start = fold n f k l start := by
  rw [← fold_append_left (le_of_eq (List.length_take_of_le h).symm) (l.drop (k * n)),
    List.take_append_drop]

/-- **A fold goes on behind a whole number of blocks.** -/
theorem fold_append {l : List α} {a : ℕ} (h : l.length = a * n) (k : ℕ) (m : List α) (start : β) :
    fold n f (a + k) (l ++ m) start = fold n f k m (fold n f a l start) := by
  rw [← fold_append_left (le_of_eq h.symm) m, fold, List.range_add, List.foldl_append,
    List.foldl_map, fold, fold]
  simp only [block_append_right h]

end Blocks
