import Mathlib.Data.List.Basic
import Mathlib.Data.List.GetD
import Mathlib.Data.List.Range

/-!
# Buffers written from front to back

A buffer of a fixed length whose positions are assigned one after another. Assigning to the position
behind what has been written appends to it (`set_length_append`). A loop that does so for a range of
positions replaces exactly these (`assign_range'`), also where a value is computed from what the
buffer holds already.
-/

namespace Buffer

variable {α : Type*}

theorem set_length_append (done : List α) (x c : α) (rest : List α) :
    (done ++ x :: rest).set done.length c = done ++ [c] ++ rest := by
  rw [List.set_append_right _ _ (le_refl _), Nat.sub_self, List.set_cons_zero, List.append_assoc]
  rfl

/-- For each `i` of the list in turn, position `offset + i` is assigned what `f` computes from the
buffer as it then is. -/
def assign (offset : ℕ) (f : List α → ℕ → α) (is : List ℕ) (buf : List α) : List α :=
  is.foldl (fun buf i ↦ buf.set (offset + i) (f buf i)) buf

theorem assign_append (offset : ℕ) (f : List α → ℕ → α) (is js : List ℕ) (buf : List α) :
    assign offset f (is ++ js) buf = assign offset f js (assign offset f is buf) :=
  List.foldl_append

/-- **A loop over a range writes the range**, and keeps what stands before and behind it. -/
theorem assign_range' {offset s n : ℕ} {f : List α → ℕ → α} {g : ℕ → α} {buf : List α}
    (hlen : offset + s + n ≤ buf.length)
    (hf : ∀ k < n, ∀ rest, f (buf.take (offset + s) ++ (List.range' s k).map g ++ rest) (s + k) =
      g (s + k)) :
    assign offset f (List.range' s n) buf =
      buf.take (offset + s) ++ (List.range' s n).map g ++ buf.drop (offset + s + n) := by
  induction n with
  | zero => simp [assign]
  | succ n ih =>
    obtain ⟨x, hx⟩ : ∃ x, buf.drop (offset + s + n) = x :: buf.drop (offset + s + (n + 1)) :=
      ⟨_, List.drop_eq_getElem_cons (by omega)⟩
    have hpos : (buf.take (offset + s) ++ (List.range' s n).map g).length = offset + (s + n) := by
      rw [List.length_append, List.length_take_of_le (by omega), List.length_map,
        List.length_range', Nat.add_assoc]
    have hrange : List.range' s (n + 1) = List.range' s n ++ [s + n] := by
      rw [List.range'_concat, Nat.one_mul]
    rw [hrange, assign_append, ih (by omega) fun k hk ↦ hf k (by omega), hx, assign,
      List.foldl_cons, List.foldl_nil, hf n (by omega), ← hpos, set_length_append,
      List.map_append, List.map_singleton, List.append_assoc (buf.take _)]

/-- A loop from zero on, whose values depend on the index alone. -/
theorem assign_range {offset n : ℕ} {g : ℕ → α} {buf : List α} (hlen : offset + n ≤ buf.length) :
    assign offset (fun _ i ↦ g i) (List.range n) buf =
      buf.take offset ++ (List.range n).map g ++ buf.drop (offset + n) := by
  rw [List.range_eq_range']
  exact assign_range' hlen fun k _ _ ↦ rfl

theorem map_getD_range {l : List α} {start n : ℕ} (h : start + n ≤ l.length) (x : α) :
    ((List.range n).map fun i ↦ l.getD (start + i) x) = (l.drop start).take n := by
  refine List.ext_getElem ?_ fun i hi _ ↦ ?_
  · rw [List.length_map, List.length_range, List.length_take, List.length_drop]
    omega
  · rw [List.length_map, List.length_range] at hi
    rw [List.getElem_map, List.getElem_range, List.getElem_take, List.getElem_drop,
      List.getD_eq_getElem]

end Buffer
