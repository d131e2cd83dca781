import Mathlib.Data.List.Basic

/-!
# Lines

A line ends with a terminator, and what stands behind the last terminator of a text is no line.
Texts that are written one line each are found again as the lines exactly when none of them has a
terminator inside (`lines_write_iff`).
-/

namespace Lines

variable {α : Type*} [DecidableEq α] (d : α)

/-- The lines of a text, without their ends. -/
def lines (text : List α) : List (List α) := (text.splitOn d).dropLast

/-- One line for each of the texts. -/
def write (texts : List (List α)) : List α := texts.flatMap (· ++ [d])

variable {d}

omit [DecidableEq α] in
theorem write_cons (text : List α) (texts : List (List α)) :
    write d (text :: texts) = text ++ d :: write d texts := by
  rw [write, List.flatMap_cons, List.append_assoc, List.singleton_append, write]

theorem length_splitOn_pos (text : List α) : 0 < (text.splitOn d).length :=
  List.length_pos_of_ne_nil (List.splitOn_ne_nil _ _)

theorem one_lt_length_splitOn {text : List α} (h : d ∈ text) : 1 < (text.splitOn d).length := by
  obtain ⟨front, back, rfl⟩ := List.append_of_mem h
  have hfront := length_splitOn_pos (d := d) front
  have hback := length_splitOn_pos (d := d) back
  rw [List.splitOn_append_cons_self, List.length_append]
  omega

theorem lines_write (texts : List (List α)) :
    lines d (write d texts) = texts.flatMap (·.splitOn d) := by
  induction texts with
  | nil => rfl
  | cons text texts ih =>
    rw [lines] at ih
    rw [lines, write_cons, List.splitOn_append_cons_self,
      List.dropLast_append_of_ne_nil (List.splitOn_ne_nil _ _), ih, List.flatMap_cons]

theorem length_le_length_lines (texts : List (List α)) :
    texts.length ≤ (texts.flatMap (·.splitOn d)).length := by
  induction texts with
  | nil => exact Nat.le_refl _
  | cons text texts ih =>
    have hpos := length_splitOn_pos (d := d) text
    rw [List.flatMap_cons, List.length_append, List.length_cons]
    omega

/-- **The lines are the texts exactly when no text has a terminator.** -/
theorem lines_write_iff {texts : List (List α)} :
    lines d (write d texts) = texts ↔ ∀ text ∈ texts, d ∉ text := by
  rw [lines_write]
  induction texts with
  | nil => simp
  | cons text texts ih =>
    rw [List.flatMap_cons, List.forall_mem_cons]
    constructor
    · intro h
      -- a text with a terminator would be two lines, and no text is less than one
      have hlen := congrArg List.length h
      have hle := length_le_length_lines (d := d) texts
      rw [List.length_append, List.length_cons] at hlen
      have hd : d ∉ text := fun hmem ↦ by
        have hlt := one_lt_length_splitOn hmem
        omega
      rw [List.splitOn_eq_singleton hd] at h
      exact ⟨hd, ih.mp (List.cons.inj h).2⟩
    · rintro ⟨hd, hrest⟩
      rw [List.splitOn_eq_singleton hd, ih.mpr hrest, List.singleton_append]

end Lines
