import Mathlib.Data.List.Induction
import Mathlib.Data.Nat.Init
import Mathlib.Order.Basic

/-!
# Growing vectors

A vector keeps its elements in one block, which has room for `capacity` of them. Appending to a
full block moves the elements to a larger one, and clearing the vector destroys them; either way
whatever referred to an element dangles from then on. The block itself survives a `clear`.

A reference remembers the version of the vector it was made from, and every change that may
invalidate references starts a new one. By how much a full block grows is left open by a `Growth`.
-/

/-- How the capacity of a full vector grows. -/
structure Growth where
  next : ℕ → ℕ
  lt_next : ∀ n, n < next n

namespace Growth

/-- The capacity is doubled. -/
def doubling : Growth where
  next n := if n = 0 then 1 else 2 * n
  lt_next n := by split <;> omega

variable (g : Growth)

/-- The capacity after an append to a vector of `length` elements. -/
def makeRoom (length capacity : ℕ) : ℕ := if length < capacity then capacity else g.next capacity

theorem le_makeRoom (length capacity : ℕ) : capacity ≤ g.makeRoom length capacity := by
  rw [makeRoom]
  split
  · exact Nat.le_refl capacity
  · exact Nat.le_of_lt (g.lt_next capacity)

theorem lt_makeRoom {length capacity : ℕ} (h : length ≤ capacity) :
    length < g.makeRoom length capacity := by
  rw [makeRoom]
  split
  · assumption
  · exact Nat.lt_of_le_of_lt h (g.lt_next capacity)

/-- The capacity once `n` elements have been stored, one after another, in an empty vector that has
room for `capacity`. -/
def capacityFor (capacity : ℕ) : ℕ → ℕ
  | 0 => capacity
  | n + 1 => g.makeRoom n (capacityFor capacity n)

theorem le_capacityFor (capacity n : ℕ) : n ≤ g.capacityFor capacity n := by
  induction n with
  | zero => exact Nat.zero_le _
  | succ n ih => exact g.lt_makeRoom ih

theorem capacityFor_mono (capacity : ℕ) {m n : ℕ} (h : m ≤ n) :
    g.capacityFor capacity m ≤ g.capacityFor capacity n := by
  induction n, h using Nat.le_induction with
  | base => exact Nat.le_refl _
  | succ n _ ih => exact Nat.le_trans ih (g.le_makeRoom _ _)

theorem capacityFor_of_le {capacity n : ℕ} (h : n ≤ capacity) :
    g.capacityFor capacity n = capacity := by
  induction n with
  | zero => rfl
  | succ n ih =>
    rw [capacityFor, ih (Nat.le_of_succ_le h)]
    exact if_pos h

theorem capacityFor_capacityFor (capacity : ℕ) {m n : ℕ} (h : m ≤ n) :
    g.capacityFor (g.capacityFor capacity m) n = g.capacityFor capacity n := by
  induction n, h using Nat.le_induction with
  | base => exact g.capacityFor_of_le (g.le_capacityFor capacity m)
  | succ n _ ih => exact congrArg (g.makeRoom n) ih

theorem capacityFor_le_capacityFor (capacity m n : ℕ) :
    g.capacityFor capacity n ≤ g.capacityFor (g.capacityFor capacity m) n := by
  rcases Nat.le_total n m with h | h
  · rw [g.capacityFor_of_le (Nat.le_trans h (g.le_capacityFor capacity m))]
    exact g.capacityFor_mono capacity h
  · exact Nat.le_of_eq (g.capacityFor_capacityFor capacity h).symm

end Growth

/-- A reference to an element of one version of a vector. -/
structure VectorRef where
  index : ℕ
  version : ℕ
  deriving DecidableEq

/-- A vector, with a counter of the changes that have invalidated references into it. -/
structure GrowingVector (α : Type*) where
  growth : Growth
  entries : List α
  capacity : ℕ
  version : ℕ
  length_le : entries.length ≤ capacity

namespace GrowingVector

variable {α : Type*}

/-- A new vector has no block. -/
def empty (growth : Growth) : GrowingVector α := ⟨growth, [], 0, 0, Nat.zero_le 0⟩

/-- An element is appended. A full block is replaced by a larger one. -/
def emplaceBack (v : GrowingVector α) (a : α) : GrowingVector α where
  growth := v.growth
  entries := v.entries ++ [a]
  capacity := v.growth.makeRoom v.entries.length v.capacity
  version := if v.entries.length < v.capacity then v.version else v.version + 1
  length_le := by
    rw [List.length_append, List.length_singleton]
    exact v.growth.lt_makeRoom v.length_le

/-- All elements are destroyed. The block is kept. -/
def clear (v : GrowingVector α) : GrowingVector α where
  growth := v.growth
  entries := []
  capacity := v.capacity
  version := v.version + 1
  length_le := Nat.zero_le _

/-- References to all elements, in order. -/
def refs (v : GrowingVector α) : List VectorRef :=
  (List.range v.entries.length).map fun i ↦ ⟨i, v.version⟩

/-- The element a reference refers to; `none` when it dangles. -/
def lookup (v : GrowingVector α) (ref : VectorRef) : Option α :=
  if ref.version = v.version then v.entries[ref.index]? else none

/-- Several elements are appended, one after another. -/
def append (v : GrowingVector α) (as : List α) : GrowingVector α := as.foldl emplaceBack v

variable (v : GrowingVector α)

@[simp] theorem growth_clear : v.clear.growth = v.growth := rfl

@[simp] theorem capacity_clear : v.clear.capacity = v.capacity := rfl

@[simp] theorem append_nil : v.append [] = v := rfl

theorem append_append (as bs : List α) : (v.append as).append bs = v.append (as ++ bs) :=
  List.foldl_append.symm

theorem emplaceBack_append (as : List α) (a : α) :
    (v.append as).emplaceBack a = v.append (as ++ [a]) := v.append_append as [a]

@[simp] theorem entries_append (as : List α) : (v.append as).entries = v.entries ++ as := by
  induction as generalizing v with
  | nil => exact (List.append_nil _).symm
  | cons a as ih =>
    refine (ih (v.emplaceBack a)).trans ?_
    rw [emplaceBack, List.append_assoc, List.singleton_append]

@[simp] theorem growth_append (as : List α) : (v.append as).growth = v.growth := by
  induction as generalizing v with
  | nil => rfl
  | cons a as ih => exact ih (v.emplaceBack a)

/-- What has been stored in an empty vector determines its capacity. -/
theorem capacity_append (h : v.entries = []) (as : List α) :
    (v.append as).capacity = v.growth.capacityFor v.capacity as.length := by
  induction as using List.reverseRecOn with
  | nil => rfl
  | append_singleton as a ih =>
    have hlen : (v.append as).entries.length = as.length := by
      rw [entries_append, h, List.nil_append]
    rw [← emplaceBack_append, List.length_append, List.length_singleton, Growth.capacityFor, ← ih,
      ← hlen, ← v.growth_append as]
    rfl

theorem version_le_append (as : List α) : v.version ≤ (v.append as).version := by
  induction as generalizing v with
  | nil => exact Nat.le_refl _
  | cons a as ih =>
    refine Nat.le_trans ?_ (ih (v.emplaceBack a))
    change v.version ≤ if v.entries.length < v.capacity then v.version else v.version + 1
    split <;> omega

/-- **References survive appends exactly as long as there is room.** -/
theorem version_append_eq_iff (as : List α) :
    (v.append as).version = v.version ↔ v.entries.length + as.length ≤ v.capacity := by
  induction as generalizing v with
  | nil => exact iff_of_true rfl v.length_le
  | cons a as ih =>
    change ((v.emplaceBack a).append as).version = _ ↔ _
    rw [List.length_cons]
    by_cases hroom : v.entries.length < v.capacity
    · have hversion : (v.emplaceBack a).version = v.version := if_pos hroom
      have hcapacity : (v.emplaceBack a).capacity = v.capacity := if_pos hroom
      have hlen : (v.emplaceBack a).entries.length = v.entries.length + 1 := List.length_append
      rw [← hversion, ih, hcapacity, hlen]
      omega
    · have hversion : (v.emplaceBack a).version = v.version + 1 := if_neg hroom
      have hle := version_le_append (v.emplaceBack a) as
      omega

@[simp] theorem length_refs : v.refs.length = v.entries.length := by
  rw [refs, List.length_map, List.length_range]

theorem lookup_refs : v.refs.map v.lookup = v.entries.map some := by
  refine List.ext_getElem (by simp [refs]) fun i h₁ h₂ ↦ ?_
  have hi : i < v.entries.length := by simpa using h₂
  simp [refs, lookup, hi]

theorem lookup_refs_append (as : List α) :
    v.refs.map (v.append as).lookup =
      if v.entries.length + as.length ≤ v.capacity then v.entries.map some
      else v.entries.map fun _ ↦ none := by
  split
  · rename_i hroom
    have hversion := (v.version_append_eq_iff as).mpr hroom
    refine List.ext_getElem (by simp [refs]) fun i h₁ h₂ ↦ ?_
    have hi : i < v.entries.length := by simpa using h₂
    simp [refs, lookup, hversion, List.getElem?_append_left hi, hi]
  · rename_i hroom
    have hversion := mt (v.version_append_eq_iff as).mp hroom
    refine List.ext_getElem (by simp [refs]) fun i h₁ h₂ ↦ ?_
    simp [refs, lookup, Ne.symm hversion]

end GrowingVector
