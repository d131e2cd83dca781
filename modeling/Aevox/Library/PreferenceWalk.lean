import Mathlib.Data.List.Basic
import Mathlib.Data.List.Infix
import Mathlib.Data.List.TakeWhile

/-!
# Greedy walks through a prefix-closed language

A *language* here is a set of words over a label alphabet `κ`, given by its characteristic function
and closed under prefixes: the nodes of an edge-labelled tree, each named by the labels on its path.
An input is a list of tokens over `τ`. Every token offers some labels, best first, and a walk takes,
at each token, the first label it offers that stays inside the language. It never goes back.

Whether such a walk finds a word that would fit the input is a question about the language alone:
a word fits (`Fits`) when each of its labels is on offer, and it is *unrivalled* when no better
label on offer stays inside the language. `walk_eq_some_iff` says the walk ends at a word exactly
when it fits and is unrivalled, so at most one word of the language can be both.
-/

namespace PreferenceWalk

variable {κ τ : Type*} [DecidableEq κ]

/-- Which labels a walk may take, best first. -/
structure Scheme (κ τ : Type*) where
  /-- The labels a token offers. -/
  choices : τ → List κ
  /-- The labels on offer when the input is used up. -/
  final : List κ
  /-- Whether taking this label swallows the rest of the input. -/
  stops : κ → Bool

namespace Scheme

variable (S : Scheme κ τ)

/-- `ks` spells a way of consuming the whole input with labels that are on offer. -/
def Fits : List κ → List τ → Prop
  | [], [] => True
  | [k], [] => k ∈ S.final
  | k :: ks, t :: ts =>
    k ∈ S.choices t ∧ if S.stops k then ks = [] else Fits ks ts
  | _, _ => False

/-- Along `ks`, started at the word `w`, no better label on offer stays inside the language. -/
def Unrivalled (inside : List κ → Bool) : List κ → List κ → List τ → Prop
  | w, [], [] => ∀ k ∈ S.final, inside (w ++ [k]) = false
  | w, k :: _, [] => ∀ k' ∈ S.final.takeWhile (· ≠ k), inside (w ++ [k']) = false
  | _, [], _ :: _ => True
  | w, k :: ks, t :: ts =>
    (∀ k' ∈ (S.choices t).takeWhile (· ≠ k), inside (w ++ [k']) = false) ∧
      (S.stops k = false → Unrivalled inside (w ++ [k]) ks ts)

/-- Along `ks`, started at the word `w`, every label is the best on offer that stays inside the
language. What could be taken behind the last of them does not matter. -/
def Greedy (inside : List κ → Bool) : List κ → List κ → List τ → Prop
  | w, k :: _, [] => ∀ k' ∈ S.final.takeWhile (· ≠ k), inside (w ++ [k']) = false
  | w, k :: ks, t :: ts =>
    (∀ k' ∈ (S.choices t).takeWhile (· ≠ k), inside (w ++ [k']) = false) ∧
      (S.stops k = false → Greedy inside (w ++ [k]) ks ts)
  | _, [], _ => True

/-- The greedy walk from the word `w`; `none` when some token offers no label inside. -/
def walk (inside : List κ → Bool) : List κ → List τ → Option (List κ)
  | w, [] =>
    match S.final.find? fun k ↦ inside (w ++ [k]) with
    | some k => some (w ++ [k])
    | none => some w
  | w, t :: ts =>
    match (S.choices t).find? fun k ↦ inside (w ++ [k]) with
    | some k => if S.stops k then some (w ++ [k]) else walk inside (w ++ [k]) ts
    | none => none

variable {S} {inside : List κ → Bool}

omit [DecidableEq κ] in
theorem fits_cons_cons {k : κ} {ks : List κ} {t : τ} {ts : List τ} :
    S.Fits (k :: ks) (t :: ts)
      ↔ k ∈ S.choices t ∧ if S.stops k then ks = [] else S.Fits ks ts := by
  rw [Fits]

theorem unrivalled_nil_nil {w : List κ} :
    S.Unrivalled inside w [] [] ↔ ∀ k ∈ S.final, inside (w ++ [k]) = false := by
  rw [Unrivalled]

theorem unrivalled_cons_nil {w : List κ} {k : κ} {ks : List κ} :
    S.Unrivalled inside w (k :: ks) []
      ↔ ∀ k' ∈ S.final.takeWhile (· ≠ k), inside (w ++ [k']) = false := by
  rw [Unrivalled]

theorem unrivalled_cons_cons {w : List κ} {k : κ} {ks : List κ} {t : τ} {ts : List τ} :
    S.Unrivalled inside w (k :: ks) (t :: ts)
      ↔ (∀ k' ∈ (S.choices t).takeWhile (· ≠ k), inside (w ++ [k']) = false) ∧
        (S.stops k = false → S.Unrivalled inside (w ++ [k]) ks ts) := by
  rw [Unrivalled]

theorem greedy_of_unrivalled {ts : List τ} : ∀ {w ks : List κ}, S.Unrivalled inside w ks ts →
    S.Greedy inside w ks ts := by
  induction ts with
  | nil =>
    intro w ks h
    rcases ks with _ | ⟨k, ks⟩
    · rw [Greedy]
      trivial
    · rw [unrivalled_cons_nil] at h
      rwa [Greedy]
  | cons t ts ih =>
    intro w ks h
    rcases ks with _ | ⟨k, ks⟩
    · rw [Greedy]
      trivial
    · rw [unrivalled_cons_cons] at h
      rw [Greedy]
      exact ⟨h.1, fun hs ↦ ih (h.2 hs)⟩

theorem unrivalled_of_greedy {ts : List τ} : ∀ {w ks : List κ}, S.Greedy inside w ks ts →
    (∀ k ∈ S.final, inside (w ++ ks ++ [k]) = false) → S.Unrivalled inside w ks ts := by
  induction ts with
  | nil =>
    intro w ks h hend
    rcases ks with _ | ⟨k, ks⟩
    · rw [unrivalled_nil_nil]
      rwa [List.append_nil] at hend
    · rw [Greedy] at h
      rwa [unrivalled_cons_nil]
  | cons t ts ih =>
    intro w ks h hend
    rcases ks with _ | ⟨k, ks⟩
    · rw [Unrivalled]
      trivial
    · rw [Greedy] at h
      rw [unrivalled_cons_cons]
      refine ⟨h.1, fun hs ↦ ih (h.2 hs) ?_⟩
      rwa [List.append_assoc w [k] ks, List.singleton_append]

omit [DecidableEq κ] in
/-- A walk only ever extends the word it started from, inside the language. -/
theorem walk_extends {ts : List τ} : ∀ {w v : List κ}, inside w = true →
    S.walk inside w ts = some v → ∃ ks, v = w ++ ks ∧ inside v = true := by
  induction ts with
  | nil =>
    intro w v hw h
    rw [walk] at h
    cases hf : S.final.find? fun k ↦ inside (w ++ [k]) with
    | none =>
      rw [hf] at h
      obtain rfl : w = v := by simpa using h
      exact ⟨[], by simp, hw⟩
    | some k =>
      rw [hf] at h
      obtain rfl : w ++ [k] = v := by simpa using h
      exact ⟨[k], rfl, by simpa using List.find?_some hf⟩
  | cons t ts ih =>
    intro w v hw h
    rw [walk] at h
    cases hf : (S.choices t).find? fun k ↦ inside (w ++ [k]) with
    | none => rw [hf] at h; simp at h
    | some k =>
      rw [hf] at h
      have hk : inside (w ++ [k]) = true := by simpa using List.find?_some hf
      by_cases hs : S.stops k = true
      · obtain rfl : w ++ [k] = v := by simpa [hs] using h
        exact ⟨[k], rfl, hk⟩
      · obtain ⟨ks, rfl, hin⟩ := ih hk (by simpa [hs] using h)
        exact ⟨k :: ks, by simp, hin⟩

private theorem find?_eq_some_iff_takeWhile {p : κ → Bool} {l : List κ} {k : κ} :
    l.find? p = some k ↔ k ∈ l ∧ p k = true ∧ ∀ k' ∈ l.takeWhile (· ≠ k), p k' = false := by
  induction l with
  | nil => simp
  | cons a l ih =>
    by_cases ha : a = k
    · subst ha
      cases hp : p a with
      | true => simp [hp]
      | false =>
        have : l.find? p ≠ some a := fun hc ↦ by simp [List.find?_some hc] at hp
        simp [hp, this]
    · cases hp : p a with
      | true => simp [ha, hp]
      | false => simp [hp, ih, ha, Ne.symm ha]

/-! ## Where a walk ends -/

theorem walk_nil_eq_some_iff {w ks : List κ} (hin : inside (w ++ ks) = true) :
    S.walk inside w [] = some (w ++ ks) ↔ S.Fits ks [] ∧ S.Unrivalled inside w ks [] := by
  rw [walk]
  cases hf : S.final.find? fun k ↦ inside (w ++ [k]) with
  | none =>
    have hnone : ∀ k ∈ S.final, inside (w ++ [k]) = false := by simpa using hf
    match ks with
    | [] =>
      rw [unrivalled_nil_nil]
      simp only [List.append_nil, Fits, true_and, true_iff]
      exact hnone
    | [k] =>
      have hk : k ∉ S.final := fun hm ↦ by simp [hnone k hm] at hin
      simp [Fits, hk]
    | k :: k' :: ks => simp [Fits]
  | some k₀ =>
    obtain ⟨hmem, hin₀, hbest⟩ := find?_eq_some_iff_takeWhile.mp hf
    match ks with
    | [] =>
      have : ¬∀ k ∈ S.final, inside (w ++ [k]) = false := fun hc ↦ by simp [hc k₀ hmem] at hin₀
      rw [unrivalled_nil_nil]
      simp [this]
    | [k] =>
      have hiff : k₀ = k ↔ k ∈ S.final ∧
          ∀ k' ∈ S.final.takeWhile (· ≠ k), inside (w ++ [k']) = false := by
        constructor
        · rintro rfl
          exact ⟨hmem, hbest⟩
        · rintro ⟨hk, hk'⟩
          have := find?_eq_some_iff_takeWhile.mpr ⟨hk, hin, hk'⟩
          simpa [hf] using this
      rw [unrivalled_cons_nil]
      simp [Fits, hiff]
    | k :: k' :: ks => simp [Fits]

omit [DecidableEq κ] in
theorem walk_cons_ne_self {w : List κ} {t : τ} {ts : List τ} :
    S.walk inside w (t :: ts) ≠ some w := by
  rw [walk]
  cases hf : (S.choices t).find? fun k ↦ inside (w ++ [k]) with
  | none => exact (Option.some_ne_none w).symm
  | some k₀ =>
    have hin₀ : inside (w ++ [k₀]) = true := by simpa using List.find?_some hf
    by_cases hs : S.stops k₀ = true
    · simp [hs]
    · simp only [hs]
      intro hc
      obtain ⟨ks, hw, -⟩ := walk_extends hin₀ hc
      simpa using congrArg List.length hw

omit [DecidableEq κ] in
/-- The first label of the word a walk ends at is the one its first step took. -/
theorem walk_cons_eq_some_iff {w ks : List κ} {k : κ} {t : τ} {ts : List τ} :
    S.walk inside w (t :: ts) = some (w ++ k :: ks)
      ↔ (S.choices t).find? (fun k ↦ inside (w ++ [k])) = some k ∧
        if S.stops k then ks = [] else S.walk inside (w ++ [k]) ts = some (w ++ [k] ++ ks) := by
  have hcons : ∀ l : κ, w ++ l :: ks = w ++ [l] ++ ks := by simp
  rw [walk]
  cases hf : (S.choices t).find? fun k ↦ inside (w ++ [k]) with
  | none => simp
  | some k₀ =>
    have hin₀ : inside (w ++ [k₀]) = true := by simpa using List.find?_some hf
    by_cases hs : S.stops k₀ = true
    · simp only [hs, if_true, Option.some.injEq, List.append_cancel_left_eq, List.cons.injEq]
      constructor
      · rintro ⟨rfl, hks⟩
        rw [if_pos hs]
        exact ⟨rfl, hks.symm⟩
      · rintro ⟨rfl, hks⟩
        rw [if_pos hs] at hks
        exact ⟨rfl, hks.symm⟩
    · simp only [hs, Option.some.injEq]
      constructor
      · intro hwalk
        -- the rest of the walk keeps the label it starts behind
        obtain ⟨ls, hls, -⟩ := walk_extends hin₀ hwalk
        rw [List.append_assoc] at hls
        obtain rfl : k = k₀ := (List.cons.inj (List.append_cancel_left hls)).1
        rw [if_neg hs, ← hcons]
        exact ⟨rfl, hwalk⟩
      · rintro ⟨rfl, hwalk⟩
        rw [if_neg hs, ← hcons] at hwalk
        exact hwalk

/-- **The walk characterized by the language.** Started at `w`, it ends at `w ++ ks` exactly when
`ks` fits the input and meets no rival, provided the words on the way are inside. -/
theorem walk_eq_some_iff (hclosed : ∀ {u v : List κ}, u <+: v → inside v = true → inside u = true)
    {ts : List τ} : ∀ {w ks : List κ}, inside (w ++ ks) = true →
      (S.walk inside w ts = some (w ++ ks) ↔ S.Fits ks ts ∧ S.Unrivalled inside w ks ts) := by
  induction ts with
  | nil => exact fun hin ↦ walk_nil_eq_some_iff hin
  | cons t ts ih =>
    intro w ks hin
    rcases ks with _ | ⟨k, ks⟩
    · rw [List.append_nil]
      exact iff_of_false walk_cons_ne_self fun h ↦ by simp [Fits] at h
    · have hcons : w ++ k :: ks = w ++ [k] ++ ks := by simp
      have hin_k : inside (w ++ [k]) = true := hclosed ⟨ks, hcons.symm⟩ hin
      rw [walk_cons_eq_some_iff, find?_eq_some_iff_takeWhile, fits_cons_cons, unrivalled_cons_cons]
      by_cases hs : S.stops k = true
      · simp only [hs, hin_k, if_true, true_and, Bool.true_eq_false, false_implies, and_true]
        exact and_right_comm
      · rw [Bool.not_eq_true] at hs
        rw [hcons] at hin
        simp only [hs, hin_k, Bool.false_eq_true, if_false, true_and, ih hin, forall_const]
        exact and_and_and_comm

end Scheme

end PreferenceWalk
