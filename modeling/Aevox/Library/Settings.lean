import Mathlib.Data.List.Basic
import Mathlib.Data.List.Nodup

/-!
# Settings read one after another

A record is overridden from a source that may say something about each of its settings: what it says
is read and checked, and stored if the check succeeds. The first check that fails ends the loading.
Along the way notes are taken of what passes.

So loading fails with the first failure in the order of the settings, whatever the record was
(`load_eq`). If storing a setting changes what the record says about this one and about no other
(`Lawful`), then a record that has been loaded says about each setting what the source says, or what
it said before (`get_foldl_stored`), and the order of the settings does not matter to it.
-/

/-- How settings are read from what a source says, and stored in a record. -/
structure Settings (ι : Type*) (Val : ι → Type*) (ν ω σ ε : Type*) where
  read : (i : ι) → ν → Except ε (Val i)
  store : (i : ι) → Val i → σ → σ
  notes : ι → ν → List ω

namespace Settings

variable {ι : Type*} {Val : ι → Type*} {ν ω σ ε : Type*} (S : Settings ι Val ν ω σ ε)

/-- The settings are read and stored one after another. -/
def load (source : ι → Option ν) : List ι → σ → Except ε σ × List ω
  | [], s => (.ok s, [])
  | i :: is, s =>
    match source i with
    | none => load source is s
    | some n =>
      match S.read i n with
      | .error e => (.error e, [])
      | .ok v =>
        let (result, notes) := load source is (S.store i v s)
        (result, S.notes i n ++ notes)

/-- What the source says about a setting. -/
def value (source : ι → Option ν) (i : ι) : Option (Val i) :=
  (source i).bind fun n ↦ (S.read i n).toOption

/-- What is wrong with what the source says. -/
def failure (source : ι → Option ν) (i : ι) : Option ε :=
  (source i).bind fun n ↦
    match S.read i n with
    | .error e => some e
    | .ok _ => none

/-- What a source without failures stores. -/
def stored (source : ι → Option ν) (i : ι) (s : σ) : σ :=
  (S.value source i).elim s fun v ↦ S.store i v s

/-- What is noted where there is no failure. -/
def noted (source : ι → Option ν) (i : ι) : List ω := (source i).elim [] (S.notes i)

variable {S}

theorem failure_eq_some_iff {source : ι → Option ν} {i : ι} {e : ε} :
    S.failure source i = some e ↔ ∃ n, source i = some n ∧ S.read i n = .error e := by
  rw [failure, Option.bind_eq_some_iff]
  refine exists_congr fun n ↦ and_congr_right fun _ ↦ ?_
  cases S.read i n <;> simp

theorem failure_eq_none_iff {source : ι → Option ν} {i : ι} :
    S.failure source i = none ↔ ∀ n, source i = some n → ∃ v, S.read i n = .ok v := by
  rw [failure, Option.bind_eq_none_iff]
  refine forall₂_congr fun n _ ↦ ?_
  cases S.read i n <;> simp

/-- **Loading fails with the first failure**, and stores everything if there is none. -/
theorem load_eq (source : ι → Option ν) {is : List ι} : ∀ s, S.load source is s =
    ((is.findSome? (S.failure source)).elim
      (.ok (is.foldl (fun s i ↦ S.stored source i s) s)) .error,
     (is.takeWhile fun i ↦ (S.failure source i).isNone).flatMap (S.noted source)) := by
  induction is with
  | nil => exact fun s ↦ rfl
  | cons i is ih =>
    intro s
    rw [load, List.findSome?_cons, List.takeWhile_cons, List.foldl_cons]
    cases hsource : source i with
    | none =>
      have hfailure : S.failure source i = none := by rw [failure, hsource]; rfl
      have hstored : S.stored source i s = s := by rw [stored, value, hsource]; rfl
      have hnoted : S.noted source i = [] := by rw [noted, hsource]; rfl
      rw [hfailure, hstored, Option.isNone_none, if_pos rfl, List.flatMap_cons, hnoted]
      exact ih s
    | some n =>
      cases hread : S.read i n with
      | error e =>
        have hfailure : S.failure source i = some e := by
          rw [failure, hsource, Option.bind_some, hread]
        dsimp only
        rw [hread, hfailure]
        rfl
      | ok v =>
        have hfailure : S.failure source i = none := by
          rw [failure, hsource, Option.bind_some, hread]
        have hstored : S.stored source i s = S.store i v s := by
          rw [stored, value, hsource, Option.bind_some, hread]
          rfl
        have hnoted : S.noted source i = S.notes i n := by rw [noted, hsource]; rfl
        rw [hfailure, hstored, Option.isNone_none, if_pos rfl, List.flatMap_cons, hnoted]
        dsimp only
        rw [hread]
        dsimp only
        rw [ih]

/-- Where loading fails, and what has been noted by then. -/
theorem load_eq_error_iff {source : ι → Option ν} {is : List ι} {s : σ} {e : ε} {notes : List ω} :
    S.load source is s = (.error e, notes) ↔ ∃ before i after, is = before ++ i :: after ∧
      S.failure source i = some e ∧ (∀ j ∈ before, S.failure source j = none) ∧
      notes = before.flatMap (S.noted source) := by
  have htake {before after : List ι} {i : ι} {e : ε} (hi : S.failure source i = some e)
      (hbefore : ∀ j ∈ before, S.failure source j = none) :
      (before ++ i :: after).takeWhile (fun i ↦ (S.failure source i).isNone) = before := by
    have hpos : ∀ j ∈ before, (S.failure source j).isNone = true :=
      fun j hj ↦ by rw [hbefore j hj, Option.isNone_none]
    rw [List.takeWhile_append_of_pos hpos, List.takeWhile_cons, hi, Option.isNone_some,
      if_neg Bool.false_ne_true, List.append_nil]
  rw [load_eq, Prod.mk.injEq]
  constructor
  · rintro ⟨hresult, rfl⟩
    cases hfirst : is.findSome? (S.failure source) with
    | none =>
      rw [hfirst] at hresult
      exact absurd hresult (by simp)
    | some e' =>
      rw [hfirst] at hresult
      obtain rfl := Except.error.inj hresult
      obtain ⟨before, i, after, rfl, hi, hbefore⟩ := List.findSome?_eq_some_iff.mp hfirst
      exact ⟨before, i, after, rfl, hi, hbefore, by rw [htake hi hbefore]⟩
  · rintro ⟨before, i, after, rfl, hi, hbefore, rfl⟩
    rw [List.findSome?_eq_some_iff.mpr ⟨before, i, after, rfl, hi, hbefore⟩, htake hi hbefore]
    exact ⟨rfl, rfl⟩

theorem load_append (source : ι → Option ν) {is js : List ι} : ∀ s, S.load source (is ++ js) s =
    match S.load source is s with
    | (.error e, notes) => (.error e, notes)
    | (.ok s', notes) => ((S.load source js s').1, notes ++ (S.load source js s').2) := by
  induction is with
  | nil => exact fun s ↦ rfl
  | cons i is ih =>
    intro s
    rw [List.cons_append, load, load]
    cases source i with
    | none => exact ih s
    | some n =>
      dsimp only
      cases S.read i n with
      | error e => rfl
      | ok v =>
        dsimp only
        rw [ih]
        rcases S.load source is (S.store i v s) with ⟨e | s', notes⟩
        · rfl
        · simp only [List.append_assoc]

theorem load_of_eq_none {source : ι → Option ν} {is : List ι} (h : ∀ i ∈ is, source i = none)
    (s : σ) : S.load source is s = (.ok s, []) := by
  induction is with
  | nil => rfl
  | cons i is ih =>
    rw [load, h i List.mem_cons_self]
    exact ih fun j hj ↦ h j (List.mem_cons_of_mem _ hj)

/-! ## One source over another -/

variable {upper lower source : ι → Option ν} {i : ι}

theorem failure_or (h : source i = (upper i).or (lower i)) (hi : S.failure lower i = none) :
    S.failure source i = S.failure upper i := by
  rw [failure, failure, h]
  cases hupper : upper i with
  | none =>
    rw [Option.none_or, Option.bind_none]
    exact hi
  | some n => rfl

theorem value_or (h : source i = (upper i).or (lower i)) (hi : S.failure upper i = none) :
    S.value source i = (S.value upper i).or (S.value lower i) := by
  rw [value, value, value, h]
  cases hupper : upper i with
  | none => rfl
  | some n =>
    obtain ⟨v, hv⟩ := failure_eq_none_iff.mp hi n hupper
    simp only [Option.some_or, Option.bind_some, hv]
    rfl

/-! ## Lawful settings -/

/-- A record that says what it holds about each setting. -/
structure Lawful (S : Settings ι Val ν ω σ ε) (get : (i : ι) → σ → Option (Val i)) : Prop where
  get_store : ∀ {i n v} (s : σ), S.read i n = .ok v → get i (S.store i v s) = some v
  get_store_of_ne : ∀ {i j} (v : Val i) (s : σ), j ≠ i → get j (S.store i v s) = get j s

variable {get : (i : ι) → σ → Option (Val i)}

theorem get_stored_self (h : S.Lawful get) (source : ι → Option ν) (i : ι) (s : σ) :
    get i (S.stored source i s) = (S.value source i).or (get i s) := by
  rw [stored, value]
  cases source i with
  | none => rfl
  | some n =>
    dsimp only [Option.bind_some]
    cases hread : S.read i n with
    | error e => rfl
    | ok v => exact h.get_store s hread

theorem get_stored_of_ne (h : S.Lawful get) (source : ι → Option ν) {i j : ι} (hj : j ≠ i) (s : σ) :
    get j (S.stored source i s) = get j s := by
  rw [stored]
  cases S.value source i with
  | none => rfl
  | some v => exact h.get_store_of_ne v s hj

/-- **What a loaded record says.** -/
theorem get_foldl_stored [DecidableEq ι] (h : S.Lawful get) {source : ι → Option ν}
    {is : List ι} : ∀ {s : σ}, is.Nodup → ∀ j,
      get j (is.foldl (fun s i ↦ S.stored source i s) s)
        = if j ∈ is then (S.value source j).or (get j s) else get j s := by
  induction is with
  | nil => exact fun _ _ ↦ rfl
  | cons i is ih =>
    intro s hnodup j
    obtain ⟨hi, hrest⟩ := List.nodup_cons.mp hnodup
    rw [List.foldl_cons, ih hrest]
    by_cases hj : j = i
    · subst hj
      rw [if_neg hi, if_pos List.mem_cons_self, get_stored_self h]
    · rw [get_stored_of_ne h source hj]
      simp only [List.mem_cons, hj, false_or]

theorem frame_foldl_stored {τ : Type*} {rest : σ → τ}
    (h : ∀ i v s, rest (S.store i v s) = rest s) (source : ι → Option ν) {is : List ι} :
    ∀ {s : σ}, rest (is.foldl (fun s i ↦ S.stored source i s) s) = rest s := by
  induction is with
  | nil => exact rfl
  | cons i is ih =>
    intro s
    rw [List.foldl_cons, ih, stored]
    cases S.value source i with
    | none => rfl
    | some v => exact h i v s

end Settings
