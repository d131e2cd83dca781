import Mathlib.Data.List.Basic
import Mathlib.Data.Nat.Notation
import Mathlib.Data.UInt

/-!
# Hexadecimal digits and escapes

Digits of either case are read, lower case ones are written. A digit that has been read is written
in lower case (`digit_of_value`), and so are two digits that have been read (`render_of_pair`).

An escape is an escape character with two digits behind it, and stands for the byte of these digits.
`unescape` replaces the escapes in a text and leaves everything else as it is, an escape character
without two digits included; so it leaves exactly the texts without an escape alone, and makes every
other one shorter (`length_unescape`).
-/

namespace Hex

/-! ## Digits -/

/-- The value of a digit. -/
def value (ch : UInt8) : Option ℕ :=
  if 48 ≤ ch ∧ ch ≤ 57 then some (ch.toNat - 48)
  else if 97 ≤ ch ∧ ch ≤ 102 then some (ch.toNat - 87)
  else if 65 ≤ ch ∧ ch ≤ 70 then some (ch.toNat - 55)
  else none

/-- The digit for a value below 16. -/
def digit (n : ℕ) : UInt8 := if n < 10 then (48 + n).toUInt8 else (87 + n).toUInt8

/-- A letter that is a digit, in lower case. -/
def lower (ch : UInt8) : UInt8 := if 65 ≤ ch ∧ ch ≤ 70 then ch + 32 else ch

theorem forall_byte {P : UInt8 → Prop} (h : ∀ n : Fin 256, P n.val.toUInt8) (ch : UInt8) :
    P ch := by
  have hch := h ⟨ch.toNat, ch.toNat_lt⟩
  rwa [Nat.toUInt8_eq, UInt8.ofNat_toNat] at hch

theorem value_lt {ch : UInt8} {n : ℕ} (h : value ch = some n) : n < 16 := by
  have hall : ∀ ch : UInt8, ∀ n ∈ value ch, n < 16 := forall_byte (by decide +kernel)
  exact hall ch n h

theorem digit_of_value {ch : UInt8} {n : ℕ} (h : value ch = some n) : digit n = lower ch := by
  have hall : ∀ ch : UInt8, ∀ n ∈ value ch, digit n = lower ch := forall_byte (by decide +kernel)
  exact hall ch n h

/-! ## Bytes -/

/-- The byte of two digits. -/
def pair (hi lo : UInt8) : Option UInt8 :=
  match value hi, value lo with
  | some h, some l => some (16 * h + l).toUInt8
  | _, _ => none

/-- The two digits of a byte. -/
def render (b : UInt8) : List UInt8 := [digit (b.toNat / 16), digit (b.toNat % 16)]

theorem pair_eq_some_iff {hi lo b : UInt8} : pair hi lo = some b ↔
    value hi = some (b.toNat / 16) ∧ value lo = some (b.toNat % 16) := by
  rw [pair]
  cases hhi : value hi with
  | none => exact iff_of_false (by simp) fun h ↦ by cases h.1
  | some h =>
    cases hlo : value lo with
    | none => exact iff_of_false (by simp) fun h ↦ by cases h.2
    | some l =>
      have hh := value_lt hhi
      have hl := value_lt hlo
      have hb := b.toNat_lt
      have hbyte : (16 * h + l).toUInt8.toNat = 16 * h + l := by
        rw [Nat.toUInt8_eq, UInt8.toNat_ofNat', Nat.mod_eq_of_lt (by omega)]
      simp only [Option.some.injEq]
      rw [← UInt8.toNat_inj, hbyte]
      omega

/-- **Two digits are written back**, in lower case. -/
theorem render_of_pair {hi lo b : UInt8} (h : pair hi lo = some b) :
    render b = [lower hi, lower lo] := by
  obtain ⟨hhi, hlo⟩ := pair_eq_some_iff.mp h
  rw [render, digit_of_value hhi, digit_of_value hlo]

/-! ## Escapes -/

variable (esc : UInt8)

/-- Every escape is replaced by the byte it stands for. -/
def unescape : List UInt8 → List UInt8
  | [] => []
  | [ch] => [ch]
  | [ch, ch'] => [ch, ch']
  | ch :: hi :: lo :: rest =>
    if ch = esc then
      match pair hi lo with
      | some b => b :: unescape rest
      | none => ch :: unescape (hi :: lo :: rest)
    else ch :: unescape (hi :: lo :: rest)

/-- Somewhere in the text is an escape. -/
def HasEscape (s : List UInt8) : Prop :=
  ∃ before hi lo after, s = before ++ esc :: hi :: lo :: after ∧ (pair hi lo).isSome

variable {esc}

theorem HasEscape.cons {ch : UInt8} {s : List UInt8} (h : HasEscape esc s) :
    HasEscape esc (ch :: s) := by
  obtain ⟨before, hi, lo, after, rfl, hpair⟩ := h
  exact ⟨ch :: before, hi, lo, after, rfl, hpair⟩

theorem not_hasEscape_of_short {s : List UInt8} (h : s.length < 3) : ¬HasEscape esc s := by
  rintro ⟨before, hi, lo, after, rfl, -⟩
  simp only [List.length_append, List.length_cons] at h
  omega

theorem hasEscape_cons_iff {ch hi lo : UInt8} {rest : List UInt8} :
    HasEscape esc (ch :: hi :: lo :: rest) ↔
      ch = esc ∧ (pair hi lo).isSome ∨ HasEscape esc (hi :: lo :: rest) := by
  constructor
  · rintro ⟨before, hi', lo', after, hs, hpair⟩
    cases before with
    | nil =>
      obtain ⟨rfl, rfl, rfl, rfl⟩ : ch = esc ∧ hi = hi' ∧ lo = lo' ∧ rest = after := by
        simpa using hs
      exact Or.inl ⟨rfl, hpair⟩
    | cons b before => exact Or.inr ⟨before, hi', lo', after, (List.cons.inj hs).2, hpair⟩
  · rintro (⟨rfl, hpair⟩ | h)
    · exact ⟨[], hi, lo, rest, rfl, hpair⟩
    · exact h.cons

theorem length_unescape (s : List UInt8) :
    (unescape esc s).length ≤ s.length ∧
      (HasEscape esc s → (unescape esc s).length < s.length) ∧
      (¬HasEscape esc s → unescape esc s = s) := by
  induction s using unescape.induct esc with
  | case1 => exact ⟨le_refl _, fun h ↦ absurd h (not_hasEscape_of_short (by simp)), fun _ ↦ rfl⟩
  | case2 ch => exact ⟨le_refl _, fun h ↦ absurd h (not_hasEscape_of_short (by simp)), fun _ ↦ rfl⟩
  | case3 ch ch' =>
    exact ⟨le_refl _, fun h ↦ absurd h (not_hasEscape_of_short (by simp)), fun _ ↦ rfl⟩
  | case4 hi lo rest b hpair ih =>
    have hstep : unescape esc (esc :: hi :: lo :: rest) = b :: unescape esc rest := by
      rw [unescape, if_pos rfl, hpair]
    have hescape : HasEscape esc (esc :: hi :: lo :: rest) :=
      hasEscape_cons_iff.mpr (Or.inl ⟨rfl, by rw [hpair]; rfl⟩)
    rw [hstep]
    simp only [List.length_cons]
    exact ⟨by omega, fun _ ↦ by omega, fun h ↦ absurd hescape h⟩
  | case5 hi lo rest hpair ih =>
    have hstep : unescape esc (esc :: hi :: lo :: rest) =
        esc :: unescape esc (hi :: lo :: rest) := by
      rw [unescape, if_pos rfl, hpair]
    rw [hstep, hasEscape_cons_iff, hpair]
    obtain ⟨hle, hlt, hsame⟩ := ih
    refine ⟨Nat.succ_le_succ hle, fun h ↦ ?_, fun h ↦ ?_⟩
    · exact Nat.succ_lt_succ (hlt (h.resolve_left fun hfirst ↦ absurd hfirst.2 (by decide)))
    · exact congrArg (esc :: ·) (hsame fun hrest ↦ h (Or.inr hrest))
  | case6 ch hi lo rest hch ih =>
    have hstep : unescape esc (ch :: hi :: lo :: rest) = ch :: unescape esc (hi :: lo :: rest) := by
      rw [unescape, if_neg hch]
    rw [hstep, hasEscape_cons_iff]
    obtain ⟨hle, hlt, hsame⟩ := ih
    refine ⟨Nat.succ_le_succ hle, fun h ↦ ?_, fun h ↦ ?_⟩
    · exact Nat.succ_lt_succ (hlt (h.resolve_left fun hfirst ↦ hch hfirst.1))
    · exact congrArg (ch :: ·) (hsame fun hrest ↦ h (Or.inr hrest))

theorem unescape_of_not_hasEscape {s : List UInt8} (h : ¬HasEscape esc s) :
    unescape esc s = s := (length_unescape s).2.2 h

/-- **Only texts without an escape stay as they are**, even up to their length. -/
theorem not_hasEscape_of_length {s : List UInt8} (h : s.length ≤ (unescape esc s).length) :
    ¬HasEscape esc s := fun hescape ↦
  absurd ((length_unescape s).2.1 hescape) (Nat.not_lt.mpr h)

end Hex
