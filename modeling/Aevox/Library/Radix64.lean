import Mathlib.Data.List.Basic
import Mathlib.Data.UInt

/-!
# The base 64 encoding of RFC 4648

Three bytes are four characters of an alphabet of 64, six bits each. One or two bytes that are left
over are two or three characters, filled up with padding.

The decoder takes nothing but what the encoder writes: padding ends the text, and bits that do not
belong to a byte are zero. Every list of bytes is read back (`decode_encode`).
-/

namespace Radix64

/-! ## Characters -/

/-- `'='` -/
abbrev padding : UInt8 := 61

/-- The character for a value below 64. -/
def character (n : ℕ) : UInt8 :=
  if n < 26 then (65 + n).toUInt8
  else if n < 52 then (71 + n).toUInt8
  else if n < 62 then (n - 4).toUInt8
  else if n = 62 then 43
  else 47

/-- The value of a character. -/
def value (ch : UInt8) : Option ℕ :=
  if 65 ≤ ch ∧ ch ≤ 90 then some (ch.toNat - 65)
  else if 97 ≤ ch ∧ ch ≤ 122 then some (ch.toNat - 71)
  else if 48 ≤ ch ∧ ch ≤ 57 then some (ch.toNat + 4)
  else if ch = 43 then some 62
  else if ch = 47 then some 63
  else none

theorem value_character {n : ℕ} (h : n < 64) : value (character n) = some n := by
  have hall : ∀ n : Fin 64, value (character n) = some n.val := by decide
  exact hall ⟨n, h⟩

theorem ne_padding_of_value {ch : UInt8} {n : ℕ} (h : value ch = some n) : ch ≠ padding := by
  rintro rfl
  have hnone : value padding = none := by decide
  rw [hnone] at h
  cases h

/-! ## Texts -/

/-- The text for a list of bytes. -/
def encode : List UInt8 → List UInt8
  | [] => []
  | [a] => [character (a.toNat / 4), character (a.toNat % 4 * 16), padding, padding]
  | [a, b] =>
    [character (a.toNat / 4), character (a.toNat % 4 * 16 + b.toNat / 16),
      character (b.toNat % 16 * 4), padding]
  | a :: b :: c :: rest =>
    character (a.toNat / 4) :: character (a.toNat % 4 * 16 + b.toNat / 16) ::
      character (b.toNat % 16 * 4 + c.toNat / 64) :: character (c.toNat % 64) :: encode rest

/-- The bytes a text stands for. -/
def decode : List UInt8 → Option (List UInt8)
  | [] => some []
  | ch₀ :: ch₁ :: ch₂ :: ch₃ :: rest => do
    let u ← value ch₀
    let v ← value ch₁
    let a := (u * 4 + v / 16).toUInt8
    if ch₂ = padding then
      if ch₃ = padding ∧ rest = [] ∧ v % 16 = 0 then some [a] else none
    else
      let w ← value ch₂
      let b := (v % 16 * 16 + w / 4).toUInt8
      if ch₃ = padding then
        if rest = [] ∧ w % 4 = 0 then some [a, b] else none
      else
        let x ← value ch₃
        let c := (w % 4 * 64 + x).toUInt8
        (decode rest).map fun bytes ↦ a :: b :: c :: bytes
  | _ => none

theorem toUInt8_eq (a : UInt8) {n : ℕ} (h : n = a.toNat) : n.toUInt8 = a := by
  rw [h, Nat.toUInt8_eq, UInt8.ofNat_toNat]

/-- **Every list of bytes is read back.** -/
theorem decode_encode (bytes : List UInt8) : decode (encode bytes) = some bytes := by
  induction bytes using encode.induct with
  | case1 => rfl
  | case2 a =>
    have ha := a.toNat_lt
    rw [encode, decode, value_character (by omega), value_character (by omega)]
    simp only [Option.bind_eq_bind, Option.bind_some, if_true, true_and]
    rw [if_pos (by omega), toUInt8_eq a (by omega)]
  | case3 a b =>
    have ha := a.toNat_lt
    have hb := b.toNat_lt
    have hw := value_character (n := b.toNat % 16 * 4) (by omega)
    rw [encode, decode, value_character (by omega), value_character (by omega), hw]
    simp only [Option.bind_eq_bind, Option.bind_some, if_neg (ne_padding_of_value hw), if_true,
      true_and]
    rw [if_pos (by omega), toUInt8_eq a (by omega), toUInt8_eq b (by omega)]
  | case4 a b c rest ih =>
    have ha := a.toNat_lt
    have hb := b.toNat_lt
    have hc := c.toNat_lt
    have hw := value_character (n := b.toNat % 16 * 4 + c.toNat / 64) (by omega)
    have hx := value_character (n := c.toNat % 64) (by omega)
    rw [encode, decode, value_character (by omega), value_character (by omega), hw, hx, ih]
    simp only [Option.bind_eq_bind, Option.bind_some, if_neg (ne_padding_of_value hw),
      if_neg (ne_padding_of_value hx), Option.map_some]
    rw [toUInt8_eq a (by omega), toUInt8_eq b (by omega), toUInt8_eq c (by omega)]

/-- Four characters for every three bytes, begun or whole. -/
theorem length_encode (bytes : List UInt8) :
    (encode bytes).length = (bytes.length + 2) / 3 * 4 := by
  induction bytes using encode.induct with
  | case1 => rfl
  | case2 a => simp only [encode, List.length_cons, List.length_nil, Nat.reduceAdd, Nat.reduceDiv]
  | case3 a b => simp only [encode, List.length_cons, List.length_nil, Nat.reduceAdd, Nat.reduceDiv]
  | case4 a b c rest ih =>
    simp only [encode, List.length_cons, ih]
    omega

/-- **Padding stands at the end only**, as much as a whole number of groups takes. -/
theorem encode_eq_append_padding (bytes : List UInt8) : ∃ chars,
    encode bytes = chars ++ List.replicate ((3 - bytes.length % 3) % 3) padding ∧
      ∀ ch ∈ chars, ∃ n < 64, ch = character n := by
  induction bytes using encode.induct with
  | case1 => exact ⟨[], rfl, by simp⟩
  | case2 a =>
    have ha := a.toNat_lt
    refine ⟨[_, _], rfl, ?_⟩
    simp only [List.forall_mem_cons]
    exact ⟨⟨_, by omega, rfl⟩, ⟨_, by omega, rfl⟩, by simp⟩
  | case3 a b =>
    have ha := a.toNat_lt
    have hb := b.toNat_lt
    refine ⟨[_, _, _], rfl, ?_⟩
    simp only [List.forall_mem_cons]
    exact ⟨⟨_, by omega, rfl⟩, ⟨_, by omega, rfl⟩, ⟨_, by omega, rfl⟩, by simp⟩
  | case4 a b c rest ih =>
    have ha := a.toNat_lt
    have hb := b.toNat_lt
    have hc := c.toNat_lt
    obtain ⟨chars, hchars, hall⟩ := ih
    refine ⟨character (a.toNat / 4) :: character (a.toNat % 4 * 16 + b.toNat / 16) ::
      character (b.toNat % 16 * 4 + c.toNat / 64) :: character (c.toNat % 64) :: chars, ?_, ?_⟩
    · rw [encode, hchars]
      simp only [List.length_cons, Nat.add_assoc, Nat.reduceAdd, Nat.add_mod_right]
      rfl
    · simp only [List.forall_mem_cons]
      exact ⟨⟨_, by omega, rfl⟩, ⟨_, by omega, rfl⟩, ⟨_, by omega, rfl⟩, ⟨_, by omega, rfl⟩, hall⟩

end Radix64
