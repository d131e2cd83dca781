import Aevox.Library.Hex

/-!
# UTF-8

A character up to `U+007F` is one byte with its number, and every other one consists of bytes from
`0x80` on (`utf8EncodeChar_cases`). So a function that works on bytes and leaves these alone takes
characters to characters (`isText_flatMap`).
-/

namespace Utf8

/-- The text is UTF-8. -/
def IsText (text : List UInt8) : Prop :=
  ∃ chars : List Char, text = chars.flatMap String.utf8EncodeChar

theorem isText_nil : IsText [] := ⟨[], rfl⟩

theorem IsText.append {s t : List UInt8} (hs : IsText s) (ht : IsText t) : IsText (s ++ t) := by
  obtain ⟨cs, rfl⟩ := hs
  obtain ⟨ds, rfl⟩ := ht
  exact ⟨cs ++ ds, List.flatMap_append.symm⟩

theorem isText_singleton {b : UInt8} (h : b < 0x80) : IsText [b] := by
  have hall : ∀ b : UInt8, b < 0x80 →
      [b] = [Char.ofNat b.toNat].flatMap String.utf8EncodeChar :=
    Hex.forall_byte (by decide +kernel)
  exact ⟨_, hall b h⟩

theorem isText_of_ascii {text : List UInt8} (h : ∀ b ∈ text, b < 0x80) : IsText text := by
  induction text with
  | nil => exact isText_nil
  | cons b text ih =>
    rw [List.forall_mem_cons] at h
    exact (isText_singleton h.1).append (ih h.2)

theorem le_ofNat {n : ℕ} (hle : 0x80 ≤ n) (hlt : n < 0x100) : 0x80 ≤ UInt8.ofNat n := by
  rw [UInt8.le_iff_toNat_le, UInt8.toNat_ofNat', Nat.mod_eq_of_lt hlt]
  exact hle

/-- **A character is an ASCII byte, or has none.** -/
theorem utf8EncodeChar_cases (c : Char) :
    (∃ b < 0x80, String.utf8EncodeChar c = [b]) ∨ ∀ b ∈ String.utf8EncodeChar c, 0x80 ≤ b := by
  by_cases hascii : c.val.toNat ≤ 0x7f
  · refine Or.inl ⟨UInt8.ofNat c.val.toNat, ?_, by rw [String.utf8EncodeChar, if_pos hascii]⟩
    rw [UInt8.lt_iff_toNat_lt, UInt8.toNat_ofNat', Nat.mod_eq_of_lt (by omega)]
    exact Nat.lt_succ_of_le hascii
  · right
    rw [String.utf8EncodeChar, if_neg hascii]
    split_ifs <;> simp only [List.forall_mem_cons, List.not_mem_nil, false_imp_iff, implies_true,
      and_true]
    · exact ⟨le_ofNat (by omega) (by omega), le_ofNat (by omega) (by omega)⟩
    · exact ⟨le_ofNat (by omega) (by omega), le_ofNat (by omega) (by omega),
        le_ofNat (by omega) (by omega)⟩
    · exact ⟨le_ofNat (by omega) (by omega), le_ofNat (by omega) (by omega),
        le_ofNat (by omega) (by omega), le_ofNat (by omega) (by omega)⟩

/-- What leaves every byte of a text alone leaves the text alone. -/
theorem flatMap_eq_self {f : UInt8 → List UInt8} {text : List UInt8}
    (h : ∀ b ∈ text, f b = [b]) : text.flatMap f = text := by
  induction text with
  | nil => rfl
  | cons b text ih =>
    rw [List.forall_mem_cons] at h
    rw [List.flatMap_cons, h.1, ih h.2, List.singleton_append]

/-- **What leaves the other bytes alone keeps texts texts.** -/
theorem isText_flatMap {f : UInt8 → List UInt8} (hascii : ∀ b < 0x80, IsText (f b))
    (hother : ∀ b, 0x80 ≤ b → f b = [b]) {text : List UInt8} (h : IsText text) :
    IsText (text.flatMap f) := by
  obtain ⟨chars, rfl⟩ := h
  induction chars with
  | nil => exact isText_nil
  | cons c chars ih =>
    rw [List.flatMap_cons, List.flatMap_append]
    refine IsText.append ?_ ih
    rcases utf8EncodeChar_cases c with ⟨b, hb, hc⟩ | hc
    · rw [hc, List.flatMap_singleton]
      exact hascii b hb
    · rw [flatMap_eq_self fun b hb ↦ hother b (hc b hb)]
      exact ⟨[c], (List.flatMap_singleton _ _).symm⟩

end Utf8
