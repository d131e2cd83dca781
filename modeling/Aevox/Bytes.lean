import Mathlib.Data.List.Basic

/-!
# Byte strings

A `std::string`, a `std::string_view` and a `std::span<const std::byte>` are all lists of bytes
here. Text constants of the source are ASCII and enter through `ascii`.
-/

namespace Aevox

/-- The contents of a string or of a byte buffer. -/
abbrev Bytes := List UInt8

instance : LawfulBEq Bytes := inferInstance

/-- The bytes of an ASCII text constant. -/
def ascii (s : String) : Bytes := s.toList.map fun c ↦ c.toNat.toUInt8

/-- `'/'` -/
abbrev slash : UInt8 := 47

/-- `'\r'` -/
abbrev cr : UInt8 := 13

/-- `'\n'` -/
abbrev lf : UInt8 := 10

/-- `"\r\n"` -/
abbrev crlf : Bytes := [cr, lf]

/-- The decimal rendering of `n`, as `std::format("{}", n)` prints it. -/
def decimal (n : ℕ) : Bytes := (Nat.toDigits 10 n).map fun c ↦ c.toNat.toUInt8

/-- `std::tolower` in the C locale, which is also the folding `ascii_equal_ignore_case` does. -/
def toLower (b : UInt8) : UInt8 := if 65 ≤ b ∧ b ≤ 90 then b + 32 else b

/-- `ascii_equal_ignore_case` and `ws_iequal`: equality up to ASCII letter case. -/
def equalIgnoreCase (a b : Bytes) : Bool := a.map toLower == b.map toLower

theorem drop_eq_cons {bs : Bytes} {i : ℕ} (h : i < bs.length) :
    bs.drop i = bs.getD i 0 :: bs.drop (i + 1) := by
  rw [List.drop_eq_getElem_cons h, List.getD_eq_getElem?_getD, List.getElem?_eq_getElem h,
    Option.getD_some]

end Aevox
