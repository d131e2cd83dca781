import Mathlib.Algebra.Order.Ring.Nat
import Mathlib.Data.List.Basic
import Mathlib.Data.Nat.Bitwise
import Mathlib.Tactic.Ring

/-!
# Big-endian byte strings

A natural number in a field of `w` bytes, most significant byte first, as shifting and masking
writes and reads it. A number that fits is read back (`decode_encode`).
-/

namespace BigEndian

/-- The `w` bytes of `n`, the high ones first; bits above `8 * w` are dropped. -/
def encode : ℕ → ℕ → List UInt8
  | 0, _ => []
  | w + 1, n => (n >>> (8 * w)).toUInt8 :: encode w n

/-- The number in a field. -/
def decode (bs : List UInt8) : ℕ := bs.foldl (fun n b ↦ n <<< 8 ||| b.toNat) 0

@[simp] theorem length_encode (w n : ℕ) : (encode w n).length = w := by
  induction w with
  | zero => rfl
  | succ w ih => rw [encode, List.length_cons, ih]

theorem shiftLeft_or_toNat (n : ℕ) (b : UInt8) : n <<< 8 ||| b.toNat = 256 * n + b.toNat := by
  rw [← Nat.shiftLeft_add_eq_or_of_lt b.toNat_lt, Nat.shiftLeft_eq]
  ring

/-- What stands before the field counts for `256 ^ w`. -/
theorem foldl_eq (bs : List UInt8) : ∀ n : ℕ,
    bs.foldl (fun n b ↦ n <<< 8 ||| b.toNat) n = 256 ^ bs.length * n + decode bs := by
  induction bs with
  | nil => intro n; simp [decode]
  | cons b bs ih =>
    intro n
    rw [decode, List.foldl_cons, List.foldl_cons, ih, ih, shiftLeft_or_toNat, shiftLeft_or_toNat,
      List.length_cons]
    ring

theorem decode_cons (b : UInt8) (bs : List UInt8) :
    decode (b :: bs) = 256 ^ bs.length * b.toNat + decode bs := by
  rw [decode, List.foldl_cons, foldl_eq, shiftLeft_or_toNat, Nat.mul_zero, Nat.zero_add]

theorem decode_lt (bs : List UInt8) : decode bs < 256 ^ bs.length := by
  induction bs with
  | nil => exact Nat.one_pos
  | cons b bs ih =>
    have hb : 256 ^ bs.length * (b.toNat + 1) ≤ 256 ^ bs.length * 256 :=
      Nat.mul_le_mul_left _ b.toNat_lt
    rw [decode_cons, List.length_cons, pow_succ]
    rw [Nat.mul_add, Nat.mul_one] at hb
    omega

/-- What is read back is what the field has room for. -/
theorem decode_encode_mod (w n : ℕ) : decode (encode w n) = n % 256 ^ w := by
  induction w with
  | zero => rw [pow_zero, Nat.mod_one]; rfl
  | succ w ih =>
    have hbyte : (n >>> (8 * w)).toUInt8.toNat = n / 256 ^ w % 256 := by
      rw [Nat.shiftRight_eq_div_pow, pow_mul]
      exact UInt8.toNat_ofNat'
    rw [encode, decode_cons, length_encode, hbyte, ih, pow_succ, Nat.mod_mul, Nat.add_comm]

/-- **What fits is read back.** -/
theorem decode_encode {w n : ℕ} (h : n < 256 ^ w) : decode (encode w n) = n := by
  rw [decode_encode_mod, Nat.mod_eq_of_lt h]

theorem eq_of_decode_eq {bs : List UInt8} : ∀ {cs : List UInt8}, bs.length = cs.length →
    decode bs = decode cs → bs = cs := by
  induction bs with
  | nil =>
    intro cs hlen _
    exact (List.eq_nil_of_length_eq_zero hlen.symm).symm
  | cons b bs ih =>
    intro cs hlen h
    obtain ⟨c, cs, rfl⟩ := List.exists_cons_of_length_eq_add_one hlen.symm
    have hlen : bs.length = cs.length := Nat.succ.inj hlen
    rw [decode_cons, decode_cons, ← hlen] at h
    -- the first bytes are the quotients by the weight of the rest, which is too small to matter
    have hbs := decode_lt bs
    have hcs : decode cs < 256 ^ bs.length := hlen ▸ decode_lt cs
    have hpos : 256 ^ bs.length > 0 := Nat.pow_pos (by decide)
    have hfirst : b.toNat = c.toNat := by
      have hquot := congrArg (· / 256 ^ bs.length) h
      rwa [Nat.mul_add_div hpos, Nat.mul_add_div hpos, Nat.div_eq_of_lt hbs,
        Nat.div_eq_of_lt hcs, Nat.add_zero, Nat.add_zero] at hquot
    have hrest : decode bs = decode cs := by
      rw [hfirst] at h
      exact Nat.add_left_cancel h
    rw [UInt8.toNat_inj.mp hfirst, ih hlen hrest]

/-- **A field is written back.** -/
theorem encode_decode (bs : List UInt8) : encode bs.length (decode bs) = bs :=
  eq_of_decode_eq (length_encode _ _) (decode_encode (decode_lt bs))

end BigEndian
