import Aevox.Bytes
import Aevox.Library.BigEndian
import Aevox.Library.Buffer
import Aevox.Library.Radix64
import Mathlib.Algebra.Order.Floor.Div

/-!
# `base64_encode`

The result is allocated in its final size, and filled from front to back: four characters for every
three bytes, and four more for one or two bytes that are left over. The positions written are kept
as history; they are all positions of the result, each of them once.

The text is the encoding of RFC 4648.
-/

namespace Aevox.Base64

/-! ## The source -/

def kBase64Alphabet : Bytes :=
  ascii "ABCDEFGHIJKLMNOPQRSTUVWXYZabcdefghijklmnopqrstuvwxyz0123456789+/"

abbrev kInputGroupBytes : ℕ := 3
abbrev kOutputGroupChars : ℕ := 4
abbrev kOneRemainingByte : ℕ := 1
abbrev kTwoRemainingBytes : ℕ := 2
abbrev kSixBitMask : UInt32 := 0x3F
abbrev kFirstByteShift : UInt32 := 16
abbrev kSecondByteShift : UInt32 := 8
abbrev kFirstSextetShift : UInt32 := 18
abbrev kSecondSextetShift : UInt32 := 12
abbrev kThirdSextetShift : UInt32 := 6
abbrev kSingleByteShift : UInt32 := 2
abbrev kSingleBytePadShift : UInt32 := 4
abbrev kTwoByteFirstShift : UInt32 := 8
abbrev kTwoByteSecondShift : UInt32 := 10
abbrev kTwoByteThirdShift : UInt32 := 4
abbrev kTwoBytePadShift : UInt32 := 2

/-- The result while it is filled. -/
structure Output where
  result : Bytes
  outPos : ℕ
  /-- The positions written, in order. -/
  written : List ℕ

/-- `result[out_pos++] = ch` -/
def Output.put (out : Output) (ch : UInt8) : Output where
  result := out.result.set out.outPos ch
  outPos := out.outPos + 1
  written := out.written ++ [out.outPos]

/-- The character for the low six bits. -/
def sextet (val : UInt32) : UInt8 := kBase64Alphabet.getD (val &&& kSixBitMask).toNat 0

/-- The loop over groups of three bytes, with the position of the first byte that is left over. -/
def encodeGroups (input : Bytes) (inPos : ℕ) (out : Output) : ℕ × Output :=
  if inPos + kInputGroupBytes ≤ input.length then
    let trio : UInt32 := (input.getD inPos 0).toUInt32 <<< kFirstByteShift |||
      (input.getD (inPos + kOneRemainingByte) 0).toUInt32 <<< kSecondByteShift |||
      (input.getD (inPos + kTwoRemainingBytes) 0).toUInt32
    let out := out.put (sextet (trio >>> kFirstSextetShift))
    let out := out.put (sextet (trio >>> kSecondSextetShift))
    let out := out.put (sextet (trio >>> kThirdSextetShift))
    let out := out.put (sextet trio)
    encodeGroups input (inPos + kInputGroupBytes) out
  else (inPos, out)
termination_by input.length - inPos
decreasing_by simp only [kInputGroupBytes] at *; omega

/-- One or two bytes that are left over. -/
def encodeRemaining (input : Bytes) (inPos : ℕ) (out : Output) : Output :=
  let remainder := input.length - inPos
  if remainder = kOneRemainingByte then
    let val : UInt32 := (input.getD inPos 0).toUInt32
    let out := out.put (sextet (val >>> kSingleByteShift))
    let out := out.put (sextet (val <<< kSingleBytePadShift))
    let out := out.put 61
    out.put 61
  else if remainder = kTwoRemainingBytes then
    let val : UInt32 := (input.getD inPos 0).toUInt32 <<< kTwoByteFirstShift |||
      (input.getD (inPos + kOneRemainingByte) 0).toUInt32
    let out := out.put (sextet (val >>> kTwoByteSecondShift))
    let out := out.put (sextet (val >>> kTwoByteThirdShift))
    let out := out.put (sextet (val <<< kTwoBytePadShift))
    out.put 61
  else out

def outSize (input : Bytes) : ℕ :=
  (input.length + kTwoRemainingBytes) / kInputGroupBytes * kOutputGroupChars

/-- The result with its history, when `base64_encode` returns. -/
def output (input : Bytes) : Output :=
  let (inPos, out) := encodeGroups input 0
    { result := List.replicate (outSize input) 0, outPos := 0, written := [] }
  encodeRemaining input inPos out

def base64Encode (input : Bytes) : Bytes := (output input).result

/-! ## Six bits -/

theorem getD_alphabet {n : ℕ} (h : n < 64) : kBase64Alphabet.getD n 0 = Radix64.character n := by
  have hall : ∀ n : Fin 64, kBase64Alphabet.getD n.val 0 = Radix64.character n.val := by
    decide +kernel
  exact hall ⟨n, h⟩

theorem sextet_eq {val : UInt32} {n k : ℕ} (hval : val.toNat = n) (hn : n % 64 = k) :
    sextet val = Radix64.character k := by
  have hmask : (val &&& kSixBitMask).toNat = n % 64 := by
    rw [UInt32.toNat_and, hval]
    exact Nat.and_two_pow_sub_one_eq_mod n 6
  rw [sextet, hmask, hn, getD_alphabet (hn ▸ Nat.mod_lt _ (by decide))]

theorem toNat_pair (a b : UInt8) :
    (a.toUInt32 <<< 8 ||| b.toUInt32 : UInt32).toNat = 256 * a.toNat + b.toNat := by
  have ha := a.toNat_lt
  rw [UInt32.toNat_or, UInt32.toNat_shiftLeft, UInt8.toNat_toUInt32, UInt8.toNat_toUInt32,
    ← BigEndian.shiftLeft_or_toNat]
  have hshift : a.toNat <<< (UInt32.toNat 8 % 32) % 2 ^ 32 = a.toNat <<< 8 :=
    Nat.mod_eq_of_lt (by rw [Nat.shiftLeft_eq]; simp; omega)
  rw [hshift]

theorem toNat_trio (a b c : UInt8) :
    (a.toUInt32 <<< 16 ||| b.toUInt32 <<< 8 ||| c.toUInt32 : UInt32).toNat =
      65536 * a.toNat + 256 * b.toNat + c.toNat := by
  have hpair : (a.toUInt32 <<< 16 ||| b.toUInt32 <<< 8 : UInt32) =
      (a.toUInt32 <<< 8 ||| b.toUInt32) <<< 8 := by
    rw [UInt32.shiftLeft_or, ← UInt32.shiftLeft_add (by decide) (by decide) (by decide)]
    rfl
  have ha := a.toNat_lt
  have hb := b.toNat_lt
  rw [hpair, UInt32.toNat_or, UInt32.toNat_shiftLeft, toNat_pair, UInt8.toNat_toUInt32]
  have hshift : (256 * a.toNat + b.toNat) <<< (UInt32.toNat 8 % 32) % 2 ^ 32 =
      (256 * a.toNat + b.toNat) <<< 8 :=
    Nat.mod_eq_of_lt (by rw [Nat.shiftLeft_eq]; simp; omega)
  rw [hshift, BigEndian.shiftLeft_or_toNat]
  omega

theorem sextet_shiftRight {val n : UInt32} {s k : ℕ} (hn : n.toNat % 32 = s)
    (h : val.toNat / 2 ^ s % 64 = k) : sextet (val >>> n) = Radix64.character k := by
  refine sextet_eq ?_ h
  rw [UInt32.toNat_shiftRight, hn, Nat.shiftRight_eq_div_pow]

theorem sextet_shiftLeft {val n : UInt32} {s k : ℕ} (hn : n.toNat % 32 = s)
    (h : val.toNat * 2 ^ s % 2 ^ 32 % 64 = k) : sextet (val <<< n) = Radix64.character k := by
  refine sextet_eq ?_ h
  rw [UInt32.toNat_shiftLeft, hn, Nat.shiftLeft_eq]

theorem sextets_single (a : UInt8) :
    sextet (a.toUInt32 >>> kSingleByteShift) = Radix64.character (a.toNat / 4) ∧
      sextet (a.toUInt32 <<< kSingleBytePadShift) = Radix64.character (a.toNat % 4 * 16) := by
  have ha := a.toNat_lt
  have hval := UInt8.toNat_toUInt32 a
  exact ⟨sextet_shiftRight (s := 2) rfl (by omega), sextet_shiftLeft (s := 4) rfl (by omega)⟩

theorem sextets_pair {a b : UInt8} {val : UInt32} (hval : val.toNat = 256 * a.toNat + b.toNat) :
    sextet (val >>> kTwoByteSecondShift) = Radix64.character (a.toNat / 4) ∧
      sextet (val >>> kTwoByteThirdShift) =
        Radix64.character (a.toNat % 4 * 16 + b.toNat / 16) ∧
      sextet (val <<< kTwoBytePadShift) = Radix64.character (b.toNat % 16 * 4) := by
  have ha := a.toNat_lt
  have hb := b.toNat_lt
  exact ⟨sextet_shiftRight (s := 10) rfl (by omega), sextet_shiftRight (s := 4) rfl (by omega),
    sextet_shiftLeft (s := 2) rfl (by omega)⟩

theorem sextets_trio {a b c : UInt8} {trio : UInt32}
    (htrio : trio.toNat = 65536 * a.toNat + 256 * b.toNat + c.toNat) :
    sextet (trio >>> kFirstSextetShift) = Radix64.character (a.toNat / 4) ∧
      sextet (trio >>> kSecondSextetShift) =
        Radix64.character (a.toNat % 4 * 16 + b.toNat / 16) ∧
      sextet (trio >>> kThirdSextetShift) =
        Radix64.character (b.toNat % 16 * 4 + c.toNat / 64) ∧
      sextet trio = Radix64.character (c.toNat % 64) := by
  have ha := a.toNat_lt
  have hb := b.toNat_lt
  have hc := c.toNat_lt
  exact ⟨sextet_shiftRight (s := 18) rfl (by omega), sextet_shiftRight (s := 12) rfl (by omega),
    sextet_shiftRight (s := 6) rfl (by omega), sextet_eq rfl (by omega)⟩

/-! ## The result -/

/-- What has been written are the first positions, once each, and the others are as they were. -/
structure Output.Holds (out : Output) (chars : Bytes) (room : ℕ) : Prop where
  result : out.result = chars ++ List.replicate room 0
  outPos : out.outPos = chars.length
  written : out.written = List.range chars.length

variable {input chars : Bytes} {out : Output} {room : ℕ}

theorem Output.Holds.put (h : out.Holds chars (room + 1)) (ch : UInt8) :
    (out.put ch).Holds (chars ++ [ch]) room where
  result := by
    rw [Output.put, h.result, h.outPos, List.replicate_succ, Buffer.set_length_append]
  outPos := by rw [Output.put, h.outPos, List.length_append, List.length_singleton]
  written := by
    rw [Output.put, h.written, h.outPos, List.length_append, List.length_singleton,
      List.range_succ]

theorem Output.Holds.put₄ {ch₀ ch₁ ch₂ ch₃ : UInt8} {rest : Bytes}
    (h : out.Holds chars (ch₀ :: ch₁ :: ch₂ :: ch₃ :: rest).length) :
    ((((out.put ch₀).put ch₁).put ch₂).put ch₃).Holds (chars ++ [ch₀, ch₁, ch₂, ch₃])
      rest.length := by
  have hput := (((h.put ch₀).put ch₁).put ch₂).put ch₃
  simpa using hput

/-- The bytes that are left over. -/
theorem holds_encodeRemaining {inPos : ℕ} (hend : ¬inPos + 3 ≤ input.length)
    (h : out.Holds chars (Radix64.encode (input.drop inPos)).length) :
    (encodeRemaining input inPos out).Holds (chars ++ Radix64.encode (input.drop inPos)) 0 := by
  obtain hnone | hone | htwo : input.length - inPos = 0 ∨ input.length - inPos = 1 ∨
      input.length - inPos = 2 := by omega
  · have hdrop : input.drop inPos = [] := List.drop_eq_nil_of_le (by omega)
    rw [encodeRemaining, hnone, if_neg (by decide), if_neg (by decide), hdrop, Radix64.encode,
      List.append_nil]
    rwa [hdrop] at h
  · have hdrop : input.drop inPos = [input.getD inPos 0] := by
      rw [drop_eq_cons (by omega), List.drop_eq_nil_of_le (by omega)]
    obtain ⟨hfirst, hsecond⟩ := sextets_single (input.getD inPos 0)
    rw [hdrop, Radix64.encode, ← hfirst, ← hsecond] at h ⊢
    rw [encodeRemaining, hone, if_pos rfl]
    exact h.put₄
  · have hdrop : input.drop inPos = [input.getD inPos 0, input.getD (inPos + 1) 0] := by
      rw [drop_eq_cons (by omega), drop_eq_cons (by omega), List.drop_eq_nil_of_le (by omega)]
    obtain ⟨hfirst, hsecond, hthird⟩ :=
      sextets_pair (toNat_pair (input.getD inPos 0) (input.getD (inPos + 1) 0))
    rw [hdrop, Radix64.encode, ← hfirst, ← hsecond, ← hthird] at h ⊢
    rw [encodeRemaining, htwo, if_neg (by decide), if_pos rfl]
    exact h.put₄

/-- **The groups and what is left over.** One group is four characters, and the rest of the input is
encoded behind them. -/
theorem holds_encodeGroups {inPos : ℕ}
    (h : out.Holds chars (Radix64.encode (input.drop inPos)).length) :
    (encodeRemaining input (encodeGroups input inPos out).1 (encodeGroups input inPos out).2).Holds
      (chars ++ Radix64.encode (input.drop inPos)) 0 := by
  induction inPos, out using encodeGroups.induct input generalizing chars with
  | case1 inPos out hgroup trio out₁ out₂ out₃ out₄ =>
    rename_i ih
    simp only [kInputGroupBytes] at hgroup ih
    have hdrop : input.drop inPos = input.getD inPos 0 :: input.getD (inPos + 1) 0 ::
        input.getD (inPos + 2) 0 :: input.drop (inPos + 3) := by
      rw [drop_eq_cons (by omega), drop_eq_cons (by omega), drop_eq_cons (by omega)]
    obtain ⟨hfirst, hsecond, hthird, hfourth⟩ := sextets_trio
      (toNat_trio (input.getD inPos 0) (input.getD (inPos + 1) 0) (input.getD (inPos + 2) 0))
    rw [hdrop, Radix64.encode, ← hfirst, ← hsecond, ← hthird, ← hfourth] at h ⊢
    rw [encodeGroups, if_pos hgroup]
    have hrest := ih h.put₄
    rwa [List.append_assoc] at hrest
  | case2 inPos out hend =>
    rw [encodeGroups, if_neg hend]
    exact holds_encodeRemaining hend h

theorem holds_output (input : Bytes) : (output input).Holds (Radix64.encode input) 0 := by
  have hstart : Output.Holds ⟨List.replicate (outSize input) 0, 0, []⟩ []
      (Radix64.encode (input.drop 0)).length :=
    ⟨by rw [List.drop_zero, Radix64.length_encode]; rfl, rfl, rfl⟩
  exact holds_encodeGroups hstart

/-- **The result is the encoding.** -/
theorem base64Encode_eq (input : Bytes) : base64Encode input = Radix64.encode input := by
  rw [base64Encode, (holds_output input).result, List.replicate_zero, List.append_nil]

example : base64Encode (ascii "light wo") = ascii "bGlnaHQgd28=" := by
  rw [base64Encode_eq]
  decide +kernel

theorem mem_alphabet {n : ℕ} (h : n < 64) : Radix64.character n ∈ kBase64Alphabet := by
  have hlen : kBase64Alphabet.length = 64 := by decide +kernel
  rw [← getD_alphabet h, List.getD_eq_getElem _ _ (hlen ▸ h)]
  exact List.getElem_mem _

/-- **Every input is read back.** The result is as long as the input takes, its positions are
written once each, it has padding at the end only, and it stands for the input. -/
theorem decode_base64Encode (input : Bytes) :
    (base64Encode input).length = 4 * (input.length ⌈/⌉ 3) ∧
      (output input).written = List.range (base64Encode input).length ∧
      (∃ chars, base64Encode input =
        chars ++ List.replicate ((3 - input.length % 3) % 3) Radix64.padding ∧
          ∀ ch ∈ chars, ch ∈ kBase64Alphabet) ∧
      Radix64.decode (base64Encode input) = some input := by
  rw [base64Encode_eq]
  refine ⟨?_, (holds_output input).written, ?_, Radix64.decode_encode input⟩
  · rw [Radix64.length_encode, Nat.ceilDiv_eq_add_pred_div, Nat.mul_comm,
      Nat.add_sub_assoc (by decide)]
  · obtain ⟨chars, hchars, hall⟩ := Radix64.encode_eq_append_padding input
    refine ⟨chars, hchars, fun ch hch ↦ ?_⟩
    obtain ⟨n, hn, rfl⟩ := hall ch hch
    exact mem_alphabet hn

end Aevox.Base64
