import Aevox.Library.BigEndian
import Aevox.Library.Blocks
import Mathlib.Data.UInt

/-!
# The secure hash algorithm SHA-1

The digest of FIPS 180-4, section 6.1. The message is padded to a whole number of blocks, and the
compression function is folded over these. The functions, the constants and the message schedule
keep their names in the standard.

The standard has digests for messages of less than `2 ^ 64` bits only.
-/

namespace SecureHash

/-! ## Functions and constants -/

/-- `ROTL` -/
def rotl (n : ℕ) (x : UInt32) : UInt32 := ⟨x.toBitVec.rotateLeft n⟩

/-- `Ch` -/
def ch (x y z : UInt32) : UInt32 := (x &&& y) ^^^ (~~~x &&& z)

/-- `Parity` -/
def parity (x y z : UInt32) : UInt32 := x ^^^ y ^^^ z

/-- `Maj` -/
def maj (x y z : UInt32) : UInt32 := (x &&& y) ^^^ (x &&& z) ^^^ (y &&& z)

/-- `f t` -/
def f (t : ℕ) (x y z : UInt32) : UInt32 :=
  if t < 20 then ch x y z
  else if t < 40 then parity x y z
  else if t < 60 then maj x y z
  else parity x y z

/-- `K t` -/
def k (t : ℕ) : UInt32 :=
  if t < 20 then 0x5a827999
  else if t < 40 then 0x6ed9eba1
  else if t < 60 then 0x8f1bbcdc
  else 0xca62c1d6

/-! ## The compression function -/

/-- The `t`-th word of a block. -/
def messageWord (block : List UInt8) (t : ℕ) : UInt32 :=
  (BigEndian.decode ((block.drop (4 * t)).take 4)).toUInt32

/-- The message schedule `W t`. -/
def schedule (block : List UInt8) (t : ℕ) : UInt32 :=
  if t < 16 then messageWord block t
  else rotl 1 (schedule block (t - 3) ^^^ schedule block (t - 8) ^^^ schedule block (t - 14) ^^^
    schedule block (t - 16))

/-- Five words: a hash value, or the working variables. -/
structure Words where
  a : UInt32
  b : UInt32
  c : UInt32
  d : UInt32
  e : UInt32

/-- The initial hash value. -/
def initial : Words := ⟨0x67452301, 0xefcdab89, 0x98badcfe, 0x10325476, 0xc3d2e1f0⟩

/-- What the `t`-th step makes of the working variables. -/
def step (block : List UInt8) (s : Words) (t : ℕ) : Words :=
  ⟨rotl 5 s.a + f t s.b s.c s.d + s.e + k t + schedule block t, s.a, rotl 30 s.b, s.c, s.d⟩

/-- The next hash value. -/
def compress (h : Words) (block : List UInt8) : Words :=
  let s := (List.range 80).foldl (step block) h
  ⟨h.a + s.a, h.b + s.b, h.c + s.c, h.d + s.d, h.e + s.e⟩

/-! ## Messages -/

/-- The zero bytes behind the first byte of padding. -/
def zeros (n : ℕ) : ℕ := (119 - n % 64) % 64

/-- They end eight bytes before the end of a block, and there are no more than that takes. -/
theorem zeros_isLeast (n : ℕ) :
    (n + 1 + zeros n) % 64 = 56 ∧ ∀ z, (n + 1 + z) % 64 = 56 → zeros n ≤ z := by
  constructor
  · rw [zeros]; omega
  · intro z hz
    rw [zeros]
    omega

/-- The padded message. -/
def padded (message : List UInt8) : List UInt8 :=
  message ++ 0x80 :: (List.replicate (zeros message.length) 0 ++
    BigEndian.encode 8 (8 * message.length))

def Words.bytes (h : Words) : List UInt8 :=
  [h.a, h.b, h.c, h.d, h.e].flatMap fun word ↦ BigEndian.encode 4 word.toNat

/-- The digest of a message that has one. -/
def digest (message : List UInt8) : Option (List UInt8) :=
  if 8 * message.length < 2 ^ 64 then
    some (Blocks.fold 64 compress ((padded message).length / 64) (padded message) initial).bytes
  else none

end SecureHash
