import Aevox.Bytes
import Aevox.Library.Buffer
import Aevox.Library.SecureHash

/-!
# `sha1_compute`

The full blocks of the input are processed where they are. What is left of it is copied into a
buffer of two blocks and padded there: the length is written at the end of the first block if it
fits behind the padding, and at the end of the second one if not. So the buffer holds the rest of
the padded message (`take_padBuf`), and the digest is the one of FIPS 180-4.
-/

namespace Aevox.Sha1

/-! ## The source -/

abbrev kBlockBytes : ℕ := 64
abbrev kInitialWordCount : ℕ := 16
abbrev kScheduleWordCount : ℕ := 80
abbrev kPaddingBufferBytes : ℕ := kBlockBytes * 2
abbrev kLengthOffsetInFinalBlock : ℕ := 56
abbrev kLengthBytes : ℕ := 8
abbrev kWordBytes : ℕ := 4
abbrev kScheduleOffset3 : ℕ := 3
abbrev kScheduleOffset8 : ℕ := 8
abbrev kScheduleOffset14 : ℕ := 14
abbrev kScheduleOffset16 : ℕ := 16
abbrev kRound0End : ℕ := 20
abbrev kRound1End : ℕ := 40
abbrev kRound2End : ℕ := 60
abbrev kPaddingStartByte : UInt8 := 0x80
abbrev kBitsPerByte : ℕ := 8
abbrev kWordBits : UInt32 := 32
abbrev kDigestRotateBits : UInt32 := 1
abbrev kMainRotateBits : UInt32 := 5
abbrev kStateRotateBits : UInt32 := 30
abbrev kByte0Shift : UInt32 := 24
abbrev kByte1Shift : UInt32 := 16
abbrev kByte2Shift : UInt32 := 8
abbrev kRoundConstant0 : UInt32 := 0x5A827999
abbrev kRoundConstant1 : UInt32 := 0x6ED9EBA1
abbrev kRoundConstant2 : UInt32 := 0x8F1BBCDC
abbrev kRoundConstant3 : UInt32 := 0xCA62C1D6

/-- The hash values. -/
structure Hash where
  h0 : UInt32
  h1 : UInt32
  h2 : UInt32
  h3 : UInt32
  h4 : UInt32

/-- `kInitialH0` to `kInitialH4` -/
def kInitial : Hash := ⟨0x67452301, 0xEFCDAB89, 0x98BADCFE, 0x10325476, 0xC3D2E1F0⟩

/-- The working variables. -/
structure Working where
  a : UInt32
  b : UInt32
  c : UInt32
  d : UInt32
  e : UInt32

def rotl32 (v n : UInt32) : UInt32 := v <<< n ||| v >>> (kWordBits - n)

/-- A word of the block, read byte by byte. -/
def readWord (block : Bytes) (i : ℕ) : UInt32 :=
  let offset := i * kWordBytes
  (block.getD offset 0).toUInt32 <<< kByte0Shift |||
    (block.getD (offset + 1) 0).toUInt32 <<< kByte1Shift |||
    (block.getD (offset + 2) 0).toUInt32 <<< kByte2Shift |||
    (block.getD (offset + 3) 0).toUInt32

/-- A word that is computed from the words before it. -/
def expand (ws : List UInt32) (i : ℕ) : UInt32 :=
  rotl32 (ws.getD (i - kScheduleOffset3) 0 ^^^ ws.getD (i - kScheduleOffset8) 0 ^^^
    ws.getD (i - kScheduleOffset14) 0 ^^^ ws.getD (i - kScheduleOffset16) 0) kDigestRotateBits

/-- The array `w`, after both loops. -/
def words (block : Bytes) : List UInt32 :=
  let ws := List.replicate kScheduleWordCount 0
  let ws := Buffer.assign 0 (fun _ i ↦ readWord block i) (List.range kInitialWordCount) ws
  Buffer.assign 0 expand
    (List.range' kInitialWordCount (kScheduleWordCount - kInitialWordCount)) ws

/-- One of the 80 rounds. -/
def round (ws : List UInt32) (s : Working) (i : ℕ) : Working :=
  let (f, k) :=
    if i < kRound0End then (s.b &&& s.c ||| ~~~s.b &&& s.d, kRoundConstant0)
    else if i < kRound1End then (s.b ^^^ s.c ^^^ s.d, kRoundConstant1)
    else if i < kRound2End then
      (s.b &&& s.c ||| s.b &&& s.d ||| s.c &&& s.d, kRoundConstant2)
    else (s.b ^^^ s.c ^^^ s.d, kRoundConstant3)
  let temp := rotl32 s.a kMainRotateBits + f + s.e + k + ws.getD i 0
  { a := temp, b := s.a, c := rotl32 s.b kStateRotateBits, d := s.c, e := s.d }

def processBlock (h : Hash) (block : Bytes) : Hash :=
  let ws := words block
  let s : Working := (List.range kScheduleWordCount).foldl (round ws)
    ⟨h.h0, h.h1, h.h2, h.h3, h.h4⟩
  ⟨h.h0 + s.a, h.h1 + s.b, h.h2 + s.c, h.h3 + s.d, h.h4 + s.e⟩

def fullBlocks (data : Bytes) : ℕ := data.length / kBlockBytes

def tailSize (data : Bytes) : ℕ := data.length % kBlockBytes

def bitLength (data : Bytes) : UInt64 := data.length.toUInt64 * kBitsPerByte.toUInt64

def padBlocks (data : Bytes) : ℕ := if tailSize data < kLengthOffsetInFinalBlock then 1 else 2

def lenOffset (data : Bytes) : ℕ :=
  (padBlocks data - 1) * kBlockBytes + kLengthOffsetInFinalBlock

/-- A byte of the length. -/
def lengthByte (data : Bytes) (i : ℕ) : UInt8 :=
  (bitLength data >>> ((kLengthBytes - 1 - i) * kBitsPerByte).toUInt64).toUInt8

/-- `pad_buf`, filled. -/
def padBuf (data : Bytes) : Bytes :=
  let pb := List.replicate kPaddingBufferBytes 0
  let pb := Buffer.assign 0 (fun _ i ↦ data.getD (fullBlocks data * kBlockBytes + i) 0)
    (List.range (tailSize data)) pb
  let pb := pb.set (tailSize data) kPaddingStartByte
  Buffer.assign (lenOffset data) (fun _ i ↦ lengthByte data i) (List.range kLengthBytes) pb

def writeWord (dg : Bytes) (offset : ℕ) (word : UInt32) : Bytes :=
  (((dg.set offset (word >>> kByte0Shift).toUInt8).set
    (offset + 1) (word >>> kByte1Shift).toUInt8).set
    (offset + 2) (word >>> kByte2Shift).toUInt8).set
    (offset + 3) word.toUInt8

/-- The array `digest`, after the hash values have been written to it. -/
def writeDigest (h : Hash) : Bytes :=
  let dg := List.replicate 20 0
  let dg := writeWord dg 0 h.h0
  let dg := writeWord dg kWordBytes h.h1
  let dg := writeWord dg (kWordBytes * 2) h.h2
  let dg := writeWord dg (kWordBytes * 3) h.h3
  writeWord dg (kWordBytes * 4) h.h4

def sha1Compute (data : Bytes) : Bytes :=
  let h := Blocks.fold kBlockBytes processBlock (fullBlocks data) data kInitial
  let h := Blocks.fold kBlockBytes processBlock (padBlocks data) (padBuf data) h
  writeDigest h

/-! ## The compression function -/

theorem rotl32_eq {n : UInt32} (hpos : 0 < n.toNat) (hlt : n.toNat < 32) (v : UInt32) :
    rotl32 v n = SecureHash.rotl n.toNat v := by
  have hmod : n.toBitVec.toNat % 32 = n.toNat := Nat.mod_eq_of_lt hlt
  have hback : (kWordBits - n).toBitVec.toNat % 32 = 32 - n.toNat := by
    have hsub := UInt32.toNat_sub_of_le kWordBits n (UInt32.le_iff_toNat_le.mpr hlt.le)
    rw [UInt32.toNat_toBitVec, hsub]
    exact Nat.mod_eq_of_lt (Nat.sub_lt (by decide) hpos)
  rw [SecureHash.rotl, ← UInt32.toBitVec_inj, BitVec.rotateLeft_def, Nat.mod_eq_of_lt hlt, rotl32,
    UInt32.toBitVec_or, UInt32.toBitVec_shiftLeft, UInt32.toBitVec_shiftRight,
    BitVec.shiftLeft_eq', BitVec.ushiftRight_eq', BitVec.toNat_umod, BitVec.toNat_umod]
  exact congrArg₂ (fun i j ↦ v.toBitVec <<< i ||| v.toBitVec >>> j) hmod hback

theorem or_eq_ch (x y z : UInt32) : x &&& y ||| ~~~x &&& z = SecureHash.ch x y z := by
  rw [SecureHash.ch, ← UInt32.toBitVec_inj]
  ext i hi
  simp only [UInt32.toBitVec_or, UInt32.toBitVec_xor, UInt32.toBitVec_and, UInt32.toBitVec_not,
    BitVec.getElem_or, BitVec.getElem_xor, BitVec.getElem_and, BitVec.getElem_not]
  generalize x.toBitVec[i] = x, y.toBitVec[i] = y, z.toBitVec[i] = z
  revert x y z
  decide

theorem or_eq_maj (x y z : UInt32) :
    x &&& y ||| x &&& z ||| y &&& z = SecureHash.maj x y z := by
  rw [SecureHash.maj, ← UInt32.toBitVec_inj]
  ext i hi
  simp only [UInt32.toBitVec_or, UInt32.toBitVec_xor, UInt32.toBitVec_and, BitVec.getElem_or,
    BitVec.getElem_xor, BitVec.getElem_and]
  generalize x.toBitVec[i] = x, y.toBitVec[i] = y, z.toBitVec[i] = z
  revert x y z
  decide

variable {block : Bytes}

theorem readWord_eq (hblock : block.length = 64) {i : ℕ} (hi : i < 16) :
    readWord block i = SecureHash.schedule block i := by
  have hread : ((List.range 4).map fun j ↦ block.getD (i * 4 + j) 0) =
      (block.drop (i * 4)).take 4 := Buffer.map_getD_range (by omega) 0
  rw [SecureHash.schedule, if_pos hi, SecureHash.messageWord, Nat.mul_comm 4 i, ← hread,
    BigEndian.decode]
  -- both are the four bytes, shifted, and joined bit by bit
  simp only [List.range_succ, List.range_zero, List.nil_append, List.cons_append, List.map_cons,
    List.map_nil, List.foldl_cons, List.foldl_nil, Nat.toUInt32_eq, UInt32.ofNat_or,
    UInt32.ofNat_shiftLeft _ 8 (by decide), Nat.zero_shiftLeft, Nat.zero_or,
    UInt32.ofNat_uInt8ToNat, UInt32.shiftLeft_or]
  rw [← UInt32.shiftLeft_add (by decide) (by decide) (by decide),
    ← UInt32.shiftLeft_add (by decide) (by decide) (by decide),
    ← UInt32.shiftLeft_add (by decide) (by decide) (by decide)]
  rfl

theorem getD_map_range {g : ℕ → UInt32} {n j : ℕ} (h : j < n) (rest : List UInt32) :
    ((List.range n).map g ++ rest).getD j 0 = g j := by
  rw [List.getD_append _ _ _ _ (by simpa using h), List.getD_eq_getElem _ _ (by simpa using h),
    List.getElem_map, List.getElem_range]

/-- A word is computed from words the array holds already. -/
theorem expand_eq (k : ℕ) (rest : List UInt32) :
    expand ((List.range (16 + k)).map (SecureHash.schedule block) ++ rest) (16 + k) =
      SecureHash.schedule block (16 + k) := by
  simp only [expand, kScheduleOffset3, kScheduleOffset8, kScheduleOffset14, kScheduleOffset16]
  rw [SecureHash.schedule, if_neg (by omega), rotl32_eq (by decide) (by decide),
    getD_map_range (by omega), getD_map_range (by omega), getD_map_range (by omega),
    getD_map_range (by omega)]
  rfl

/-- **The array is the message schedule.** -/
theorem words_eq (hblock : block.length = 64) :
    words block = (List.range 80).map (SecureHash.schedule block) := by
  have hread : (List.range 16).map (readWord block) =
      (List.range 16).map (SecureHash.schedule block) :=
    List.map_congr_left fun i hi ↦ readWord_eq hblock (List.mem_range.mp hi)
  have hfirst : Buffer.assign 0 (fun _ i ↦ readWord block i) (List.range 16)
      (List.replicate 80 0) =
        (List.range 16).map (SecureHash.schedule block) ++ List.replicate 64 0 := by
    rw [Buffer.assign_range (by decide), hread, List.take_zero, List.nil_append,
      List.drop_replicate]
  have hfront (k : ℕ) :
      ((List.range 16).map (SecureHash.schedule block) ++ List.replicate 64 0).take (0 + 16) ++
        (List.range' 16 k).map (SecureHash.schedule block) =
          (List.range (16 + k)).map (SecureHash.schedule block) := by
    rw [List.take_left' (by simp), ← List.map_append, List.range_eq_range', List.range_eq_range']
    exact congrArg _ List.range'_append_1
  calc words block
    _ = Buffer.assign 0 expand (List.range' 16 64)
        ((List.range 16).map (SecureHash.schedule block) ++ List.replicate 64 0) :=
      congrArg (Buffer.assign 0 expand (List.range' 16 64)) hfirst
    _ = (List.range 80).map (SecureHash.schedule block) := by
      rw [Buffer.assign_range' (g := SecureHash.schedule block) (by simp)
        fun k _ rest ↦ by rw [hfront, expand_eq], hfront, List.drop_eq_nil_of_le (by simp),
        List.append_nil]

/-- The hash values, in the standard's terms. -/
def Hash.toWords (h : Hash) : SecureHash.Words := ⟨h.h0, h.h1, h.h2, h.h3, h.h4⟩

def Working.toWords (s : Working) : SecureHash.Words := ⟨s.a, s.b, s.c, s.d, s.e⟩

theorem toWords_round {ws : List UInt32} {i : ℕ} (hw : ws.getD i 0 = SecureHash.schedule block i)
    (s : Working) : (round ws s i).toWords = SecureHash.step block s.toWords i := by
  have hrot5 : rotl32 s.a kMainRotateBits = SecureHash.rotl 5 s.a :=
    rotl32_eq (by decide) (by decide) _
  have hrot30 : rotl32 s.b kStateRotateBits = SecureHash.rotl 30 s.b :=
    rotl32_eq (by decide) (by decide) _
  simp only [round, hw, hrot5, hrot30, or_eq_ch, or_eq_maj, Working.toWords, SecureHash.step,
    SecureHash.f, SecureHash.k, SecureHash.parity]
  split_ifs <;> rfl

/-- **On a block, `process_block` is the compression function.** -/
theorem toWords_processBlock (hblock : block.length = 64) (h : Hash) :
    (processBlock h block).toWords = SecureHash.compress h.toWords block := by
  have hget : ∀ i ∈ List.range 80, (words block).getD i 0 = SecureHash.schedule block i :=
    fun i hi ↦ by
      rw [words_eq hblock, ← List.append_nil (List.map _ _), getD_map_range (List.mem_range.mp hi)]
  have hrounds := Blocks.foldl_hom_of_mem Working.toWords
    (fun i hi s ↦ toWords_round (hget i hi) s) ⟨h.h0, h.h1, h.h2, h.h3, h.h4⟩
  have hstart : Working.toWords ⟨h.h0, h.h1, h.h2, h.h3, h.h4⟩ = h.toWords := rfl
  rw [SecureHash.compress, ← hstart, ← hrounds]
  rfl

theorem toWords_fold {k : ℕ} {text : Bytes} (hlen : k * 64 ≤ text.length) (h : Hash) :
    (Blocks.fold 64 processBlock k text h).toWords =
      Blocks.fold 64 SecureHash.compress k text h.toWords :=
  Blocks.fold_hom Hash.toWords (fun _ hi _ ↦ toWords_processBlock
    (Blocks.length_block (le_trans (Nat.mul_le_mul_right 64 hi) hlen)) _) h

/-! ## The padding -/

variable {data : Bytes}

theorem lengthByte_eq (h : data.length < 2 ^ 61) {i : ℕ} (hi : i < 8) :
    lengthByte data i = ((8 * data.length) >>> (8 * (7 - i))).toUInt8 := by
  have hbits : (bitLength data).toNat = 8 * data.length := by
    have hmul : (bitLength data).toNat = data.length % 2 ^ 64 * 8 % 2 ^ 64 := rfl
    omega
  have hshift : ((kLengthBytes - 1 - i) * kBitsPerByte).toUInt64.toNat % 64 = 8 * (7 - i) := by
    rw [Nat.toUInt64_eq, UInt64.toNat_ofNat']
    simp only [kBitsPerByte, kLengthBytes]
    omega
  rw [lengthByte, ← UInt8.toNat_inj, UInt64.toNat_toUInt8, UInt64.toNat_shiftRight, hbits, hshift]
  rfl

theorem lengthBytes_eq (h : data.length < 2 ^ 61) :
    (List.range kLengthBytes).map (lengthByte data) = BigEndian.encode 8 (8 * data.length) := by
  have hbytes : (List.range 8).map (lengthByte data) =
      (List.range 8).map fun i ↦ ((8 * data.length) >>> (8 * (7 - i))).toUInt8 :=
    List.map_congr_left fun i hi ↦ lengthByte_eq h (List.mem_range.mp hi)
  exact hbytes

theorem lenOffset_add (data : Bytes) : lenOffset data + 8 = padBlocks data * 64 := by
  rw [lenOffset, padBlocks]
  split <;> rfl

theorem zeros_eq (data : Bytes) :
    tailSize data + 1 + SecureHash.zeros data.length = lenOffset data := by
  have hoffset := lenOffset_add data
  have hsize : tailSize data = data.length % 64 := rfl
  obtain ⟨hend, hleast⟩ := SecureHash.zeros_isLeast data.length
  -- the room up to the length ends there as well, and is less than a block
  have hroom := hleast (lenOffset data - (tailSize data + 1))
  by_cases htail : tailSize data < 56
  · have hblocks : padBlocks data = 1 := if_pos htail
    omega
  · have hblocks : padBlocks data = 2 := if_neg htail
    omega

/-- What is left of the input behind the full blocks. -/
def tail (data : Bytes) : Bytes := data.drop (fullBlocks data * 64)

theorem length_tail (data : Bytes) : (tail data).length = tailSize data := by
  have hsum : fullBlocks data * 64 + tailSize data = data.length := Nat.div_add_mod' _ 64
  rw [tail, List.length_drop]
  omega

/-- The buffer before the length is written. -/
theorem padBuf_tail (data : Bytes) :
    (Buffer.assign 0 (fun _ i ↦ data.getD (fullBlocks data * kBlockBytes + i) 0)
      (List.range (tailSize data)) (List.replicate kPaddingBufferBytes 0)).set (tailSize data)
        kPaddingStartByte =
      tail data ++ 0x80 :: List.replicate (SecureHash.zeros data.length) 0 ++
        List.replicate (128 - lenOffset data) 0 := by
  have hsize : tailSize data < 64 := Nat.mod_lt _ (by decide)
  have hlen := length_tail data
  have hread : (List.range (tailSize data)).map
      (fun i ↦ data.getD (fullBlocks data * kBlockBytes + i) 0) = tail data := by
    have hsum : fullBlocks data * 64 + tailSize data = data.length := Nat.div_add_mod' _ 64
    rw [Buffer.map_getD_range (le_of_eq hsum), ← hlen]
    exact List.take_length
  have hzeros := zeros_eq data
  have hoffset : lenOffset data ≤ 120 := by
    rw [lenOffset, padBlocks]
    split <;> decide
  have hroom : kPaddingBufferBytes - (0 + tailSize data) =
      1 + SecureHash.zeros data.length + (128 - lenOffset data) := by
    simp only [kPaddingBufferBytes, kBlockBytes]
    omega
  rw [Buffer.assign_range (by
      rw [List.length_replicate, Nat.zero_add]; exact le_trans hsize.le (by decide)),
    hread, List.take_zero, List.nil_append, List.drop_replicate, hroom, List.replicate_add,
    Nat.add_comm 1, List.replicate_succ, List.cons_append, ← hlen, Buffer.set_length_append,
    List.append_assoc, List.append_assoc]
  rfl

/-- The padded message behind the full blocks. -/
def paddedTail (data : Bytes) : Bytes :=
  tail data ++ 0x80 :: (List.replicate (SecureHash.zeros data.length) 0 ++
    BigEndian.encode 8 (8 * data.length))

theorem padded_eq (data : Bytes) :
    SecureHash.padded data = data.take (fullBlocks data * 64) ++ paddedTail data := by
  rw [paddedTail, ← List.append_assoc, tail, List.take_append_drop, SecureHash.padded]

theorem length_paddedTail (data : Bytes) : (paddedTail data).length = padBlocks data * 64 := by
  rw [paddedTail, List.length_append, List.length_cons, List.length_append, List.length_replicate,
    BigEndian.length_encode, length_tail, ← lenOffset_add, ← zeros_eq]
  omega

/-- **The buffer holds the rest of the padded message**, and zeros behind it. -/
theorem padBuf_eq (h : data.length < 2 ^ 61) :
    padBuf data = paddedTail data ++ List.replicate (128 - padBlocks data * 64) 0 := by
  have hlen : (tail data ++ 0x80 :: List.replicate (SecureHash.zeros data.length) 0).length =
      lenOffset data := by
    rw [List.length_append, List.length_cons, List.length_replicate, length_tail, ← zeros_eq]
    omega
  have hoffset := lenOffset_add data
  have hroom : lenOffset data + 8 ≤ 128 := by
    rw [hoffset, padBlocks]
    split <;> decide
  rw [padBuf, padBuf_tail, Buffer.assign_range (by
      rw [List.length_append, hlen, List.length_replicate, kLengthBytes]; omega),
    List.take_left' hlen, lengthBytes_eq h, ← hlen, ← List.drop_drop, List.drop_left, hlen,
    List.drop_replicate, Nat.sub_sub, ← hoffset, List.append_assoc (tail data)]
  rfl

/-! ## The digest -/

theorem word_bytes (word : UInt32) :
    [(word >>> kByte0Shift).toUInt8, (word >>> kByte1Shift).toUInt8,
      (word >>> kByte2Shift).toUInt8, word.toUInt8] = BigEndian.encode 4 word.toNat := by
  have hbyte {n : UInt32} {k : ℕ} (hn : n.toNat % 32 = k) :
      (word >>> n).toUInt8 = (word.toNat >>> k).toUInt8 := by
    rw [← UInt8.toNat_inj, UInt32.toNat_toUInt8, UInt32.toNat_shiftRight, hn]
    rfl
  rw [hbyte (k := 24) rfl, hbyte (k := 16) rfl, hbyte (k := 8) rfl]
  rfl

theorem writeDigest_eq (h : Hash) : writeDigest h = h.toWords.bytes := by
  have hbytes : h.toWords.bytes = [h.h0, h.h1, h.h2, h.h3, h.h4].flatMap fun word ↦
      [(word >>> kByte0Shift).toUInt8, (word >>> kByte1Shift).toUInt8,
        (word >>> kByte2Shift).toUInt8, word.toUInt8] := by
    simp only [word_bytes]
    rfl
  rw [hbytes]
  simp only [writeDigest, writeWord, kWordBytes, List.replicate_succ, List.replicate_zero,
    List.set_cons_succ, List.set_cons_zero, List.flatMap_cons, List.flatMap_nil, List.cons_append,
    List.nil_append]

theorem length_sha1Compute (data : Bytes) : (sha1Compute data).length = 20 := by
  rw [sha1Compute, writeDigest_eq]
  rfl

/-- **The two folds are one**, over the padded message. -/
theorem sha1Compute_eq (h : data.length < 2 ^ 61) :
    sha1Compute data = (Blocks.fold 64 SecureHash.compress ((SecureHash.padded data).length / 64)
      (SecureHash.padded data) SecureHash.initial).bytes := by
  have hfull : fullBlocks data * 64 ≤ data.length := Nat.div_mul_le_self _ 64
  have hfront : (data.take (fullBlocks data * 64)).length = fullBlocks data * 64 :=
    List.length_take_of_le hfull
  have hlen := length_paddedTail data
  have hcount : (SecureHash.padded data).length / 64 = fullBlocks data + padBlocks data := by
    rw [padded_eq, List.length_append, hfront, hlen]
    omega
  have hpad (start : Hash) : Blocks.fold 64 processBlock (padBlocks data) (padBuf data) start =
      Blocks.fold 64 processBlock (padBlocks data) (paddedTail data) start := by
    rw [padBuf_eq h, Blocks.fold_append_left (le_of_eq hlen.symm)]
  rw [hcount, padded_eq, Blocks.fold_append hfront, sha1Compute, writeDigest_eq, kBlockBytes, hpad,
    ← Blocks.fold_take hfull, toWords_fold (le_of_eq hlen.symm),
    toWords_fold (le_of_eq hfront.symm)]
  rfl

/-- **The digest is the one of the standard**, whatever the length. -/
theorem digest_sha1Compute (h : data.length < 2 ^ 61) :
    SecureHash.digest data = some (sha1Compute data) := by
  rw [SecureHash.digest, if_pos (by omega), sha1Compute_eq h]

theorem digest_sha1Compute_abc :
    SecureHash.digest (ascii "abc") = some (sha1Compute (ascii "abc")) :=
  digest_sha1Compute (by decide)

/-- The example of the standard. -/
example : sha1Compute (ascii "abc") =
    [0xa9, 0x99, 0x3e, 0x36, 0x47, 0x06, 0x81, 0x6a, 0xba, 0x3e, 0x25, 0x71, 0x78, 0x50, 0xc2, 0x6c,
      0x9c, 0xd0, 0xd8, 0x9d] := by
  decide +kernel

end Aevox.Sha1
