import Aevox.WebSocket.Frame

/-!
# Canonical frames

A frame that is accepted as unmasked is compared with what `emit_frame` writes for it. The first
byte is always the one `emit_frame` writes: the parser refuses reserved bits, unknown opcodes and
fragments. The length is not: the parser reads the two and the eight byte field whatever number
stands in it, and `emit_frame` uses a field only for numbers that no shorter encoding holds. So a
frame is canonical exactly when its length has the shortest encoding (`emitFrame_parsed_iff`).
-/

namespace Aevox

/-- No shorter encoding holds the length in the field behind the first two bytes. -/
def MinimalLength (input : Bytes) : Prop :=
  let len7 := input.getD 1 0 &&& kPayloadLengthMask
  (len7 = kPayload16Marker →
    kPayload16Marker.toNat ≤
      BigEndian.decode ((input.drop kBaseHeaderBytes).take kExtended16Bytes)) ∧
    (len7 = kPayload64Marker →
      65535 < BigEndian.decode ((input.drop kBaseHeaderBytes).take kExtended64Bytes))

instance (input : Bytes) : Decidable (MinimalLength input) :=
  inferInstanceAs (Decidable (_ ∧ _))

/-! ## The first two bytes -/

theorem toByte_of_ofByte {raw : UInt8} {opcode : Opcode} (h : Opcode.ofByte raw = some opcode) :
    opcode.toByte = raw := by
  simpa using List.find?_some h

theorem of_checkOpcode {byte0 : UInt8} {opcode : Opcode} (h : checkOpcode byte0 = .ok opcode) :
    byte0 &&& kFinBit ≠ 0 ∧ byte0 = kFinBit ||| opcode.toByte := by
  have hbits : ∀ n : Fin 256, n.val.toUInt8 &&& kRsvMask = 0 → n.val.toUInt8 &&& kFinBit ≠ 0 →
      n.val.toUInt8 = kFinBit ||| n.val.toUInt8 &&& kOpcodeMask := by
    decide +kernel
  unfold checkOpcode at h
  split_ifs at h with hrsv
  have hrsv : byte0 &&& kRsvMask = 0 := not_not.mp hrsv
  cases hof : Opcode.ofByte (byte0 &&& kOpcodeMask) with
  | none => simp [hof] at h
  | some known =>
    simp only [hof] at h
    split_ifs at h with hcont hcontrol hdata
    obtain rfl := Except.ok.inj h
    -- every opcode that is left has been refused without the FIN bit
    have hfin : byte0 &&& kFinBit ≠ 0 := by
      intro hzero
      cases known with
      | continuation => exact hcont rfl
      | text => exact hdata ⟨hzero, Or.inl rfl⟩
      | binary => exact hdata ⟨hzero, Or.inr rfl⟩
      | close => exact hcontrol ⟨hzero, Or.inl rfl⟩
      | ping => exact hcontrol ⟨hzero, Or.inr (Or.inl rfl)⟩
      | pong => exact hcontrol ⟨hzero, Or.inr (Or.inr rfl)⟩
    refine ⟨hfin, ?_⟩
    have hbyte := hbits ⟨byte0.toNat, byte0.toNat_lt⟩
    rw [Nat.toUInt8_eq, UInt8.ofNat_toNat] at hbyte
    rw [toByte_of_ofByte hof]
    exact hbyte hrsv hfin

theorem of_checkMask {byte1 : UInt8} {masked : Bool} (h : checkMask byte1 false = .ok masked) :
    masked = false ∧ byte1 &&& kPayloadLengthMask = byte1 ∧ byte1 ≤ kPayload64Marker := by
  have hbits : ∀ n : Fin 256, n.val.toUInt8 &&& kMaskBit = 0 →
      n.val.toUInt8 &&& kPayloadLengthMask = n.val.toUInt8 ∧
        n.val.toUInt8 ≤ kPayload64Marker := by
    decide +kernel
  have hbyte := hbits ⟨byte1.toNat, byte1.toNat_lt⟩
  rw [Nat.toUInt8_eq, UInt8.ofNat_toNat] at hbyte
  unfold checkMask at h
  by_cases hmask : byte1 &&& kMaskBit = 0
  · rw [if_neg (by simp), if_neg (by simp [hmask])] at h
    exact ⟨(Except.ok.inj h).symm.trans (by simp [hmask]), hbyte hmask⟩
  · rw [if_neg (by simp), if_pos ⟨by simp, hmask⟩] at h
    cases h

/-! ## The length -/

theorem lengthByte_eq_marker16_iff (n : ℕ) :
    lengthByte n = kPayload16Marker ↔ kPayload16Marker.toNat ≤ n ∧ n ≤ 65535 := by
  unfold lengthByte
  split_ifs with hsmall hmiddle
  · have hn : ∀ m : Fin 126, m.val.toUInt8 ≠ kPayload16Marker := by decide
    exact ⟨fun h ↦ absurd h (hn ⟨n, hsmall⟩), fun h ↦ absurd h.1 (Nat.not_le.mpr hsmall)⟩
  · exact ⟨fun _ ↦ ⟨Nat.not_lt.mp hsmall, hmiddle⟩, fun _ ↦ rfl⟩
  · exact ⟨fun h ↦ absurd h (by decide), fun h ↦ absurd h.2 hmiddle⟩

theorem lengthByte_eq_marker64_iff (n : ℕ) : lengthByte n = kPayload64Marker ↔ 65535 < n := by
  unfold lengthByte
  split_ifs with hsmall hmiddle
  · have hn : ∀ m : Fin 126, m.val.toUInt8 ≠ kPayload64Marker := by decide
    have hlt : n < 126 := hsmall
    exact ⟨fun h ↦ absurd h (hn ⟨n, hsmall⟩), fun h ↦ by omega⟩
  · exact ⟨fun h ↦ absurd h (by decide), fun h ↦ absurd hmiddle (Nat.not_le.mpr h)⟩
  · exact ⟨fun _ ↦ Nat.not_le.mp hmiddle, fun _ ↦ rfl⟩

theorem encode_decode_take {rest : Bytes} {w : ℕ} (h : w ≤ rest.length) :
    BigEndian.encode w (BigEndian.decode (rest.take w)) = rest.take w := by
  have hback := BigEndian.encode_decode (rest.take w)
  rwa [List.length_take_of_le h] at hback

theorem written16_iff {rest : Bytes} (h : kExtended16Bytes ≤ rest.length) :
    let n := BigEndian.decode (rest.take kExtended16Bytes)
    lengthByte n = kPayload16Marker ∧ lengthBytes n = rest.take kExtended16Bytes ↔
      kPayload16Marker.toNat ≤ n := by
  intro n
  have hlt : n < 65536 := by
    have hfield := BigEndian.decode_lt (rest.take kExtended16Bytes)
    rwa [List.length_take_of_le h] at hfield
  have hmiddle : n ≤ 65535 := Nat.le_of_lt_succ hlt
  rw [lengthByte_eq_marker16_iff]
  constructor
  · exact fun hn ↦ hn.1.1
  · intro hn
    refine ⟨⟨hn, hmiddle⟩, ?_⟩
    rw [lengthBytes, if_neg (Nat.not_lt.mpr hn), if_pos hmiddle]
    exact encode_decode_take h

theorem written64_iff {rest : Bytes} (h : kExtended64Bytes ≤ rest.length) :
    let n := BigEndian.decode (rest.take kExtended64Bytes)
    lengthByte n = kPayload64Marker ∧ lengthBytes n = rest.take kExtended64Bytes ↔
      65535 < n := by
  intro n
  rw [lengthByte_eq_marker64_iff]
  constructor
  · exact fun hn ↦ hn.1
  · intro hn
    have hlarge : ¬n < kPayload16Marker.toNat := fun hsmall ↦ by
      have hlt : n < 126 := hsmall
      omega
    refine ⟨hn, ?_⟩
    rw [lengthBytes, if_neg hlarge, if_neg (Nat.not_le.mpr hn)]
    exact encode_decode_take h

theorem minimalLength_iff {byte0 byte1 : UInt8} {rest : Bytes}
    (hbits : byte1 &&& kPayloadLengthMask = byte1) :
    MinimalLength (byte0 :: byte1 :: rest) ↔
      (byte1 = kPayload16Marker →
        kPayload16Marker.toNat ≤ BigEndian.decode (rest.take kExtended16Bytes)) ∧
      (byte1 = kPayload64Marker → 65535 < BigEndian.decode (rest.take kExtended64Bytes)) := by
  rw [MinimalLength, List.getD_cons_succ, List.getD_cons_zero, hbits]
  rfl

/-- **What is written for a length is what has been read** exactly if it was the shortest. -/
theorem length_written_iff {byte0 byte1 : UInt8} {rest : Bytes} {n : ℕ}
    (hbits : byte1 &&& kPayloadLengthMask = byte1) (hmax : byte1 ≤ kPayload64Marker)
    (h : payloadLength (byte0 :: byte1 :: rest) byte1 = .ok n) :
    lengthByte n = byte1 ∧ lengthBytes n = rest.take (extLenBytes byte1) ↔
      MinimalLength (byte0 :: byte1 :: rest) := by
  rw [minimalLength_iff hbits]
  unfold payloadLength at h
  by_cases h7 : byte1 < kPayload16Marker
  · -- seven bits hold nothing but what they are written for
    rw [if_pos h7] at h
    have hsmall : byte1.toNat < kPayload16Marker.toNat := h7
    have h16 : byte1 ≠ kPayload16Marker := fun he ↦ absurd (he ▸ h7) (by decide)
    have h64 : byte1 ≠ kPayload64Marker := fun he ↦ absurd (he ▸ h7) (by decide)
    rw [← Except.ok.inj h, lengthByte, lengthBytes, extLenBytes, if_pos hsmall, if_pos hsmall,
      if_neg h16, if_neg h64, Nat.toUInt8_eq, UInt8.ofNat_toNat]
    exact ⟨fun _ ↦ ⟨fun he ↦ absurd he h16, fun he ↦ absurd he h64⟩, fun _ ↦ ⟨rfl, rfl⟩⟩
  by_cases h16 : byte1 = kPayload16Marker
  · rw [if_neg h7, if_pos h16] at h
    subst h16
    split_ifs at h with hshort
    have hlen : kExtended16Bytes ≤ rest.length :=
      Nat.le_of_add_le_add_right (b := 2) (Nat.not_lt.mp hshort)
    rw [← Except.ok.inj h]
    refine (written16_iff hlen).trans ⟨fun hn ↦ ⟨fun _ ↦ hn, fun he ↦ absurd he (by decide)⟩,
      fun hn ↦ hn.1 rfl⟩
  · have h64 : byte1 = kPayload64Marker := by
      have hlast : ∀ m : Fin 256, ¬m.val.toUInt8 < kPayload16Marker →
          m.val.toUInt8 ≠ kPayload16Marker → m.val.toUInt8 ≤ kPayload64Marker →
          m.val.toUInt8 = kPayload64Marker := by
        decide +kernel
      have hbyte := hlast ⟨byte1.toNat, byte1.toNat_lt⟩
      rw [Nat.toUInt8_eq, UInt8.ofNat_toNat] at hbyte
      exact hbyte h7 h16 hmax
    rw [if_neg h7, if_neg h16] at h
    subst h64
    split_ifs at h with hshort hmsb
    have hlen : kExtended64Bytes ≤ rest.length :=
      Nat.le_of_add_le_add_right (b := 2) (Nat.not_lt.mp hshort)
    rw [← Except.ok.inj h]
    refine (written64_iff hlen).trans ⟨fun hn ↦ ⟨fun he ↦ absurd he (by decide), fun _ ↦ hn⟩,
      fun hn ↦ hn.2 rfl⟩

/-! ## Frames -/

theorem of_parsePayload_unmasked {input : Bytes} {max : ℕ} {opcode : Opcode} {fin : Bool}
    {offset n : ℕ} {result : ParseResult}
    (h : parsePayload input max opcode fin false offset n = .ok result) :
    offset + n ≤ input.length ∧
      result = ⟨⟨opcode, fin, (input.drop offset).take n⟩, offset + n⟩ := by
  unfold parsePayload at h
  simp only [Bool.false_eq_true, if_false, Nat.add_zero] at h
  split_ifs at h with hmax hlen
  exact ⟨Nat.not_lt.mp hlen, (Except.ok.inj h).symm⟩

/-- **An accepted frame is canonical exactly when its length is minimal.** -/
theorem emitFrame_parsed_iff {input : Bytes} {max : ℕ} {result : ParseResult}
    (h : parseFrameDetailed input max false = .ok result) :
    emitFrame result.frame.opcode result.frame.fin result.frame.payload =
        input.take result.bytesConsumed ↔ MinimalLength input := by
  rcases input with _ | ⟨byte0, _ | ⟨byte1, rest⟩⟩
  · cases h
  · cases h
  cases hop : checkOpcode byte0 with
  | error e =>
    rw [parseFrameDetailed, hop] at h
    cases h
  | ok opcode =>
    cases hmask : checkMask byte1 false with
    | error e =>
      rw [parseFrameDetailed, hop, hmask] at h
      cases h
    | ok masked =>
      rw [parseFrameDetailed_of_ok hop hmask] at h
      obtain ⟨hfin, hfirst⟩ := of_checkOpcode hop
      obtain ⟨rfl, hbits, hmax⟩ := of_checkMask hmask
      rw [hbits] at h
      cases hp : payloadLength (byte0 :: byte1 :: rest) byte1 with
      | error e =>
        rw [hp] at h
        cases h
      | ok n =>
        rw [hp] at h
        obtain ⟨hlen, rfl⟩ := of_parsePayload_unmasked h
        have hdrop : (byte0 :: byte1 :: rest).drop (kBaseHeaderBytes + extLenBytes byte1) =
            rest.drop (extLenBytes byte1) := by
          rw [Nat.add_comm]
          rfl
        have htake : (byte0 :: byte1 :: rest).take (kBaseHeaderBytes + extLenBytes byte1 + n) =
            byte0 :: byte1 :: (rest.take (extLenBytes byte1) ++
              (rest.drop (extLenBytes byte1)).take n) := by
          rw [← List.take_add, Nat.add_assoc, Nat.add_comm]
          rfl
        have hpayload : ((rest.drop (extLenBytes byte1)).take n).length = n := by
          apply List.length_take_of_le
          rw [← hdrop, List.length_drop]
          omega
        -- the payload is the same on both sides, so the two lengths are compared
        rw [← length_written_iff hbits hmax hp, emitFrame_eq, hdrop, htake, hpayload,
          if_pos (decide_eq_true hfin), ← hfirst, List.cons.injEq, List.cons.injEq,
          List.append_cancel_right_eq]
        exact and_iff_right rfl

/-- A length of one byte in the seven bits. -/
theorem emitFrame_parsed_short :
    parseFrameDetailed [0x81, 0x01, 0x61, 0x89] 16 false = .ok ⟨⟨.text, true, [0x61]⟩, 3⟩ ∧
      (emitFrame .text true [0x61] = [0x81, 0x01, 0x61, 0x89].take 3 ↔
        MinimalLength [0x81, 0x01, 0x61, 0x89]) := by
  have h : parseFrameDetailed [0x81, 0x01, 0x61, 0x89] 16 false =
    .ok ⟨⟨.text, true, [0x61]⟩, 3⟩ := by rfl
  exact ⟨h, emitFrame_parsed_iff h⟩

/-- The same length in two bytes is accepted. -/
theorem not_canonical : ¬∀ (input : Bytes) (max : ℕ) (result : ParseResult),
    parseFrameDetailed input max false = .ok result →
    emitFrame result.frame.opcode result.frame.fin result.frame.payload =
      input.take result.bytesConsumed := by
  intro h
  have hback := h [0x81, 0x7E, 0x00, 0x01, 0x61] 16 ⟨⟨.text, true, [0x61]⟩, 5⟩ rfl
  revert hback
  decide

end Aevox
