import Aevox.App.ServedFiles

/-!
# Decoding a path

`percentDecodePath` follows the input as a list. The source walks over it with an index and looks up
to two characters ahead, so its loop is written down once more with every read checked
(`percentDecodeLoop`): it never leaves the input, and it computes the same
(`percentDecodeLoop_eq`).

What is accepted is then described by positions, without the loop (`Decodable`): where the percent
signs are, what follows them, and which characters stand for themselves.
-/

namespace Aevox

namespace StaticFiles

/-! ## The loop of the source -/

/-- A read behind the end of the input. -/
structure OutOfRange where
  pos : ℕ
  deriving DecidableEq

/-- `input[pos]` -/
def readAt (input : Bytes) (pos : ℕ) : Except OutOfRange UInt8 :=
  match input[pos]? with
  | some ch => .ok ch
  | none => .error ⟨pos⟩

/-- The loop of `percent_decode_path`, from the position `pos` on with `output` made so far. -/
def percentDecodeLoop (input : Bytes) (pos : ℕ) (output : Bytes) :
    Except OutOfRange (Option Bytes) :=
  if pos < input.length then do
    let ch ← readAt input pos
    if ch ≠ 37 then
      if isRejected ch then .ok none
      else percentDecodeLoop input (pos + 1) (output ++ [ch])
    else if pos + 2 ≥ input.length then .ok none
    else
      let h ← readAt input (pos + 1)
      if !isHexDigit h then .ok none
      else
        let l ← readAt input (pos + 2)
        if !isHexDigit l then .ok none
        else if isRejected (hexValue h <<< 4 ||| hexValue l) then .ok none
        else percentDecodeLoop input (pos + 3) (output ++ [hexValue h <<< 4 ||| hexValue l])
  else .ok (some output)
termination_by input.length - pos

theorem readAt_bind {α : Type} {input rest : Bytes} {pos : ℕ} {ch : UInt8}
    (h : input.drop pos = ch :: rest) (f : UInt8 → Except OutOfRange α) :
    readAt input pos >>= f = f ch := by
  have hget : input[pos]? = some ch := by
    rw [← List.head?_drop, h]
    rfl
  rw [readAt, hget]
  rfl

theorem drop_succ_of_drop {input rest : Bytes} {pos : ℕ} {ch : UInt8}
    (h : input.drop pos = ch :: rest) : input.drop (pos + 1) = rest := by
  rw [← List.drop_drop, h]
  rfl

theorem length_of_drop {input rest : Bytes} {pos : ℕ} {ch : UInt8}
    (h : input.drop pos = ch :: rest) : input.length = pos + (rest.length + 1) := by
  have hlen := congrArg List.length h
  rw [List.length_drop, List.length_cons] at hlen
  omega

section Step

variable {input rest output : Bytes} {pos : ℕ}

theorem percentDecodeLoop_nil (h : input.drop pos = []) :
    percentDecodeLoop input pos output = .ok (some output) := by
  rw [percentDecodeLoop, if_neg (Nat.not_lt.mpr (List.drop_eq_nil_iff.mp h))]

theorem percentDecodeLoop_literal {ch : UInt8} (hch : ch ≠ 37) (h : input.drop pos = ch :: rest) :
    percentDecodeLoop input pos output =
      if isRejected ch then .ok none
      else percentDecodeLoop input (pos + 1) (output ++ [ch]) := by
  have hlen := length_of_drop h
  rw [percentDecodeLoop, if_pos (by omega), readAt_bind h, if_pos hch]

/-- The two characters behind a percent sign are there when they are read. -/
theorem percentDecodeLoop_escape {hi lo : UInt8} (h : input.drop pos = 37 :: hi :: lo :: rest) :
    percentDecodeLoop input pos output =
      if !isHexDigit hi || !isHexDigit lo then .ok none
      else if isRejected (hexValue hi <<< 4 ||| hexValue lo) then .ok none
      else percentDecodeLoop input (pos + 3) (output ++ [hexValue hi <<< 4 ||| hexValue lo]) := by
  have hlen := length_of_drop h
  rw [List.length_cons, List.length_cons] at hlen
  have hhi := drop_succ_of_drop h
  have hlo := drop_succ_of_drop hhi
  rw [percentDecodeLoop, if_pos (by omega), readAt_bind h, if_neg (by decide),
    if_neg (by omega), readAt_bind hhi, readAt_bind hlo]
  cases isHexDigit hi with
  | false => rfl
  | true => rfl

theorem percentDecodeLoop_short (hrest : rest.length < 2) (h : input.drop pos = 37 :: rest) :
    percentDecodeLoop input pos output = .ok none := by
  have hlen := length_of_drop h
  rw [percentDecodeLoop, if_pos (by omega), readAt_bind h, if_neg (by decide),
    if_pos (by omega)]

end Step

theorem percentDecodePath_short {rest : Bytes} (h : rest.length < 2) :
    percentDecodePath (37 :: rest) = none := by
  rcases rest with _ | ⟨hi, _ | ⟨lo, rest⟩⟩
  · rfl
  · rfl
  · rw [List.length_cons, List.length_cons] at h
    omega

/-- **No read leaves the input**, and the loop decodes what is left of it. -/
theorem percentDecodeLoop_eq {input : Bytes} (rest : Bytes) : ∀ {pos : ℕ} {output : Bytes},
    input.drop pos = rest →
    percentDecodeLoop input pos output = .ok ((percentDecodePath rest).map (output ++ ·)) := by
  have happend : ∀ (x : Option Bytes) (output : Bytes) (ch : UInt8),
      (x.map ((output ++ [ch]) ++ ·) : Option Bytes) =
        (x.map (ch :: ·)).map (output ++ ·) := by
    intro x output ch
    rw [Option.map_map]
    congr 1
    funext d
    exact List.append_assoc output [ch] d
  induction rest using percentDecodePath.induct with
  | case1 =>
    intro pos output h
    rw [percentDecodeLoop_nil h]
    exact congrArg (fun d ↦ Except.ok (some d)) (List.append_nil output).symm
  | case2 ch rest hch hrejected =>
    intro pos output h
    rw [percentDecodeLoop_literal hch h, percentDecodePath_literal hch, if_pos hrejected,
      if_pos hrejected]
    rfl
  | case3 ch rest hch hrejected ih =>
    intro pos output h
    rw [percentDecodeLoop_literal hch h, percentDecodePath_literal hch, if_neg hrejected,
      if_neg hrejected, ih (drop_succ_of_drop h), happend]
  | case4 ch hch hi lo rest hdigits =>
    intro pos output h
    obtain rfl : ch = 37 := not_not.mp hch
    rw [percentDecodeLoop_escape h, percentDecodePath_escape, if_pos hdigits, if_pos hdigits]
    rfl
  | case5 ch hch hi lo rest hdigits hrejected =>
    intro pos output h
    obtain rfl : ch = 37 := not_not.mp hch
    rw [percentDecodeLoop_escape h, percentDecodePath_escape, if_neg hdigits, if_neg hdigits,
      if_pos hrejected, if_pos hrejected]
    rfl
  | case6 ch hch hi lo rest hdigits hrejected ih =>
    intro pos output h
    obtain rfl : ch = 37 := not_not.mp hch
    have hrest := drop_succ_of_drop (drop_succ_of_drop (drop_succ_of_drop h))
    rw [percentDecodeLoop_escape h, percentDecodePath_escape, if_neg hdigits, if_neg hdigits,
      if_neg hrejected, if_neg hrejected, ih hrest, happend]
  | case7 ch rest hch hshort =>
    intro pos output h
    obtain rfl : ch = 37 := not_not.mp hch
    have hlen : rest.length < 2 := by
      rcases rest with _ | ⟨hi, _ | ⟨lo, rest⟩⟩
      · exact Nat.two_pos
      · exact Nat.one_lt_two
      · exact absurd rfl (hshort hi lo rest)
    rw [percentDecodeLoop_short hlen h, percentDecodePath_short hlen]
    rfl

/-! ## Positions -/

/-- Every percent sign is followed by two hexadecimal digits, and neither the characters that are
no part of an escape nor those the escapes stand for are rejected. -/
structure Decodable (s : Bytes) : Prop where
  complete : ∀ i : ℕ, s[i]? = some 37 → ∃ hi lo, s[i + 1]? = some hi ∧ s[i + 2]? = some lo ∧
    isHexDigit hi = true ∧ isHexDigit lo = true
  literal : ∀ (i : ℕ) (b : UInt8), s[i]? = some b → b ≠ 37 →
    (∀ j : ℕ, s[j]? = some 37 → i ≠ j + 1 ∧ i ≠ j + 2) → isRejected b = false
  escaped : ∀ (i : ℕ) (hi lo : UInt8), s[i]? = some 37 → s[i + 1]? = some hi → s[i + 2]? = some lo →
    isRejected (hexValue hi <<< 4 ||| hexValue lo) = false

theorem decodable_nil : Decodable [] where
  complete _ h := by cases h
  literal _ _ h := by cases h
  escaped _ _ _ h := by cases h

theorem decodable_literal_iff {ch : UInt8} {rest : Bytes} (hch : ch ≠ 37) :
    Decodable (ch :: rest) ↔ isRejected ch = false ∧ Decodable rest := by
  constructor
  · intro h
    refine ⟨h.literal 0 ch rfl hch fun j _ ↦ ⟨(Nat.succ_ne_zero j).symm,
      (Nat.succ_ne_zero (j + 1)).symm⟩, ?_⟩
    constructor
    · exact fun i hi ↦ h.complete (i + 1) hi
    · intro i b hb hne hfree
      refine h.literal (i + 1) b hb hne fun j hj ↦ ?_
      cases j with
      | zero => exact absurd (Option.some.inj hj) hch
      | succ j =>
        obtain ⟨h₁, h₂⟩ := hfree j hj
        exact ⟨by omega, by omega⟩
    · exact fun i hi lo h₀ h₁ h₂ ↦ h.escaped (i + 1) hi lo h₀ h₁ h₂
  · rintro ⟨hfirst, h⟩
    constructor
    · intro i hi
      cases i with
      | zero => exact absurd (Option.some.inj hi) hch
      | succ i => exact h.complete i hi
    · intro i b hb hne hfree
      cases i with
      | zero => exact Option.some.inj hb ▸ hfirst
      | succ i =>
        refine h.literal i b hb hne fun j hj ↦ ?_
        obtain ⟨h₁, h₂⟩ := hfree (j + 1) hj
        exact ⟨by omega, by omega⟩
    · intro i hi lo h₀ h₁ h₂
      cases i with
      | zero => exact absurd (Option.some.inj h₀) hch
      | succ i => exact h.escaped i hi lo h₀ h₁ h₂

theorem isHexDigit_ne {ch : UInt8} (h : isHexDigit ch = true) : ch ≠ 37 := by
  rintro rfl
  exact absurd h (by decide)

theorem decodable_escape_iff {hi lo : UInt8} {rest : Bytes} (hhi : isHexDigit hi = true)
    (hlo : isHexDigit lo = true) : Decodable (37 :: hi :: lo :: rest) ↔
      isRejected (hexValue hi <<< 4 ||| hexValue lo) = false ∧ Decodable rest := by
  constructor
  · intro h
    refine ⟨h.escaped 0 hi lo rfl rfl rfl, ?_⟩
    constructor
    · exact fun i hi ↦ h.complete (i + 3) hi
    · intro i b hb hne hfree
      refine h.literal (i + 3) b hb hne fun j hj ↦ ?_
      rcases j with _ | _ | _ | j
      · exact ⟨by omega, by omega⟩
      · exact absurd (Option.some.inj hj) (isHexDigit_ne hhi)
      · exact absurd (Option.some.inj hj) (isHexDigit_ne hlo)
      · obtain ⟨h₁, h₂⟩ := hfree j hj
        exact ⟨by omega, by omega⟩
    · exact fun i hi lo h₀ h₁ h₂ ↦ h.escaped (i + 3) hi lo h₀ h₁ h₂
  · rintro ⟨hdecoded, h⟩
    constructor
    · intro i hi'
      rcases i with _ | _ | _ | i
      · exact ⟨hi, lo, rfl, rfl, hhi, hlo⟩
      · exact absurd (Option.some.inj hi') (isHexDigit_ne hhi)
      · exact absurd (Option.some.inj hi') (isHexDigit_ne hlo)
      · exact h.complete i hi'
    · intro i b hb hne hfree
      -- the three characters of the escape are no literals
      obtain ⟨hfirst, hsecond⟩ := hfree 0 rfl
      rcases i with _ | _ | _ | i
      · exact absurd (Option.some.inj hb).symm hne
      · exact absurd rfl hfirst
      · exact absurd rfl hsecond
      · refine h.literal i b hb hne fun j hj ↦ ?_
        obtain ⟨h₁, h₂⟩ := hfree (j + 3) hj
        exact ⟨by omega, by omega⟩
    · intro i hi' lo' h₀ h₁ h₂
      rcases i with _ | _ | _ | i
      · rw [← Option.some.inj h₁, ← Option.some.inj h₂]
        exact hdecoded
      · exact absurd (Option.some.inj h₀) (isHexDigit_ne hhi)
      · exact absurd (Option.some.inj h₀) (isHexDigit_ne hlo)
      · exact h.escaped i hi' lo' h₀ h₁ h₂

/-- **Decoding succeeds exactly on what the positions allow.** -/
theorem isSome_percentDecodePath_iff (s : Bytes) :
    (percentDecodePath s).isSome = true ↔ Decodable s := by
  induction s using percentDecodePath.induct with
  | case1 => exact iff_of_true rfl decodable_nil
  | case2 ch rest hch hrejected =>
    rw [percentDecodePath_literal hch, if_pos hrejected, decodable_literal_iff hch]
    exact iff_of_false (by decide) fun h ↦ absurd (hrejected.symm.trans h.1) (by decide)
  | case3 ch rest hch hrejected ih =>
    rw [percentDecodePath_literal hch, if_neg hrejected, decodable_literal_iff hch,
      Option.isSome_map, ih]
    exact (and_iff_right (Bool.not_eq_true _ ▸ hrejected)).symm
  | case4 ch hch hi lo rest hdigits =>
    obtain rfl : ch = 37 := not_not.mp hch
    rw [percentDecodePath_escape, if_pos hdigits]
    refine iff_of_false (by decide) fun h ↦ ?_
    obtain ⟨hi', lo', h₁, h₂, hhi, hlo⟩ := h.complete 0 rfl
    rw [← Option.some.inj h₁] at hhi
    rw [← Option.some.inj h₂] at hlo
    rw [hhi, hlo] at hdigits
    exact absurd hdigits (by decide)
  | case5 ch hch hi lo rest hdigits hrejected =>
    obtain rfl : ch = 37 := not_not.mp hch
    rw [percentDecodePath_escape, if_neg hdigits, if_pos hrejected]
    refine iff_of_false (by decide) fun h ↦ ?_
    exact absurd (hrejected.symm.trans (h.escaped 0 hi lo rfl rfl rfl)) (by decide)
  | case6 ch hch hi lo rest hdigits hrejected ih =>
    obtain rfl : ch = 37 := not_not.mp hch
    obtain ⟨hhi, hlo⟩ : isHexDigit hi = true ∧ isHexDigit lo = true := by simpa using hdigits
    rw [percentDecodePath_escape, if_neg hdigits, if_neg hrejected, decodable_escape_iff hhi hlo,
      Option.isSome_map, ih]
    exact (and_iff_right (Bool.not_eq_true _ ▸ hrejected)).symm
  | case7 ch rest hch hshort =>
    obtain rfl : ch = 37 := not_not.mp hch
    refine iff_of_false ?_ fun h ↦ ?_
    · rcases rest with _ | ⟨hi, _ | ⟨lo, rest⟩⟩
      · decide
      · exact Bool.not_eq_true _ ▸ rfl
      · exact absurd rfl (hshort hi lo rest)
    · obtain ⟨hi, lo, h₁, h₂, -, -⟩ := h.complete 0 rfl
      rcases rest with _ | ⟨hi', _ | ⟨lo', rest⟩⟩
      · cases h₁
      · cases h₂
      · exact absurd rfl (hshort hi' lo' rest)

/-! ## What has been decoded -/

theorem isHexDigitOf_hexValue {ch : UInt8} (h : isHexDigit ch = true) :
    IsHexDigitOf ch (hexValue ch).toNat := by
  have hall : ∀ n : Fin 256, isHexDigit n.val.toUInt8 = true →
      (ascii "0123456789abcdef")[(hexValue n.val.toUInt8).toNat]? = some n.val.toUInt8 ∨
        (ascii "0123456789ABCDEF")[(hexValue n.val.toUInt8).toNat]? = some n.val.toUInt8 := by
    decide +kernel
  have hbyte := hall ⟨ch.toNat, ch.toNat_lt⟩
  rw [Nat.toUInt8_eq, UInt8.ofNat_toNat] at hbyte
  exact hbyte h

theorem hexValue_lt {ch : UInt8} (h : isHexDigit ch = true) : (hexValue ch).toNat < 16 := by
  rcases isHexDigitOf_hexValue h with hdigit | hdigit
  · exact (List.getElem?_eq_some_iff.mp hdigit).1
  · exact (List.getElem?_eq_some_iff.mp hdigit).1

/-- The two nibbles of what an escape stands for. -/
theorem toNat_decoded {hi lo : UInt8} (hhi : isHexDigit hi = true) (hlo : isHexDigit lo = true) :
    (hexValue hi <<< 4 ||| hexValue lo).toNat = 16 * (hexValue hi).toNat + (hexValue lo).toNat := by
  have hhi := hexValue_lt hhi
  have hlo : (hexValue lo).toNat < 2 ^ 4 := hexValue_lt hlo
  rw [UInt8.toNat_or, UInt8.toNat_shiftLeft]
  generalize (hexValue hi).toNat = high at hhi ⊢
  generalize (hexValue lo).toNat = low at hlo ⊢
  change high <<< 4 % 256 ||| low = _
  rw [Nat.mod_eq_of_lt (by rw [Nat.shiftLeft_eq]; omega), ← Nat.shiftLeft_add_eq_or_of_lt hlo,
    Nat.shiftLeft_eq]
  omega

/-- **Every escape has been replaced once**, and everything else has been left alone. -/
theorem percentEncodes_of_decode {s : Bytes} : ∀ {d : Bytes}, percentDecodePath s = some d →
    PercentEncodes s d := by
  induction s using percentDecodePath.induct with
  | case1 =>
    intro d h
    rw [← Option.some.inj h]
    exact .nil
  | case2 ch rest hch hrejected =>
    intro d h
    rw [percentDecodePath_literal hch, if_pos hrejected] at h
    cases h
  | case3 ch rest hch hrejected ih =>
    intro d h
    rw [percentDecodePath_literal hch, if_neg hrejected] at h
    obtain ⟨d', hd', rfl⟩ := Option.map_eq_some_iff.mp h
    exact .raw hch (ih hd')
  | case4 ch hch hi lo rest hdigits =>
    intro d h
    obtain rfl : ch = 37 := not_not.mp hch
    rw [percentDecodePath_escape, if_pos hdigits] at h
    cases h
  | case5 ch hch hi lo rest hdigits hrejected =>
    intro d h
    obtain rfl : ch = 37 := not_not.mp hch
    rw [percentDecodePath_escape, if_neg hdigits, if_pos hrejected] at h
    cases h
  | case6 ch hch hi lo rest hdigits hrejected ih =>
    intro d h
    obtain rfl : ch = 37 := not_not.mp hch
    obtain ⟨hhi, hlo⟩ : isHexDigit hi = true ∧ isHexDigit lo = true := by simpa using hdigits
    rw [percentDecodePath_escape, if_neg hdigits, if_neg hrejected] at h
    obtain ⟨d', hd', rfl⟩ := Option.map_eq_some_iff.mp h
    have hbyte := toNat_decoded hhi hlo
    have hlow := hexValue_lt hlo
    apply PercentEncodes.escape _ _ (ih hd')
    · rw [hbyte, show (16 * (hexValue hi).toNat + (hexValue lo).toNat) / 16 =
        (hexValue hi).toNat by omega]
      exact isHexDigitOf_hexValue hhi
    · rw [hbyte, show (16 * (hexValue hi).toNat + (hexValue lo).toNat) % 16 =
        (hexValue lo).toNat by omega]
      exact isHexDigitOf_hexValue hlo
  | case7 ch rest hch hshort =>
    intro d h
    obtain rfl : ch = 37 := not_not.mp hch
    have hlen : rest.length < 2 := by
      rcases rest with _ | ⟨hi, _ | ⟨lo, rest⟩⟩
      · exact Nat.two_pos
      · exact Nat.one_lt_two
      · exact absurd rfl (hshort hi lo rest)
    rw [percentDecodePath_short hlen] at h
    cases h

/-- **Decoding is exact.** No read leaves the input; exactly the inputs whose escapes are complete
and stand, like the other characters, for nothing that is rejected are accepted; the result is the
input with every escape replaced once; and every encoding of an admissible text is decoded to it. -/
theorem percent_decode_exact (s : Bytes) :
    percentDecodeLoop s 0 [] = .ok (percentDecodePath s) ∧
      ((percentDecodePath s).isSome = true ↔ Decodable s) ∧
      (∀ d, percentDecodePath s = some d → PercentEncodes s d) ∧
      ∀ d, (∀ b ∈ d, isRejected b = false) → PercentEncodes s d → percentDecodePath s = some d := by
  refine ⟨?_, isSome_percentDecodePath_iff s, fun d h ↦ percentEncodes_of_decode h,
    fun d hd h ↦ percentDecodePath_of_encodes h hd⟩
  refine (percentDecodeLoop_eq s rfl).trans (congrArg Except.ok ?_)
  exact congrFun Option.map_id (percentDecodePath s)

end StaticFiles

end Aevox
