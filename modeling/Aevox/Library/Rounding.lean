import Mathlib.Data.Nat.Log
import Mathlib.Algebra.Order.Ring.Int

/-!
# Rounding decimals into a binary format

A decimal `m * 10 ^ e` is read into a floating-point format by rounding it to the nearest value of
the format; it is out of range if the rounded value is too large for the format, or zero although
the decimal is not (`ofDecimal`). The formats and the rounding are those of `Float.Model`.

A decimal without a fraction or an exponent is an integer, and there are two ways to convert an
integer: to read its digits as a decimal, and to convert the number itself. They agree for every
integer that is small against the format's exponents (`ofDecimal_eq_ofInt`). The reason is that
rounding does not depend on how many zeros the mantissa was padded with (`roundWithAccuracy_pad`).
-/

namespace Rounding

open Float.Model Float.Model.UnpackedFloat

/-! ## Shifting -/

/-- A mantissa with nothing behind it. -/
def whole (m : ℕ) : ExtendedMantissa := ⟨m, false, false⟩

theorem shiftRight_succ (em : ExtendedMantissa) (k : ℕ) :
    em >>> (k + 1) = em.shiftRightOne >>> k := by
  induction k with
  | zero => rfl
  | succ k ih => exact congrArg ExtendedMantissa.shiftRightOne ih

theorem mantissa_shiftRight (k : ℕ) : ∀ em : ExtendedMantissa,
    (em >>> k).mantissa = em.mantissa / 2 ^ k := by
  induction k with
  | zero => exact fun em ↦ (Nat.div_one _).symm
  | succ k ih =>
    intro em
    rw [shiftRight_succ, ih, ExtendedMantissa.shiftRightOne, Nat.div_div_eq_div_mul, pow_succ']

/-- Zeros are shifted out without a trace. -/
theorem shiftRight_pad (m k j : ℕ) : whole (m <<< k) >>> (k + j) = whole m >>> j := by
  induction k with
  | zero => rw [Nat.shiftLeft_zero, Nat.zero_add]
  | succ k ih =>
    have hone : (whole (m <<< (k + 1))).shiftRightOne = whole (m <<< k) := by
      have hdouble : m <<< (k + 1) = 2 * m <<< k := Nat.shiftLeft_succ m k
      simp [whole, ExtendedMantissa.shiftRightOne, hdouble]
    rw [Nat.add_right_comm, shiftRight_succ, hone, ih]

theorem mantissa_shiftRight_pos {m k : ℕ} (hm : m ≠ 0) (hk : k ≤ m.log2) :
    0 < (whole m >>> k).mantissa := by
  rw [mantissa_shiftRight]
  exact Nat.div_pos ((Nat.pow_le_pow_right Nat.two_pos hk).trans (Nat.log2_self_le hm))
    (Nat.two_pow_pos k)

theorem log2_shiftLeft {m : ℕ} (hm : m ≠ 0) (k : ℕ) : (m <<< k).log2 = m.log2 + k := by
  induction k with
  | zero => rfl
  | succ k ih =>
    have hne : m <<< k ≠ 0 := by
      rw [Nat.shiftLeft_eq]
      exact Nat.mul_ne_zero hm (Nat.two_pow_pos k).ne'
    rw [Nat.shiftLeft_succ, Nat.log2_two_mul hne, ih]
    rfl

/-! ## Rounding a padded integer -/

variable {spec : Format} {n : ℕ}

/-- The exponent an integer is rounded to. -/
def targetOf (spec : Format) (n : ℕ) : ℤ := spec.targetExponent (totalExponent n 0)

theorem shiftToTargetExponent_pad (hn : n ≠ 0) {k : ℕ} (hk : 0 ≤ targetOf spec n + k) :
    shiftToTargetExponent spec (n <<< k) (-k) .exact =
      (whole (n <<< (-targetOf spec n).toNat) >>> (targetOf spec n).toNat, targetOf spec n) := by
  have htotal : totalExponent (n <<< k) (-k) = totalExponent n 0 := by
    rw [totalExponent, totalExponent, log2_shiftLeft hn]
    push_cast
    omega
  rw [shiftToTargetExponent, htotal, shiftToExponent]
  change (whole (n <<< k) >>> (targetOf spec n - -(k : ℤ)).toNat,
    -(k : ℤ) + ((targetOf spec n - -(k : ℤ)).toNat : ℤ)) = _
  generalize targetOf spec n = t at hk ⊢
  refine Prod.ext ?_ (by simp only; omega)
  -- what is padded beyond the target is shifted out again
  have hpad : k = (-t).toNat + (k - (-t).toNat) := by omega
  have hshift : (t - -(k : ℤ)).toNat = (k - (-t).toNat) + t.toNat := by omega
  have hsplit : n <<< k = (n <<< (-t).toNat) <<< (k - (-t).toNat) := by
    rw [← Nat.shiftLeft_add, ← hpad]
  rw [hshift, hsplit, shiftRight_pad]

/-- **Rounding does not depend on the padding.** -/
theorem roundWithAccuracy_pad (hn : n ≠ 0) (sign : Sign) {j k : ℕ}
    (hj : 0 ≤ targetOf spec n + j) (hk : 0 ≤ targetOf spec n + k) :
    roundWithAccuracy spec sign (n <<< j) (-j) .exact
      = roundWithAccuracy spec sign (n <<< k) (-k) .exact := by
  rw [roundWithAccuracy, roundWithAccuracy, shiftToTargetExponent_pad hn hj,
    shiftToTargetExponent_pad hn hk]

/-- An integer is padded as far as its target exponent asks for. -/
theorem round_eq_roundWithAccuracy (sign : Sign) :
    UnpackedFloat.round spec sign n 0 = roundWithAccuracy spec sign (n <<< (-targetOf spec n).toNat)
      (-((-targetOf spec n).toNat : ℤ)) .exact := by
  rw [UnpackedFloat.round, decreaseExponent]
  change roundWithAccuracy spec sign (n <<< (0 - targetOf spec n).toNat)
    (0 - ((0 - targetOf spec n).toNat : ℤ)) .exact = _
  rw [zero_sub, zero_sub]

/-! ## The size of a rounded integer -/

theorem roundedMantissa_le (em : ExtendedMantissa) : em.roundedMantissa ≤ em.mantissa + 1 := by
  obtain ⟨m, r, s⟩ := em
  cases r <;> cases s <;>
    simp only [ExtendedMantissa.roundedMantissa, ExtendedMantissa.accuracy,
      Accuracy.roundToNearestEven] <;> omega

theorem le_roundedMantissa (em : ExtendedMantissa) : em.mantissa ≤ em.roundedMantissa := by
  obtain ⟨m, r, s⟩ := em
  cases r <;> cases s <;>
    simp only [ExtendedMantissa.roundedMantissa, ExtendedMantissa.accuracy,
      Accuracy.roundToNearestEven] <;> omega

theorem log2_le_of_le_succ {m r : ℕ} (h : r ≤ m + 1) : r.log2 ≤ m.log2 + 1 := by
  rcases Nat.eq_zero_or_pos r with rfl | hr
  · exact Nat.zero_le _
  · refine Nat.le_of_lt_succ ((Nat.log2_lt hr.ne').mpr ?_)
    have hm : m < 2 ^ (m.log2 + 1) := Nat.lt_log2_self
    have hpow : 2 ^ (m.log2 + 1 + 1) = 2 * 2 ^ (m.log2 + 1) := pow_succ' 2 _
    omega

theorem log2_div_two_pow {m k : ℕ} (hm : m ≠ 0) (hk : k ≤ m.log2) :
    (m / 2 ^ k).log2 = m.log2 - k := by
  have hpos : m / 2 ^ k ≠ 0 := (Nat.div_pos
    ((Nat.pow_le_pow_right Nat.two_pos hk).trans (Nat.log2_self_le hm)) (Nat.two_pow_pos k)).ne'
  refine (Nat.log2_eq_iff hpos).mpr ⟨?_, ?_⟩
  · rw [Nat.le_div_iff_mul_le (Nat.two_pow_pos k), ← pow_add, Nat.sub_add_cancel hk]
    exact Nat.log2_self_le hm
  · rw [Nat.div_lt_iff_lt_mul (Nat.two_pow_pos k), ← pow_add]
    have hexp : m.log2 - k + 1 + k = m.log2 + 1 := by omega
    rw [hexp]
    exact Nat.lt_log2_self

/-- What the first shift leaves is rounded, and shifted once more. -/
theorem roundWithAccuracy_of_shift {sign : Sign} {m : ℕ} {x : ℤ} {accuracy : Accuracy}
    {em : ExtendedMantissa} {e : ℤ} (hshift : shiftToTargetExponent spec m x accuracy = (em, e))
    (hpos : 0 < (shiftToTargetExponent spec em.roundedMantissa e .exact).1.mantissa) :
    roundWithAccuracy spec sign m x accuracy =
      .finite sign (shiftToTargetExponent spec em.roundedMantissa e .exact).1.mantissa
        (shiftToTargetExponent spec em.roundedMantissa e .exact).2 hpos := by
  rw [roundWithAccuracy, hshift]
  exact dif_neg hpos.ne'

theorem mantissaBits_eq (spec : Format) :
    spec.mantissaBits = 1 + spec.mantissaBitsWithoutImplicit := rfl

theorem round_finite (spec : Format) (hn : n ≠ 0) (sign : Sign) :
    ∃ m e h, UnpackedFloat.round spec sign n 0 = .finite sign m e h ∧
      e ≤ max ((n.log2 : ℤ) + 2 - spec.mantissaBits) spec.minExponent := by
  have hmant : (1 : ℤ) ≤ spec.mantissaBits := by
    rw [mantissaBits_eq]
    omega
  have hmin : spec.minExponent ≤ 0 := by
    have hpow : 1 ≤ (2 : ℤ) ^ (spec.exponentBits - 1) := one_le_pow₀ (by decide)
    have hm := spec.hm
    rw [Format.minExponent, mantissaBits_eq]
    push_cast
    omega
  have htarget : targetOf spec n = max ((n.log2 : ℤ) + 1 - spec.mantissaBits) spec.minExponent := by
    rw [targetOf, Format.targetExponent, totalExponent, add_zero]
  have hpad : 0 ≤ targetOf spec n + (-targetOf spec n).toNat := by omega
  have hshift := shiftToTargetExponent_pad hn hpad
  rw [round_eq_roundWithAccuracy]
  generalize targetOf spec n = t at htarget hshift ⊢
  -- the first shift leaves the leading digit in place
  have hlog := log2_shiftLeft hn (-t).toNat
  have hne : n <<< (-t).toNat ≠ 0 := by
    rw [Nat.shiftLeft_eq]
    exact Nat.mul_ne_zero hn (Nat.two_pow_pos _).ne'
  have hj : t.toNat ≤ (n <<< (-t).toNat).log2 := by omega
  have hm : (whole (n <<< (-t).toNat) >>> t.toNat).mantissa = n <<< (-t).toNat / 2 ^ t.toNat :=
    mantissa_shiftRight _ _
  have hmpos := mantissa_shiftRight_pos hne hj
  have hmlog := log2_div_two_pow hne hj
  rw [← hm, hlog] at hmlog
  generalize whole (n <<< (-t).toNat) >>> t.toNat = em at hshift hmpos hmlog
  -- so does rounding, up to a carry
  have hr : em.roundedMantissa ≠ 0 := (hmpos.trans_le (le_roundedMantissa em)).ne'
  have hrlog := log2_le_of_le_succ (roundedMantissa_le em)
  have hnext : spec.targetExponent (totalExponent em.roundedMantissa t)
      = max ((em.roundedMantissa.log2 : ℤ) + 1 + t - spec.mantissaBits) spec.minExponent := by
    rw [Format.targetExponent, totalExponent]
  have hpos : 0 < (shiftToTargetExponent spec em.roundedMantissa t .exact).1.mantissa := by
    apply mantissa_shiftRight_pos hr
    omega
  refine ⟨_, _, _, roundWithAccuracy_of_shift hshift hpos, ?_⟩
  change t + ((spec.targetExponent (totalExponent em.roundedMantissa t) - t).toNat : ℤ) ≤ _
  omega

/-! ## Decimals -/

/-- An exponent too large for the format: a number with it is packed as an infinity. -/
def Overflows (spec : Format) (exponent : ℤ) : Prop :=
  2 ^ spec.exponentBits
    ≤ (exponent + spec.exponentBias + spec.mantissaBitsWithoutImplicit).toNat + 1

instance (spec : Format) (exponent : ℤ) : Decidable (Overflows spec exponent) :=
  inferInstanceAs (Decidable (_ ≤ _))

/-- `m * 10 ^ e` rounded to the format, if it is within the format's range. -/
def ofDecimal (spec : Format) (m : ℕ) (e : ℤ) : Option UnpackedFloat :=
  if m = 0 then some (.zero .positive)
  else
    match UnpackedFloat.ofScientific spec m e with
    | .finite sign mantissa exponent h =>
      if Overflows spec exponent then none else some (.finite sign mantissa exponent h)
    | _ => none

theorem ofScientific_zero (hn : n ≠ 0) :
    UnpackedFloat.ofScientific spec n 0 = UnpackedFloat.round spec .positive n 0 := by
  have hbound : 0 < (2 : ℤ) ^ spec.exponentBits := pow_pos (by decide) _
  have hmant : (1 : ℤ) ≤ spec.mantissaBits := by
    rw [mantissaBits_eq]
    omega
  have htarget : 0 ≤ targetOf spec n + spec.mantissaBits := by
    rw [targetOf, Format.targetExponent, totalExponent]
    omega
  rw [UnpackedFloat.ofScientific, dif_neg hn, if_neg (by omega), if_neg (by omega), if_pos le_rfl,
    round_eq_roundWithAccuracy]
  change roundWithAccuracy spec (.positive * .positive) (n <<< spec.mantissaBits * 10 ^ 0)
    (-(spec.mantissaBits : ℤ) + 0) .exact = _
  rw [pow_zero, mul_one, add_zero]
  exact roundWithAccuracy_pad hn .positive htarget (by omega)

theorem ofInt_of_pos (hn : n ≠ 0) :
    UnpackedFloat.ofInt spec n = UnpackedFloat.round spec .positive n 0 := by
  have hpos : (0 : ℤ) < n := by omega
  have hcompare : compare (n : ℤ) 0 = .gt := compare_gt_iff_gt.mpr hpos
  rw [UnpackedFloat.ofInt, UnpackedFloat.normalize, hcompare]
  rfl

theorem ofInt_neg (hn : n ≠ 0) :
    UnpackedFloat.ofInt spec (-n) = UnpackedFloat.round spec .negative n 0 := by
  have hneg : -(n : ℤ) < 0 := by omega
  have hcompare : compare (-(n : ℤ)) 0 = .lt := compare_lt_iff_lt.mpr hneg
  rw [UnpackedFloat.ofInt, UnpackedFloat.normalize, hcompare]
  change UnpackedFloat.round spec .negative (- -(n : ℤ)).toNat 0 = _
  rw [neg_neg, Int.toNat_natCast]

/-- **An integer's digits, read as a decimal, are the integer.** -/
theorem ofDecimal_eq_ofInt (hsmall : n.log2 + 1 < 2 ^ (spec.exponentBits - 1)) :
    ofDecimal spec n 0 = some (UnpackedFloat.ofInt spec n) := by
  rcases Nat.eq_zero_or_pos n with rfl | hn
  · rfl
  · obtain ⟨m, e, h, hround, he⟩ := round_finite spec hn.ne' .positive
    rw [ofDecimal, if_neg hn.ne', ofScientific_zero hn.ne', ofInt_of_pos hn.ne', hround]
    refine if_neg (not_le.mpr ?_)
    have hbits : 2 ^ spec.exponentBits = 2 * 2 ^ (spec.exponentBits - 1) := by
      rw [← pow_succ', Nat.sub_add_cancel spec.he]
    have hmin : spec.minExponent
        = 3 - ((2 ^ (spec.exponentBits - 1) : ℕ) : ℤ) - spec.mantissaBits := by
      rw [Format.minExponent]
      push_cast
      rfl
    rw [hmin, mantissaBits_eq] at he
    rw [Format.exponentBias, hbits]
    omega

theorem neg_roundWithAccuracy (sign : Sign) (m : ℕ) (e : ℤ) (accuracy : Accuracy) :
    (roundWithAccuracy spec sign m e accuracy).neg
      = roundWithAccuracy spec (-sign) m e accuracy := by
  rcases hfirst : shiftToTargetExponent spec m e accuracy with ⟨em, x⟩
  rcases hlast : shiftToTargetExponent spec em.roundedMantissa x .exact with ⟨fm, y⟩
  have hround : ∀ s, roundWithAccuracy spec s m e accuracy =
      if h : fm.mantissa = 0 then .zero s else .finite s fm.mantissa y (Nat.pos_of_ne_zero h) := by
    intro s
    rw [roundWithAccuracy, hfirst]
    dsimp only
    rw [hlast]
  rw [hround, hround]
  by_cases h : fm.mantissa = 0
  · rw [dif_pos h, dif_pos h]
    rfl
  · rw [dif_neg h, dif_neg h]
    rfl

theorem neg_ofInt (hn : n ≠ 0) :
    (UnpackedFloat.ofInt spec n).neg = UnpackedFloat.ofInt spec (-n) := by
  rw [ofInt_of_pos hn, ofInt_neg hn, UnpackedFloat.round, UnpackedFloat.round]
  exact neg_roundWithAccuracy .positive _ _ _

end Rounding
