import Aevox.Http.Wire
import Aevox.Library.Rounding
import Aevox.Router.Typed

/-!
# What the declared types accept

`std::from_chars` for each type a pattern can declare, applied to a whole segment: a text that is
not consumed to its end, or whose value is out of the type's range, is not accepted.

The wrapper never asks this question for `uint`, `float` or `double`. It reads every arithmetic
parameter as an `int` and leaves the conversion to the call. The two ways from a text to a value
agree on the texts called plain here, and only on those (`ParamType.alike_iff`).
-/

namespace Aevox

open Float.Model Float.Model.UnpackedFloat

/-! ## `std::from_chars` -/

/-- `std::from_chars` into an `unsigned int`: no sign is accepted. -/
def uintOfChars (raw : Bytes) : Option UInt32 :=
  (parseDecimal raw).bind fun n ↦ if n < 2 ^ 32 then some (UInt32.ofNat n) else none

/-- The text behind an optional minus sign. -/
def unsigned (raw : Bytes) : Bytes := if raw.head? = some 45 then raw.drop 1 else raw

/-- The exponent at the end of a floating-point text; here a plus sign may be written. -/
def exponentOfChars : Bytes → Option ℤ
  | [] => some 0
  | b :: text =>
    if toLower b ≠ 101 then none
    else if text.head? = some 43 then (parseDecimal (text.drop 1)).map Int.ofNat
    else (parseDecimal (unsigned text)).map fun n ↦ if text.head? = some 45 then -n else n

/-- The digits of a floating-point text as one number, and the power of ten it is scaled by. -/
def decimalOfChars (text : Bytes) : Option (ℕ × ℤ) :=
  let whole := text.takeWhile isDigit
  let rest := text.dropWhile isDigit
  let isPoint := rest.head? = some 46
  -- digits may be missing on one side of the point, not on both
  let fraction := if isPoint then (rest.drop 1).takeWhile isDigit else []
  let last := if isPoint then (rest.drop 1).dropWhile isDigit else rest
  (parseDecimal (whole ++ fraction)).bind fun m ↦
    (exponentOfChars last).map fun e ↦ (m, e - fraction.length)

/-- `inf` or `infinity` -/
def isInfinityText (text : Bytes) : Bool :=
  text.map toLower = ascii "inf" || text.map toLower = ascii "infinity"

/-- `nan` or `nan(...)`, with letters, digits and underscores between the parentheses. -/
def isNanText (text : Bytes) : Bool :=
  let lower := text.map toLower
  let inner := (lower.drop 4).dropLast
  lower = ascii "nan" ||
    (lower = ascii "nan(" ++ inner ++ ascii ")" &&
      inner.all fun b ↦ isDigit b || (97 ≤ b && b ≤ 122) || b = 95)

/-- A floating-point text without its sign. -/
def magnitudeOfChars (spec : Format) (text : Bytes) : Option UnpackedFloat :=
  if isInfinityText text then some (.infinity .positive)
  else if isNanText text then some .notANumber
  else (decimalOfChars text).bind fun d ↦ Rounding.ofDecimal spec d.1 d.2

/-- `std::from_chars` into a floating-point type. -/
def realOfChars (spec : Format) (raw : Bytes) : Option UnpackedFloat :=
  (magnitudeOfChars spec (unsigned raw)).map fun x ↦ if raw.head? = some 45 then x.neg else x

namespace ParamType

/-- The C++ type a parameter declares: `std::string` without an annotation. -/
def Value : ParamType → Type
  | .none => Bytes
  | .int => ℤ
  | .uint => UInt32
  | .float => Float32
  | .double => Float
  | .string => Bytes

/-- What `std::from_chars` makes of a whole segment; any text is a string. -/
def fromChars : (t : ParamType) → Bytes → Option t.Value
  | .none, raw => some raw
  | .int, raw => intOfChars raw
  | .uint, raw => uintOfChars raw
  | .float, raw => (realOfChars .binary32 raw).map fun x ↦ Float32.ofModel (.pack x)
  | .double, raw => (realOfChars .binary64 raw).map fun x ↦ Float.ofModel (.pack x)
  | .string, raw => some raw

/-- What the wrapper extracts for a parameter of this type. -/
def kind : ParamType → ParamKind
  | .none => .string
  | .int => .int
  | .uint => .int
  | .float => .int
  | .double => .int
  | .string => .string

/-- The implicit conversion of the call. -/
def ofKind : (t : ParamType) → t.kind.Value → t.Value
  | .none, text => text
  | .int, n => n
  | .uint, n => UInt32.ofInt n
  | .float, n => Float32.ofModel (.ofInt n)
  | .double, n => Float.ofModel (.ofInt n)
  | .string, text => text

end ParamType

/-- `param<T>()` on the text it has found. -/
def ParamKind.parse : (kind : ParamKind) → Bytes → Option kind.Value
  | .int, raw => intOfChars raw
  | .string, raw => some raw

namespace ParamType

/-- The value a handler with a parameter of this type is called with, if it is called. -/
def read (t : ParamType) (raw : Bytes) : Option t.Value := (t.kind.parse raw).map t.ofKind

/-- The texts of this type that are read as the type declares: those of an `int`, for `uint` not
signed, for `float` and `double` not a negative zero. -/
def Plain : ParamType → Bytes → Prop
  | .none, _ => True
  | .int, raw => (intOfChars raw).isSome
  | .uint, raw => (intOfChars raw).isSome ∧ raw.head? ≠ some 45
  | .float, raw => (intOfChars raw).isSome ∧ ¬(raw.head? = some 45 ∧ intOfChars raw = some 0)
  | .double, raw => (intOfChars raw).isSome ∧ ¬(raw.head? = some 45 ∧ intOfChars raw = some 0)
  | .string, _ => True

end ParamType

/-! ## Integers -/

theorem parseDecimal_eq_some_iff {text : Bytes} {n : ℕ} :
    parseDecimal text = some n ↔ (text ≠ [] ∧ text.all isDigit = true) ∧
      text.foldl (fun n b ↦ 10 * n + (b.toNat - 48)) 0 = n := by
  rw [parseDecimal]
  by_cases h : text ≠ [] ∧ text.all isDigit = true
  · rw [if_pos h, Option.some.injEq, and_iff_right h]
  · rw [if_neg h]
    exact iff_of_false (fun hnone ↦ by cases hnone) fun hdigits ↦ h hdigits.1

theorem not_digits_iff (text : Bytes) :
    (text = [] ∨ ∃ b ∈ text, b < 48 ∨ 57 < b) ↔ ¬(text ≠ [] ∧ text.all isDigit = true) := by
  simp only [List.all_eq_true, isDigit, Bool.and_eq_true, decide_eq_true_eq, not_and_or, not_not,
    not_forall, UInt8.not_le, exists_prop]

theorem foldl_digits_cast {text : Bytes} (h : ∀ b ∈ text, isDigit b = true) (init : ℕ) :
    text.foldl (fun (n : ℤ) b ↦ 10 * n + (b.toNat - 48)) init
      = (text.foldl (fun (n : ℕ) b ↦ 10 * n + (b.toNat - 48)) init : ℕ) := by
  induction text generalizing init with
  | nil => rfl
  | cons b text ih =>
    obtain ⟨hb, htext⟩ := List.forall_mem_cons.mp h
    simp only [isDigit, Bool.and_eq_true, decide_eq_true_eq, UInt8.le_iff_toNat_le] at hb
    have h48 : 48 ≤ b.toNat := hb.1
    have hstep : 10 * (init : ℤ) + (b.toNat - 48) = ((10 * init + (b.toNat - 48) : ℕ) : ℤ) := by
      omega
    rw [List.foldl_cons, List.foldl_cons, hstep, ih htext]

theorem intOfChars_eq (raw : Bytes) :
    intOfChars raw = (parseDecimal (unsigned raw)).bind fun n ↦
      let v : ℤ := if raw.head? = some 45 then -n else n
      if -2 ^ 31 ≤ v ∧ v < 2 ^ 31 then some v else none := by
  rw [intOfChars, parseDecimal]
  change (if unsigned raw = [] ∨ ∃ b ∈ unsigned raw, b < 48 ∨ 57 < b then none else _) = _
  by_cases h : unsigned raw ≠ [] ∧ (unsigned raw).all isDigit = true
  · have hfold := foldl_digits_cast (List.all_eq_true.mp h.2) 0
    rw [if_neg ((not_digits_iff _).not.mpr (not_not.mpr h)), if_pos h, Option.bind_some]
    simp only [← hfold]
    rfl
  · rw [if_pos ((not_digits_iff _).mpr h), if_neg h]
    rfl

theorem intOfChars_eq_some_iff {raw : Bytes} {v : ℤ} :
    intOfChars raw = some v ↔ ∃ n : ℕ, parseDecimal (unsigned raw) = some n ∧
      v = (if raw.head? = some 45 then -(n : ℤ) else n) ∧ -2 ^ 31 ≤ v ∧ v < 2 ^ 31 := by
  rw [intOfChars_eq, Option.bind_eq_some_iff]
  refine exists_congr fun n ↦ and_congr_right fun _ ↦ ?_
  generalize (if raw.head? = some 45 then -(n : ℤ) else n) = w
  rw [Option.ite_none_right_eq_some, Option.some.injEq]
  constructor
  · rintro ⟨hrange, rfl⟩
    exact ⟨rfl, hrange⟩
  · rintro ⟨rfl, hrange⟩
    exact ⟨hrange, rfl⟩

/-! ## Floating-point texts of integers -/

theorem toLower_of_isDigit {b : UInt8} (h : isDigit b = true) : toLower b = b := by
  simp only [isDigit, Bool.and_eq_true, decide_eq_true_eq] at h
  refine if_neg fun hupper ↦ ?_
  exact absurd (UInt8.le_trans hupper.1 h.2) (by decide)

theorem not_special_of_digits {text : Bytes} (h : ∀ b ∈ text, isDigit b = true) :
    isInfinityText text = false ∧ isNanText text = false := by
  have hlower : text.map toLower = text := by
    conv_rhs => rw [← List.map_id text]
    exact List.map_congr_left fun b hb ↦ toLower_of_isDigit (h b hb)
  have hother : ∀ (b : UInt8) (word : Bytes), isDigit b = false → text ≠ b :: word := by
    rintro b word hb rfl
    rw [h b List.mem_cons_self] at hb
    cases hb
  have hn : isDigit 110 = false := by decide
  rw [isInfinityText, isNanText, hlower]
  constructor
  · have hinf : text ≠ ascii "inf" := hother 105 _ (by decide)
    have hinfinity : text ≠ ascii "infinity" := hother 105 _ (by decide)
    rw [decide_eq_false hinf, decide_eq_false hinfinity]
    rfl
  · have hnan : text ≠ ascii "nan" := hother 110 _ hn
    have hopen : text ≠ ascii "nan(" ++ (text.drop 4).dropLast ++ ascii ")" := hother 110 _ hn
    simp only [decide_eq_false hnan, decide_eq_false hopen, Bool.false_and, Bool.or_self]

theorem decimalOfChars_digits {text : Bytes} {n : ℕ} (h : parseDecimal text = some n) :
    decimalOfChars text = some (n, 0) := by
  obtain ⟨⟨-, hall⟩, -⟩ := parseDecimal_eq_some_iff.mp h
  have hdigit := List.all_eq_true.mp hall
  have htake : text.takeWhile isDigit = text := List.takeWhile_eq_self_iff.mpr hdigit
  have hdrop : text.dropWhile isDigit = [] := List.dropWhile_eq_nil_iff.mpr hdigit
  rw [decimalOfChars, htake, hdrop]
  simp only [List.head?_nil, reduceCtorEq, if_false, List.append_nil]
  rw [h]
  rfl

theorem magnitudeOfChars_digits {text : Bytes} {n : ℕ} (h : parseDecimal text = some n)
    (spec : Format) : magnitudeOfChars spec text = Rounding.ofDecimal spec n 0 := by
  obtain ⟨⟨-, hall⟩, -⟩ := parseDecimal_eq_some_iff.mp h
  obtain ⟨hinf, hnan⟩ := not_special_of_digits (List.all_eq_true.mp hall)
  rw [magnitudeOfChars, hinf, hnan, decimalOfChars_digits h]
  rfl

/-- **A text an `int` is read from is a floating-point text of the same number**, with the sign
that is written, also before a zero. -/
theorem realOfChars_of_int {spec : Format} (hspec : 7 ≤ spec.exponentBits)
    {raw : Bytes} {n : ℕ} (h : parseDecimal (unsigned raw) = some n) (hn : n ≤ 2 ^ 31) :
    realOfChars spec raw =
      some (if raw.head? = some 45 then (UnpackedFloat.ofInt spec n).neg
        else UnpackedFloat.ofInt spec n) := by
  have hlog : n.log2 + 1 < 2 ^ (spec.exponentBits - 1) := by
    have hpow : 2 ^ 6 ≤ 2 ^ (spec.exponentBits - 1) :=
      Nat.pow_le_pow_right Nat.two_pos (Nat.le_sub_of_add_le hspec)
    refine lt_of_lt_of_le ?_ hpow
    rcases Nat.eq_zero_or_pos n with rfl | hpos
    · decide
    · have hlt : n.log2 < 32 := (Nat.log2_lt hpos.ne').mpr (lt_of_le_of_lt hn (by decide))
      omega
  rw [realOfChars, magnitudeOfChars_digits h, Rounding.ofDecimal_eq_ofInt hlog, Option.map_some]

/-! ## Where the two ways agree -/

theorem unsigned_of_ne {raw : Bytes} (h : raw.head? ≠ some 45) : unsigned raw = raw := if_neg h

theorem uintOfChars_eq_some_iff {raw : Bytes} {v : UInt32} :
    uintOfChars raw = some v ↔
      ∃ n : ℕ, parseDecimal raw = some n ∧ n < 2 ^ 32 ∧ UInt32.ofNat n = v := by
  rw [uintOfChars, Option.bind_eq_some_iff]
  exact exists_congr fun n ↦ and_congr_right fun _ ↦ by
    rw [Option.ite_none_right_eq_some, Option.some.injEq]

theorem head?_ne_of_parseDecimal {raw : Bytes} {n : ℕ} (h : parseDecimal raw = some n) :
    raw.head? ≠ some 45 := by
  obtain ⟨⟨-, hall⟩, -⟩ := parseDecimal_eq_some_iff.mp h
  intro hhead
  have hdigit := List.all_eq_true.mp hall 45 (List.mem_of_mem_head? hhead)
  exact absurd hdigit (by decide)

/-- An `int` that is not negative is an `unsigned int`. -/
theorem uint_alike_iff (raw : Bytes) :
    (∃ v, (intOfChars raw).map UInt32.ofInt = some v ∧ uintOfChars raw = some v) ↔
      (intOfChars raw).isSome ∧ raw.head? ≠ some 45 := by
  constructor
  · rintro ⟨v, hint, huint⟩
    obtain ⟨n, hn, -⟩ := uintOfChars_eq_some_iff.mp huint
    have hsome : ((intOfChars raw).map UInt32.ofInt).isSome := by rw [hint, Option.isSome_some]
    exact ⟨by simpa using hsome, head?_ne_of_parseDecimal hn⟩
  · rintro ⟨hint, hsign⟩
    obtain ⟨v, hv⟩ := Option.isSome_iff_exists.mp hint
    obtain ⟨n, hn, hvn, -, hlt⟩ := intOfChars_eq_some_iff.mp hv
    rw [unsigned_of_ne hsign] at hn
    rw [if_neg hsign] at hvn
    subst hvn
    have hmod : ((n : ℤ) % 2 ^ 32).toNat = n := by omega
    refine ⟨UInt32.ofInt n, by rw [hv, Option.map_some], ?_⟩
    exact uintOfChars_eq_some_iff.mpr ⟨n, hn, by omega, by rw [UInt32.ofInt, hmod]⟩

/-- An `int` is a floating-point number, except that `int` has no negative zero. -/
theorem real_alike_iff {α : Type} (spec : Format) (hspec : 7 ≤ spec.exponentBits)
    (pack : UnpackedFloat → α) (hzero : pack (.zero .negative) ≠ pack (.zero .positive))
    (raw : Bytes) :
    (∃ v, (intOfChars raw).map (fun n ↦ pack (UnpackedFloat.ofInt spec n)) = some v ∧
        (realOfChars spec raw).map pack = some v) ↔
      (intOfChars raw).isSome ∧ ¬(raw.head? = some 45 ∧ intOfChars raw = some 0) := by
  rcases hint : intOfChars raw with _ | v
  · simp
  · obtain ⟨n, hn, hvn, hlow, hhigh⟩ := intOfChars_eq_some_iff.mp hint
    have hle : n ≤ 2 ^ 31 := by
      by_cases hsign : raw.head? = some 45
      · rw [if_pos hsign] at hvn
        omega
      · rw [if_neg hsign] at hvn
        omega
    rw [realOfChars_of_int hspec hn hle, Option.map_some, Option.map_some, hvn]
    -- a sign is kept in front of a zero by one of the two only
    by_cases hsign : raw.head? = some 45
    · simp only [hsign, if_true, true_and, Option.isSome_some, Option.some.injEq, exists_eq_left']
      rcases Nat.eq_zero_or_pos n with rfl | hpos
      · exact iff_of_false hzero fun h ↦ h rfl
      · rw [Rounding.neg_ofInt hpos.ne']
        exact iff_of_true rfl (by omega)
    · simp [hsign]

/-- **The two ways from a text to a value agree on the plain texts, and only there.** -/
theorem ParamType.alike_iff (t : ParamType) (raw : Bytes) :
    (∃ v, t.read raw = some v ∧ t.fromChars raw = some v) ↔ t.Plain raw := by
  cases t with
  | none => exact iff_of_true ⟨raw, rfl, rfl⟩ trivial
  | string => exact iff_of_true ⟨raw, rfl, rfl⟩ trivial
  | int =>
    have hread : ParamType.int.read raw = intOfChars raw := Option.map_id'
    rw [hread, Plain, Option.isSome_iff_exists]
    exact exists_congr fun v ↦ and_self_iff
  | uint => exact uint_alike_iff raw
  | float =>
    exact real_alike_iff .binary32 (by decide) (fun x ↦ Float32.ofModel (.pack x)) (by decide) raw
  | double =>
    exact real_alike_iff .binary64 (by decide) (fun x ↦ Float.ofModel (.pack x)) (by decide) raw

end Aevox
