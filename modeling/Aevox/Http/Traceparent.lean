import Aevox.Bytes
import Aevox.Library.Hex

/-!
# The traceparent header

The header is fields at fixed positions: the version `00`, a trace id of 32 digits, the id of the
parent of 16, and two digits of flags, with dashes between them. The digits are hexadecimal, of
either case. `parseTraceparent` looks at positions, one check after another; the grammar is stated
without them, as a concatenation of fields (`IsTraceparent`). What is accepted is what is in the
grammar, and what has been parsed is written back in lower case.
-/

namespace Aevox

/-! ## The parser -/

/-- `kTraceParentLength` -/
abbrev kTraceParentLength : ℕ := 55

/-- `kTraceIdLength` -/
abbrev kTraceIdLength : ℕ := 32

/-- `kParentIdLength` -/
abbrev kParentIdLength : ℕ := 16

/-- `'-'` -/
abbrev dash : UInt8 := 45

/-- `TraceParent` -/
structure TraceParent where
  traceId : Bytes
  parentId : Bytes
  flags : UInt8
  deriving DecidableEq

/-- `is_lower_hex` -/
def isLowerHex (c : UInt8) : Bool := (48 ≤ c && c ≤ 57) || (97 ≤ c && c ≤ 102)

/-- The loop over an id, with the part that has been stored and whether it is all zeros so far. -/
def readId (stored : Bytes) (allZero : Bool) : Bytes → Option (Bytes × Bool)
  | [] => some (stored, allZero)
  | c :: cs =>
    if 65 ≤ c ∧ c ≤ 70 then readId (stored ++ [c - 65 + 97]) false cs
    else if isLowerHex c then readId (stored ++ [c]) (allZero && c == 48) cs
    else none

/-- `hex_nibble` -/
def hexNibble (c : UInt8) : UInt8 :=
  if 48 ≤ c ∧ c ≤ 57 then c - 48
  else if 97 ≤ c ∧ c ≤ 102 then c - 97 + 10
  else if 65 ≤ c ∧ c ≤ 70 then c - 65 + 10
  else 0

/-- `parse_traceparent` -/
def parseTraceparent (header : Bytes) : Option TraceParent :=
  if header.length ≠ kTraceParentLength then none
  else if header[2]? ≠ some dash ∨ header[35]? ≠ some dash ∨ header[52]? ≠ some dash then none
  else if header[0]? ≠ some 48 ∨ header[1]? ≠ some 48 then none
  else
    match readId [] true ((header.drop 3).take kTraceIdLength) with
    | none => none
    | some (traceId, traceIdAllZero) =>
      if traceIdAllZero then none
      else
        match readId [] true ((header.drop 36).take kParentIdLength) with
        | none => none
        | some (parentId, parentIdAllZero) =>
          if parentIdAllZero then none
          else
            match header.drop 53 with
            | [hi, lo] =>
              if [hi, lo].all fun c ↦ isLowerHex c || (65 ≤ c && c ≤ 70) then
                some ⟨traceId, parentId, hexNibble hi <<< 4 ||| hexNibble lo⟩
              else none
            -- the length leaves two bytes
            | _ => none

/-- A trace as a header, in lower case. -/
def TraceParent.render (trace : TraceParent) : Bytes :=
  ascii "00" ++ dash :: trace.traceId ++ dash :: trace.parentId ++ dash :: Hex.render trace.flags

/-! ## The grammar -/

/-- A field of hexadecimal digits. -/
structure IsHexField (length : ℕ) (field : Bytes) : Prop where
  length_eq : field.length = length
  digits : ∀ c ∈ field, (Hex.value c).isSome

/-- An id is not all zeros. -/
structure IsId (length : ℕ) (id : Bytes) : Prop extends IsHexField length id where
  ne_zero : ∃ c ∈ id, c ≠ 48

/-- A header with these fields behind the version. -/
def layout (traceId parentId flags : Bytes) : Bytes :=
  ascii "00" ++ dash :: traceId ++ dash :: parentId ++ dash :: flags

/-- The grammar of version 00. -/
def IsTraceparent (header : Bytes) : Prop :=
  ∃ traceId parentId flags, IsId kTraceIdLength traceId ∧ IsId kParentIdLength parentId ∧
    IsHexField 2 flags ∧ header = layout traceId parentId flags

/-! ## Digits -/

theorem isSome_value_iff (c : UInt8) :
    (Hex.value c).isSome ↔ 65 ≤ c ∧ c ≤ 70 ∨ isLowerHex c = true := by
  have hall : ∀ c : UInt8, (Hex.value c).isSome ↔ 65 ≤ c ∧ c ≤ 70 ∨ isLowerHex c = true :=
    Hex.forall_byte (by decide +kernel)
  exact hall c

theorem lower_eq (c : UInt8) : Hex.lower c = if 65 ≤ c ∧ c ≤ 70 then c - 65 + 97 else c := by
  have hall : ∀ c : UInt8, Hex.lower c = if 65 ≤ c ∧ c ≤ 70 then c - 65 + 97 else c :=
    Hex.forall_byte (by decide +kernel)
  exact hall c

theorem toLower_of_digit {c : UInt8} (h : (Hex.value c).isSome) : toLower c = Hex.lower c := by
  have hall : ∀ c : UInt8, (Hex.value c).isSome → toLower c = Hex.lower c :=
    Hex.forall_byte (by decide +kernel)
  exact hall c h

theorem pair_eq_hexNibble {hi lo : UInt8} (hhi : (Hex.value hi).isSome)
    (hlo : (Hex.value lo).isSome) :
    Hex.pair hi lo = some (hexNibble hi <<< 4 ||| hexNibble lo) := by
  have hnibble : ∀ c : UInt8, ∀ n ∈ Hex.value c, hexNibble c = n.toUInt8 :=
    Hex.forall_byte (by decide +kernel)
  have hshift : ∀ h l : Fin 16,
      h.val.toUInt8 <<< 4 ||| l.val.toUInt8 = (16 * h.val + l.val).toUInt8 := by decide +kernel
  obtain ⟨h, hh⟩ := Option.isSome_iff_exists.mp hhi
  obtain ⟨l, hl⟩ := Option.isSome_iff_exists.mp hlo
  rw [Hex.pair, hh, hl, hnibble hi h hh, hnibble lo l hl,
    hshift ⟨h, Hex.value_lt hh⟩ ⟨l, Hex.value_lt hl⟩]

/-- **The loop over an id** accepts digits, and stores them in lower case. -/
theorem readId_eq_some_iff {cs : Bytes} : ∀ {stored id : Bytes} {allZero allZero' : Bool},
    readId stored allZero cs = some (id, allZero') ↔ (∀ c ∈ cs, (Hex.value c).isSome) ∧
      id = stored ++ cs.map Hex.lower ∧ allZero' = (allZero && cs.all (· == 48)) := by
  induction cs with
  | nil =>
    intro stored id allZero allZero'
    rw [readId, Option.some.injEq, Prod.mk.injEq]
    constructor
    · rintro ⟨rfl, rfl⟩
      exact ⟨fun _ h ↦ absurd h List.not_mem_nil, (List.append_nil _).symm, (Bool.and_true _).symm⟩
    · rintro ⟨-, hid, hzero⟩
      exact ⟨(hid.trans (List.append_nil _)).symm, (hzero.trans (Bool.and_true _)).symm⟩
  | cons c cs ih =>
    intro stored id allZero allZero'
    rw [readId, List.forall_mem_cons, isSome_value_iff, List.map_cons, lower_eq, List.all_cons]
    by_cases hupper : 65 ≤ c ∧ c ≤ 70
    · have hzero : (c == 48) = false := by
        rw [beq_eq_false_iff_ne]
        rintro rfl
        exact absurd hupper.1 (by decide)
      rw [if_pos hupper, if_pos hupper, ih, hzero, List.append_assoc, List.singleton_append,
        Bool.false_and, Bool.and_false, and_iff_right (Or.inl hupper)]
    · rw [if_neg hupper, if_neg hupper, or_iff_right hupper]
      split_ifs with hlower
      · rw [ih, List.append_assoc, List.singleton_append, Bool.and_assoc, and_iff_right hlower]
      · exact iff_of_false (by simp) fun h ↦ hlower h.1.1

theorem readId_iff_isId {cs id : Bytes} :
    readId [] true cs = some (id, false) ↔ IsId cs.length cs ∧ id = cs.map Hex.lower := by
  have hzero : (false = (true && cs.all (· == 48))) ↔ ∃ c ∈ cs, c ≠ 48 := by
    rw [Bool.true_and, eq_comm, List.all_eq_false]
    simp only [beq_iff_eq, ne_eq]
  rw [readId_eq_some_iff, hzero, List.nil_append]
  constructor
  · exact fun ⟨hdigits, hid, hne⟩ ↦ ⟨⟨⟨rfl, hdigits⟩, hne⟩, hid⟩
  · exact fun ⟨h, hid⟩ ↦ ⟨h.digits, hid, h.ne_zero⟩

/-! ## Positions -/

theorem layout_eq (traceId parentId flags : Bytes) : layout traceId parentId flags =
    48 :: 48 :: dash :: (traceId ++ dash :: (parentId ++ dash :: flags)) := by
  rw [layout, List.append_assoc, List.append_assoc]
  rfl

theorem drop_layout {traceId parentId : Bytes} (htrace : traceId.length = 32)
    (hparent : parentId.length = 16) (flags : Bytes) :
    (layout traceId parentId flags).drop 3 = traceId ++ dash :: (parentId ++ dash :: flags) ∧
      (layout traceId parentId flags).drop 35 = dash :: (parentId ++ dash :: flags) ∧
      (layout traceId parentId flags).drop 52 = dash :: flags := by
  have hfirst : (layout traceId parentId flags).drop 3 =
      traceId ++ dash :: (parentId ++ dash :: flags) := by
    rw [layout_eq]
    rfl
  have hsecond : (layout traceId parentId flags).drop 35 =
      dash :: (parentId ++ dash :: flags) := by
    rw [show 35 = 3 + 32 from rfl, ← List.drop_drop, hfirst, List.drop_left' htrace]
  refine ⟨hfirst, hsecond, ?_⟩
  rw [show 52 = 35 + (16 + 1) from rfl, ← List.drop_drop, hsecond, List.drop_succ_cons,
    List.drop_left' hparent]

/-- A header with the separators and the version at their places. -/
theorem eq_layout {header : Bytes} (hversion₀ : header[0]? = some 48)
    (hversion₁ : header[1]? = some 48) (hdash₀ : header[2]? = some dash)
    (hdash₁ : header[35]? = some dash) (hdash₂ : header[52]? = some dash) :
    header = layout ((header.drop 3).take 32) ((header.drop 36).take 16) (header.drop 53) := by
  have hcons {i : ℕ} {b : UInt8} (h : header[i]? = some b) :
      header.drop i = b :: header.drop (i + 1) := by
    obtain ⟨hi, -⟩ := List.getElem?_eq_some_iff.mp h
    rw [drop_eq_cons hi, List.getD_eq_getElem?_getD, h, Option.getD_some]
  have hparent : header.drop 36 = (header.drop 36).take 16 ++ dash :: header.drop 53 := by
    rw [← hcons hdash₂, show 52 = 36 + 16 from rfl, ← List.drop_drop,
      List.take_append_drop]
  have htrace : header.drop 3 = (header.drop 3).take 32 ++ dash :: header.drop 36 := by
    rw [← hcons hdash₁, show 35 = 3 + 32 from rfl, ← List.drop_drop,
      List.take_append_drop]
  calc header = 48 :: 48 :: dash :: header.drop 3 := by
        rw [← hcons hdash₀, ← hcons hversion₁, ← hcons hversion₀, List.drop_zero]
    _ = 48 :: 48 :: dash :: ((header.drop 3).take 32 ++
          dash :: ((header.drop 36).take 16 ++ dash :: header.drop 53)) := by
        rw [← hparent, ← htrace]
    _ = layout ((header.drop 3).take 32) ((header.drop 36).take 16) (header.drop 53) :=
        (layout_eq _ _ _).symm

/-! ## The parser and the grammar -/

theorem isHexField_two_iff {flags : Bytes} : IsHexField 2 flags ↔
    ∃ hi lo, flags = [hi, lo] ∧ (Hex.value hi).isSome ∧ (Hex.value lo).isSome := by
  constructor
  · rintro ⟨hlen, hdigits⟩
    obtain ⟨hi, lo, rfl⟩ := List.length_eq_two.mp hlen
    exact ⟨hi, lo, rfl, hdigits hi (by simp), hdigits lo (by simp)⟩
  · rintro ⟨hi, lo, rfl, hhi, hlo⟩
    refine ⟨rfl, fun c hc ↦ ?_⟩
    rcases List.mem_pair.mp hc with rfl | rfl
    · exact hhi
    · exact hlo

theorem flagsCheck_iff (hi lo : UInt8) :
    ([hi, lo].all fun c ↦ isLowerHex c || (65 ≤ c && c ≤ 70)) = true ↔
      (Hex.value hi).isSome ∧ (Hex.value lo).isSome := by
  have hdigit : ∀ c : UInt8, (isLowerHex c || (65 ≤ c && c ≤ 70)) = true ↔
      (Hex.value c).isSome := by
    intro c
    rw [isSome_value_iff, or_comm, Bool.or_eq_true, Bool.and_eq_true, decide_eq_true_iff,
      decide_eq_true_iff]
  rw [List.all_cons, List.all_cons, List.all_nil, Bool.and_true, Bool.and_eq_true, hdigit, hdigit]

/-- What is parsed from the fields of a header. -/
def TraceParent.ofFields (traceId parentId : Bytes) (hi lo : UInt8) : TraceParent :=
  ⟨traceId.map Hex.lower, parentId.map Hex.lower, hexNibble hi <<< 4 ||| hexNibble lo⟩

theorem parseTraceparent_layout {traceId parentId : Bytes} {hi lo : UInt8}
    (htrace : IsId kTraceIdLength traceId) (hparent : IsId kParentIdLength parentId)
    (hhi : (Hex.value hi).isSome) (hlo : (Hex.value lo).isSome) :
    parseTraceparent (layout traceId parentId [hi, lo]) =
      some (.ofFields traceId parentId hi lo) := by
  obtain ⟨h3, h35, h52⟩ := drop_layout htrace.length_eq hparent.length_eq [hi, lo]
  have h36 : (layout traceId parentId [hi, lo]).drop 36 = parentId ++ dash :: [hi, lo] := by
    rw [← List.drop_drop (i := 1) (j := 35), h35]
    rfl
  have h53 : (layout traceId parentId [hi, lo]).drop 53 = [hi, lo] := by
    rw [← List.drop_drop (i := 1) (j := 52), h52]
    rfl
  have hlen : (layout traceId parentId [hi, lo]).length = kTraceParentLength := by
    simp only [layout_eq, List.length_cons, List.length_append, List.length_nil,
      htrace.length_eq, hparent.length_eq]
    rfl
  have hdashes : (layout traceId parentId [hi, lo])[2]? = some dash ∧
      (layout traceId parentId [hi, lo])[35]? = some dash ∧
      (layout traceId parentId [hi, lo])[52]? = some dash := by
    rw [← List.head?_drop, ← List.head?_drop, ← List.head?_drop, h35, h52, layout_eq]
    exact ⟨rfl, rfl, rfl⟩
  have hversion : (layout traceId parentId [hi, lo])[0]? = some 48 ∧
      (layout traceId parentId [hi, lo])[1]? = some 48 := by
    rw [layout_eq]
    exact ⟨rfl, rfl⟩
  have hid := readId_iff_isId.mpr ⟨htrace.length_eq.symm ▸ htrace, rfl⟩
  have hid' := readId_iff_isId.mpr ⟨hparent.length_eq.symm ▸ hparent, rfl⟩
  unfold parseTraceparent
  rw [if_neg (not_not.mpr hlen), if_neg (by simp [hdashes]), if_neg (by simp [hversion]), h3,
    List.take_left' htrace.length_eq, h36, List.take_left' hparent.length_eq, hid, hid', h53]
  dsimp only
  rw [if_neg Bool.false_ne_true, if_neg Bool.false_ne_true,
    if_pos ((flagsCheck_iff hi lo).mpr ⟨hhi, hlo⟩)]
  rfl

/-- What has been parsed was a header of the grammar. -/
theorem eq_layout_of_parseTraceparent {header : Bytes} {trace : TraceParent}
    (h : parseTraceparent header = some trace) : ∃ traceId parentId hi lo,
      IsId kTraceIdLength traceId ∧ IsId kParentIdLength parentId ∧
        ((Hex.value hi).isSome ∧ (Hex.value lo).isSome) ∧
        header = layout traceId parentId [hi, lo] ∧ trace = .ofFields traceId parentId hi lo := by
  unfold parseTraceparent at h
  split_ifs at h with hlen hdashes hversion
  simp only [not_or, not_not] at hlen hdashes hversion
  have hheader := eq_layout hversion.1 hversion.2 hdashes.1 hdashes.2.1 hdashes.2.2
  have hlength : ((header.drop 3).take kTraceIdLength).length = kTraceIdLength := by
    rw [List.length_take_of_le]
    rw [List.length_drop, hlen]
    decide
  have hlength' : ((header.drop 36).take kParentIdLength).length = kParentIdLength := by
    rw [List.length_take_of_le]
    rw [List.length_drop, hlen]
    decide
  split at h
  · cases h
  next traceId allZero htrace =>
    split_ifs at h with hzero
    split at h
    · cases h
    next parentId allZero' hparent =>
      split_ifs at h with hzero'
      rw [Bool.not_eq_true] at hzero hzero'
      subst hzero hzero'
      obtain ⟨hid, rfl⟩ := readId_iff_isId.mp htrace
      obtain ⟨hid', rfl⟩ := readId_iff_isId.mp hparent
      rw [hlength] at hid
      rw [hlength'] at hid'
      split at h
      next hi lo hflags =>
        split_ifs at h with hcheck
        rw [hflags] at hheader
        exact ⟨_, _, hi, lo, hid, hid', (flagsCheck_iff hi lo).mp hcheck, hheader,
          (Option.some.inj h).symm⟩
      · cases h

theorem map_toLower_of_digits {field : Bytes} (h : ∀ c ∈ field, (Hex.value c).isSome) :
    field.map toLower = field.map Hex.lower :=
  List.map_congr_left fun c hc ↦ toLower_of_digit (h c hc)

/-- **What is parsed is written back**, in lower case. -/
theorem render_ofFields {traceId parentId : Bytes} {hi lo : UInt8}
    (htrace : IsId kTraceIdLength traceId) (hparent : IsId kParentIdLength parentId)
    (hhi : (Hex.value hi).isSome) (hlo : (Hex.value lo).isSome) :
    (TraceParent.ofFields traceId parentId hi lo).render =
      (layout traceId parentId [hi, lo]).map toLower := by
  have hflags : Hex.render (hexNibble hi <<< 4 ||| hexNibble lo) = [toLower hi, toLower lo] := by
    rw [Hex.render_of_pair (pair_eq_hexNibble hhi hlo), toLower_of_digit hhi, toLower_of_digit hlo]
  rw [layout, List.map_append, List.map_append, List.map_append, List.map_cons, List.map_cons,
    List.map_cons, map_toLower_of_digits htrace.digits, map_toLower_of_digits hparent.digits,
    TraceParent.render, TraceParent.ofFields, hflags]
  rfl

/-- **The header of version 00.** A text is parsed exactly if it is in the grammar, and what is
parsed is written back in lower case. -/
theorem parseTraceparent_iff (header : Bytes) :
    ((∃ trace, parseTraceparent header = some trace) ↔ IsTraceparent header) ∧
      ∀ trace, parseTraceparent header = some trace → trace.render = header.map toLower := by
  constructor
  · constructor
    · rintro ⟨trace, h⟩
      obtain ⟨traceId, parentId, hi, lo, htrace, hparent, hflags, hheader, -⟩ :=
        eq_layout_of_parseTraceparent h
      exact ⟨traceId, parentId, [hi, lo], htrace, hparent,
        isHexField_two_iff.mpr ⟨hi, lo, rfl, hflags⟩, hheader⟩
    · rintro ⟨traceId, parentId, flags, htrace, hparent, hflags, rfl⟩
      obtain ⟨hi, lo, rfl, hhi, hlo⟩ := isHexField_two_iff.mp hflags
      exact ⟨_, parseTraceparent_layout htrace hparent hhi hlo⟩
  · intro trace h
    obtain ⟨traceId, parentId, hi, lo, htrace, hparent, ⟨hhi, hlo⟩, rfl, rfl⟩ :=
      eq_layout_of_parseTraceparent h
    exact render_ofFields htrace hparent hhi hlo

example : (parseTraceparent
    (ascii "00-4BF92F3577B34DA6A3CE929D0E0E4736-00F067AA0BA902B7-01")).map TraceParent.render =
      some (ascii "00-4bf92f3577b34da6a3ce929d0e0e4736-00f067aa0ba902b7-01") := by decide +kernel

end Aevox
