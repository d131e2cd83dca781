import Aevox.Http.Response
import Aevox.Library.Delimited
import Mathlib.Data.List.DropRight

/-!
# Reading a response back

The other end of the connection: a strict RFC 9112 reader for one response message. It takes the
status line and the field lines up to the blank line, splits every field at its first colon, trims
optional whitespace around the value, and frames the body by `Content-Length`. It refuses what a
recipient must not interpret: field names that are not tokens, carriage returns, line feeds and
NULs inside a value, differing `Content-Length` fields, and a `Transfer-Encoding`, which would
override the length.

Everything the reader hands out therefore satisfies `FieldWellFormed`. That is the whole content of
the characterization below: a response whose header map holds something else cannot be read back as
itself, and one whose header map does not is read back exactly.
-/

namespace Aevox

open Delimited

/-! ## Decimals -/

/-- `DIGIT` -/
def isDigit (b : UInt8) : Bool := 48 ≤ b && b ≤ 57

/-- The number a non-empty digit string denotes. -/
def parseDecimal (text : Bytes) : Option ℕ :=
  if text ≠ [] ∧ text.all isDigit then
    some (text.foldl (fun n b ↦ 10 * n + (b.toNat - 48)) 0)
  else none

private theorem toNat_ofChar_of_isDigit {c : Char} (h : c.isDigit = true) :
    isDigit c.toNat.toUInt8 = true ∧ c.toNat.toUInt8.toNat = c.toNat := by
  have hc : 48 ≤ c.toNat ∧ c.toNat ≤ 57 := by
    simp only [Char.isDigit, Bool.and_eq_true, decide_eq_true_eq] at h
    exact h
  have hval : c.toNat.toUInt8.toNat = c.toNat := by
    rw [Nat.toUInt8, UInt8.toNat_ofNat']
    omega
  refine ⟨?_, hval⟩
  simp only [isDigit, Bool.and_eq_true, decide_eq_true_eq, UInt8.le_iff_toNat_le, hval]
  exact hc

theorem decimal_ne_nil (n : ℕ) : decimal n ≠ [] := by
  rw [decimal, ne_eq, List.map_eq_nil_iff]
  exact Nat.toDigits_ne_nil

theorem isDigit_of_mem_decimal {n : ℕ} {b : UInt8} (h : b ∈ decimal n) : isDigit b = true := by
  obtain ⟨c, hc, rfl⟩ := List.mem_map.mp h
  exact (toNat_ofChar_of_isDigit
    (Nat.isDigit_of_mem_toDigits (by decide) (by decide) hc)).1

theorem parseDecimal_decimal (n : ℕ) : parseDecimal (decimal n) = some n := by
  have hall : (decimal n).all isDigit = true :=
    List.all_eq_true.mpr fun b hb ↦ isDigit_of_mem_decimal hb
  rw [parseDecimal, if_pos ⟨decimal_ne_nil n, hall⟩, decimal, List.foldl_map]
  have hfold : ∀ (cs : List Char) (init : ℕ), (∀ c ∈ cs, c.isDigit = true) →
      cs.foldl (fun m c ↦ 10 * m + (c.toNat.toUInt8.toNat - 48)) init
        = Nat.ofDigitChars 10 cs init := by
    intro cs
    induction cs with
    | nil => intro init _; rfl
    | cons c cs ih =>
      intro init h
      rw [List.foldl_cons, ih _ fun d hd ↦ h d (List.mem_cons_of_mem _ hd),
        Nat.ofDigitChars_cons, (toNat_ofChar_of_isDigit (h c List.mem_cons_self)).2]
      rfl
  rw [hfold _ _ fun c hc ↦ Nat.isDigit_of_mem_toDigits (by decide) (by decide) hc,
    Nat.ofDigitChars_ten_toDigits]

/-! ## Fields -/

/-- `tchar` -/
def isTchar (b : UInt8) : Bool :=
  isDigit b || (65 ≤ b && b ≤ 90) || (97 ≤ b && b ≤ 122) ||
    b ∈ ([33, 35, 36, 37, 38, 39, 42, 43, 45, 46, 94, 95, 96, 124, 126] : Bytes)

/-- A field name: a non-empty token. -/
def isToken (name : Bytes) : Bool := name ≠ [] && name.all isTchar

/-- Optional whitespace: a space or a tab. -/
def isOws (b : UInt8) : Bool := b == 32 || b == 9

/-- The value without the optional whitespace around it. -/
def trimOws (v : Bytes) : Bytes := (v.dropWhile isOws).rdropWhile isOws

/-- A byte a recipient must not pass on inside a field value. -/
def isForbiddenInValue (b : UInt8) : Bool := b == cr || b == lf || b == 0

/-- One field line: `field-name ":" OWS field-value OWS`. -/
def parseField (line : Bytes) : Option (Bytes × Bytes) :=
  match line.dropWhile (· ≠ 58) with
  | [] => none
  | _ :: rest =>
    if isToken (line.takeWhile (· ≠ 58)) ∧ ¬(trimOws rest).any isForbiddenInValue then
      some (line.takeWhile (· ≠ 58), trimOws rest)
    else none

/-- What every field handed out by the reader looks like. -/
def FieldWellFormed (field : Bytes × Bytes) : Prop :=
  isToken field.1 = true ∧ field.2.any isForbiddenInValue = false ∧ trimOws field.2 = field.2

instance (field : Bytes × Bytes) : Decidable (FieldWellFormed field) :=
  inferInstanceAs (Decidable (_ ∧ _ ∧ _))

theorem trimOws_trimOws (v : Bytes) : trimOws (trimOws v) = trimOws v := by
  set w := v.dropWhile isOws with hw
  have hpre : w.rdropWhile isOws <+: w := List.rdropWhile_prefix _ _
  have hfront : (w.rdropWhile isOws).dropWhile isOws = w.rdropWhile isOws := by
    rw [List.dropWhile_eq_self_iff]
    intro hl
    have hne : w ≠ [] := fun h ↦ by simp [h] at hl
    have hhead := List.head_dropWhile_not isOws (l := v) (hw ▸ hne)
    have hget : (w.rdropWhile isOws)[0] = w.head hne := by
      rw [hpre.getElem hl, List.getElem_zero]
    rw [hget, Bool.not_eq_true]
    exact hhead
  rw [trimOws, trimOws, ← hw, hfront, List.rdropWhile_idempotent]

theorem wellFormed_of_parseField {line : Bytes} {field : Bytes × Bytes}
    (h : parseField line = some field) : FieldWellFormed field := by
  rw [parseField] at h
  split at h
  · cases h
  · split at h
    · rename_i hok
      cases h
      exact ⟨hok.1, by simpa using hok.2, trimOws_trimOws _⟩
    · cases h

theorem colon_not_mem_of_isToken {name : Bytes} (h : isToken name = true) :
    (58 : UInt8) ∉ name := by
  intro hmem
  rw [isToken, Bool.and_eq_true, List.all_eq_true] at h
  have := h.2 58 hmem
  revert this
  decide

theorem parseField_line {field : Bytes × Bytes} (h : FieldWellFormed field) :
    parseField (field.1 ++ ascii ": " ++ field.2) = some field := by
  obtain ⟨htok, hclean, htrim⟩ := h
  have hname : ∀ b ∈ field.1, decide (b ≠ 58) = true := fun b hb ↦ by
    have : b ≠ 58 := fun he ↦ colon_not_mem_of_isToken htok (he ▸ hb)
    simp [this]
  have hsplit : field.1 ++ ascii ": " ++ field.2 = field.1 ++ 58 :: 32 :: field.2 := by
    rw [List.append_assoc]
    rfl
  have hows : trimOws (32 :: field.2) = field.2 := by
    rw [trimOws, List.dropWhile_cons_of_pos (by decide), ← trimOws, htrim]
  have htake : (field.1 ++ 58 :: 32 :: field.2).takeWhile (· ≠ 58) = field.1 := by
    rw [List.takeWhile_append_of_pos hname]
    simp
  have hdrop : (field.1 ++ 58 :: 32 :: field.2).dropWhile (· ≠ 58) = 58 :: 32 :: field.2 := by
    rw [List.dropWhile_append_of_pos hname]
    simp
  rw [hsplit, parseField, hdrop, htake]
  simp only [hows, htok, hclean, Bool.false_eq_true, not_false_eq_true, and_self, if_true]

/-! ## Messages -/

/-- One response message as its recipient sees it. -/
structure WireResponse where
  statusCode : ℕ
  fields : List (Bytes × Bytes)
  body : Bytes
  deriving DecidableEq

/-- `"HTTP/1.1" SP 3DIGIT SP [ reason-phrase ]` -/
def parseStatusLine (line : Bytes) : Option ℕ :=
  if line.take 9 = ascii "HTTP/1.1 " ∧ ((line.drop 9).take 3).length = 3 ∧
      (line.drop 12).take 1 = [32] then
    parseDecimal ((line.drop 9).take 3)
  else none

/-- The length the `Content-Length` fields agree on. -/
def contentLengthOf (fields : List (Bytes × Bytes)) : Option ℕ :=
  match fields.filter fun f ↦ equalIgnoreCase f.1 (ascii "Content-Length") with
  | [] => none
  | f :: fs =>
    if fs.all (fun g ↦ parseDecimal g.2 = parseDecimal f.2) then parseDecimal f.2 else none

/-- Reads one message and returns it with the bytes that follow it. -/
def readResponse (wire : Bytes) : Option (WireResponse × Bytes) :=
  match headLines cr lf [] wire with
  | some (first :: lines, rest) => do
    let code ← parseStatusLine first
    let fields ← lines.mapM parseField
    if fields.any fun f ↦ equalIgnoreCase f.1 (ascii "Transfer-Encoding") then none
    else
      let size ← contentLengthOf fields
      if size ≤ rest.length then some (⟨code, fields, rest.take size⟩, rest.drop size) else none
  | _ => none

/-! ### What the reader guarantees -/

/-- The lengths agree on `n` when there is one and every one of them is `n`. -/
theorem contentLengthOf_eq_some_iff {fields : List (Bytes × Bytes)} {n : ℕ} :
    contentLengthOf fields = some n ↔
      (∃ f ∈ fields, equalIgnoreCase f.1 (ascii "Content-Length") = true) ∧
        ∀ f ∈ fields, equalIgnoreCase f.1 (ascii "Content-Length") = true →
          parseDecimal f.2 = some n := by
  have hmem : ∀ f, f ∈ fields.filter (fun f ↦ equalIgnoreCase f.1 (ascii "Content-Length"))
      ↔ f ∈ fields ∧ equalIgnoreCase f.1 (ascii "Content-Length") = true :=
    fun f ↦ List.mem_filter
  rw [contentLengthOf]
  cases hf : fields.filter fun f ↦ equalIgnoreCase f.1 (ascii "Content-Length") with
  | nil =>
    rw [hf] at hmem
    apply iff_of_false (by simp)
    rintro ⟨⟨f, hf₁, hf₂⟩, -⟩
    exact List.not_mem_nil ((hmem f).mpr ⟨hf₁, hf₂⟩)
  | cons f fs =>
    rw [hf] at hmem
    obtain ⟨hfin, hfcl⟩ := (hmem f).mp List.mem_cons_self
    simp only [Option.ite_none_right_eq_some, List.all_eq_true, decide_eq_true_eq]
    constructor
    · rintro ⟨hall, hn⟩
      refine ⟨⟨f, hfin, hfcl⟩, fun g hg hgcl ↦ ?_⟩
      rcases List.mem_cons.mp ((hmem g).mpr ⟨hg, hgcl⟩) with rfl | hg'
      · exact hn
      · rw [hall g hg', hn]
    · rintro ⟨-, hall⟩
      refine ⟨fun g hg ↦ ?_, hall f hfin hfcl⟩
      obtain ⟨hg₁, hg₂⟩ := (hmem g).mp (List.mem_cons_of_mem _ hg)
      rw [hall g hg₁ hg₂, hall f hfin hfcl]

theorem wellFormed_of_mapM {lines : List Bytes} : ∀ {fields : List (Bytes × Bytes)},
    lines.mapM parseField = some fields → ∀ f ∈ fields, FieldWellFormed f := by
  induction lines with
  | nil =>
    intro fields h f hf
    obtain rfl : [] = fields := by simpa using h
    exact absurd hf List.not_mem_nil
  | cons line lines ih =>
    intro fields h f hf
    simp only [List.mapM_cons, Option.bind_eq_bind, Option.bind_eq_some_iff, Option.pure_def,
      Option.some.injEq] at h
    obtain ⟨g, hg, gs, hgs, rfl⟩ := h
    rcases List.mem_cons.mp hf with rfl | hf'
    · exact wellFormed_of_parseField hg
    · exact ih hgs f hf'

theorem mapM_parseField {fields : List (Bytes × Bytes)} (h : ∀ f ∈ fields, FieldWellFormed f) :
    (fields.map fun f ↦ f.1 ++ ascii ": " ++ f.2).mapM parseField = some fields := by
  induction fields with
  | nil => rfl
  | cons f fs ih =>
    rw [List.map_cons, List.mapM_cons, parseField_line (h f List.mem_cons_self),
      ih fun g hg ↦ h g (List.mem_cons_of_mem _ hg)]
    rfl

/-- **The reader vouches for what it hands out**: well-formed fields, none of which is a
`Transfer-Encoding`, and a body as long as every `Content-Length` says. -/
theorem of_readResponse {wire rest : Bytes} {m : WireResponse}
    (h : readResponse wire = some (m, rest)) :
    (∀ f ∈ m.fields, FieldWellFormed f) ∧
      (∀ f ∈ m.fields, equalIgnoreCase f.1 (ascii "Transfer-Encoding") = false) ∧
      contentLengthOf m.fields = some m.body.length := by
  rw [readResponse] at h
  split at h
  · rename_i first lines tail _
    simp only [Option.bind_eq_bind, Option.bind_eq_some_iff] at h
    obtain ⟨code, -, fields, hfields, h⟩ := h
    split at h
    · cases h
    · rename_i hte
      simp only [Option.bind_eq_some_iff] at h
      obtain ⟨size, hsize, h⟩ := h
      split at h
      · rename_i hle
        cases h
        refine ⟨wellFormed_of_mapM hfields, fun f hf ↦ ?_, ?_⟩
        · rw [List.any_eq_true, not_exists] at hte
          by_contra hc
          exact hte f ⟨hf, by simpa using hc⟩
        · rw [List.length_take, Nat.min_eq_left hle]
          exact hsize
      · cases h
  · cases h

/-! ## The round trip -/

/-- The entries of the header map, in the order of one iteration. -/
def Response.headerEntries (res : Response) : List (Bytes × Bytes) :=
  (res.impl.map fun i ↦ i.headers.entries).getD []

/-- The bytes of `res` are one response message, all of it, with the status code, the header fields
(the generated `Content-Length` included, in any order) and the body of `res`. -/
def ReadsBack (res : Response) : Prop :=
  ∃ m, readResponse (serializeResponse res) = some (m, []) ∧ m.statusCode = res.statusCode ∧
    m.fields.Perm res.wireFields ∧ m.body = res.bodyView

/-- A stored header a body of `size` bytes may travel with: a well-formed field that is no
`Transfer-Encoding` and, if it is a `Content-Length`, states that size. -/
def FramedHeader (size : ℕ) (h : Bytes × Bytes) : Prop :=
  FieldWellFormed h ∧ equalIgnoreCase h.1 (ascii "Transfer-Encoding") = false ∧
    (equalIgnoreCase h.1 (ascii "Content-Length") = true → parseDecimal h.2 = some size)

instance (size : ℕ) (h : Bytes × Bytes) : Decidable (FramedHeader size h) :=
  inferInstanceAs (Decidable (_ ∧ _ ∧ _))

private theorem ne_of_isDigit {b c : UInt8} (hb : isDigit b = true) (hc : isDigit c = false) :
    b ≠ c := by
  rintro rfl
  rw [hb] at hc
  exact Bool.noConfusion hc

private theorem trimOws_of_forall {v : Bytes} (h : ∀ b ∈ v, isOws b = false) : trimOws v = v := by
  have hfront : v.dropWhile isOws = v := by
    rw [List.dropWhile_eq_self_iff]
    intro hl
    rw [h _ (List.getElem_mem hl)]
    exact Bool.false_ne_true
  rw [trimOws, hfront, List.rdropWhile_eq_self_iff]
  intro hne
  rw [h _ (List.getLast_mem hne)]
  exact Bool.false_ne_true

theorem framedHeader_contentLengthField (size : ℕ) :
    FramedHeader size (contentLengthField size) := by
  have htok : isToken (ascii "Content-Length") = true := by decide
  have hte : equalIgnoreCase (ascii "Content-Length") (ascii "Transfer-Encoding") = false := by
    decide
  refine ⟨⟨htok, ?_, ?_⟩, hte, fun _ ↦ parseDecimal_decimal size⟩
  · rw [List.any_eq_false]
    intro b hb
    have hd := isDigit_of_mem_decimal hb
    have h₁ : b ≠ cr := ne_of_isDigit hd (by decide)
    have h₂ : b ≠ lf := ne_of_isDigit hd (by decide)
    have h₃ : b ≠ 0 := ne_of_isDigit hd (by decide)
    simp [isForbiddenInValue, h₁, h₂, h₃]
  · refine trimOws_of_forall fun b hb ↦ ?_
    have hd := isDigit_of_mem_decimal hb
    have h₁ : b ≠ 32 := ne_of_isDigit hd (by decide)
    have h₂ : b ≠ 9 := ne_of_isDigit hd (by decide)
    simp [isOws, h₁, h₂]

/-- The text of a status line, without its terminator. -/
def statusLineText (code : ℕ) : Bytes :=
  ascii "HTTP/1.1 " ++ decimal code ++ ascii " " ++ statusText code

private theorem statusLineText_spec : ∀ code ∈ factoryStatuses,
    statusLineText code ≠ [] ∧ cr ∉ statusLineText code ∧
      parseStatusLine (statusLineText code) = some code := by
  decide

theorem fieldText_spec {f : Bytes × Bytes} (h : FieldWellFormed f) :
    f.1 ++ ascii ": " ++ f.2 ≠ [] ∧ cr ∉ f.1 ++ ascii ": " ++ f.2 := by
  obtain ⟨htok, hclean, -⟩ := h
  refine ⟨fun hc ↦ ?_, fun hmem ↦ ?_⟩
  · have := (List.append_eq_nil_iff.mp (List.append_eq_nil_iff.mp hc).1).2
    revert this
    decide
  · rcases List.mem_append.mp hmem with hmem | hmem
    · rcases List.mem_append.mp hmem with hmem | hmem
      · rw [isToken, Bool.and_eq_true, List.all_eq_true] at htok
        have := htok.2 cr hmem
        revert this
        decide
      · revert hmem
        decide
    · rw [List.any_eq_false] at hclean
      exact hclean cr hmem (by decide)

/-- The header section written for well-formed fields is read back line by line. -/
theorem headLines_serializeResponse {res : Response} (hcode : res.statusCode ∈ factoryStatuses)
    (hwf : ∀ f ∈ res.wireFields, FieldWellFormed f) :
    headLines cr lf [] (serializeResponse res)
      = some (statusLineText res.statusCode ::
            res.wireFields.map (fun f ↦ f.1 ++ ascii ": " ++ f.2), res.bodyView) := by
  obtain ⟨hne, hcr, -⟩ := statusLineText_spec _ hcode
  have hwire : serializeResponse res
      = (statusLineText res.statusCode ::
            res.wireFields.map fun f ↦ f.1 ++ ascii ": " ++ f.2).flatMap (· ++ [cr, lf])
          ++ [cr, lf] ++ res.bodyView := by
    rw [serializeResponse, responseHead, List.flatMap_cons, List.flatMap_map]
    rfl
  rw [hwire]
  refine headLines_flatMap (by decide) ?_ ?_ _
  · intro l hl
    rcases List.mem_cons.mp hl with rfl | hl
    · exact hne
    · obtain ⟨f, hf, rfl⟩ := List.mem_map.mp hl
      exact (fieldText_spec (hwf f hf)).1
  · intro l hl
    rcases List.mem_cons.mp hl with rfl | hl
    · exact hcr
    · obtain ⟨f, hf, rfl⟩ := List.mem_map.mp hl
      exact (fieldText_spec (hwf f hf)).2

theorem mem_generatedFields {headers : List (Bytes × Bytes)} {size : ℕ} {f : Bytes × Bytes}
    (h : f ∈ generatedFields headers size) : f = contentLengthField size := by
  rw [generatedFields] at h
  split at h
  · exact absurd h List.not_mem_nil
  · exact List.mem_singleton.mp h

theorem framedHeader_wireFields {res : Response} {size : ℕ} (hsize : res.bodyView.length = size)
    (h : ∀ f ∈ res.headerEntries, FramedHeader size f) :
    ∀ f ∈ res.wireFields, FramedHeader size f := by
  subst hsize
  intro f hf
  cases res with | mk impl =>
  cases impl with
  | none =>
    rw [Response.wireFields, List.mem_singleton] at hf
    exact hf ▸ framedHeader_contentLengthField _
  | some i =>
    rcases List.mem_append.mp hf with hf | hf
    · rw [mem_generatedFields hf]
      exact framedHeader_contentLengthField _
    · exact h f hf

/-- Exactly one source of `Content-Length` is always on the wire. -/
theorem exists_contentLength_wireFields (res : Response) :
    ∃ f ∈ res.wireFields, equalIgnoreCase f.1 (ascii "Content-Length") = true := by
  have hgen : ∀ n, equalIgnoreCase (contentLengthField n).1 (ascii "Content-Length") = true :=
    fun n ↦ by
      show equalIgnoreCase (ascii "Content-Length") (ascii "Content-Length") = true
      decide
  cases res with | mk impl =>
  cases impl with
  | none => exact ⟨_, List.mem_singleton_self _, hgen _⟩
  | some i =>
    by_cases h : hasHeaderCaseInsensitive i.headers.entries (ascii "Content-Length") = true
    · rw [hasHeaderCaseInsensitive, List.any_eq_true] at h
      obtain ⟨f, hf, hcl⟩ := h
      exact ⟨f, List.mem_append_right _ hf, hcl⟩
    · refine ⟨contentLengthField i.body.length, List.mem_append_left _ ?_, hgen _⟩
      rw [generatedFields, if_neg h]
      exact List.mem_singleton_self _

/-- **The round trip, exactly.** A response that has not been moved from is read back as itself if
and only if every header it stores is framed by its body. -/
theorem readsBack_iff {res : Response} (hcode : res.statusCode ∈ factoryStatuses) :
    ReadsBack res ↔ ∀ h ∈ res.headerEntries, FramedHeader res.bodyView.length h := by
  constructor
  · -- the reader hands out framed fields only, and every stored header is one of them
    rintro ⟨m, hm, -, hperm, hbody⟩ h hh
    obtain ⟨hwf, hte, hlen⟩ := of_readResponse hm
    have hwire : h ∈ res.wireFields := by
      cases res with | mk impl =>
      cases impl with
      | none => exact absurd hh List.not_mem_nil
      | some i => exact List.mem_append_right _ hh
    have hmem : h ∈ m.fields := hperm.mem_iff.mpr hwire
    rw [contentLengthOf_eq_some_iff, hbody] at hlen
    exact ⟨hwf h hmem, hte h hmem, hlen.2 h hmem⟩
  · -- the serializer's own field is framed, so each step of the reader goes through
    intro hstored
    have hframed := framedHeader_wireFields rfl hstored
    have hwf : ∀ f ∈ res.wireFields, FieldWellFormed f := fun f hf ↦ (hframed f hf).1
    have hte :
        (res.wireFields.any fun f ↦ equalIgnoreCase f.1 (ascii "Transfer-Encoding")) = false :=
      List.any_eq_false.mpr fun f hf ↦ by rw [(hframed f hf).2.1]; exact Bool.false_ne_true
    have hlen : contentLengthOf res.wireFields = some res.bodyView.length :=
      contentLengthOf_eq_some_iff.mpr
        ⟨exists_contentLength_wireFields res, fun f hf ↦ (hframed f hf).2.2⟩
    refine ⟨⟨res.statusCode, res.wireFields, res.bodyView⟩, ?_, rfl, List.Perm.refl _, rfl⟩
    rw [readResponse, headLines_serializeResponse hcode hwf]
    simp only [Option.bind_eq_bind, (statusLineText_spec _ hcode).2.2, mapM_parseField hwf,
      Option.bind_some, hte, Bool.false_eq_true, if_false, hlen, le_refl, if_true, List.take_length,
      List.drop_length]

/-! ## Every sequence of builder calls -/

/-- A factory that makes a response for the wire, with its arguments. -/
inductive Factory where
  | ok (body : Bytes)
  | created (body : Bytes)
  | notFound (body : Bytes)
  | badRequest (body : Bytes)
  | unauthorized (body : Bytes)
  | forbidden (body : Bytes)
  | methodNotAllowed (body : Bytes)
  | json (body : Bytes)
  | jsonValue (serialized : Except Bytes Bytes)
  | jsonWithoutBackend
  | stream (contentType : Bytes)

/-- The response a factory returns. -/
def Factory.response : Factory → Response
  | .ok body => .ok body
  | .created body => .created body
  | .notFound body => .notFound body
  | .badRequest body => .badRequest body
  | .unauthorized body => .unauthorized body
  | .forbidden body => .forbidden body
  | .methodNotAllowed body => .methodNotAllowed body
  | .json body => .json body
  | .jsonValue serialized => .jsonValue serialized
  | .jsonWithoutBackend => .jsonWithoutBackend
  | .stream contentType => .stream contentType

/-- One call of the fluent builder. -/
inductive BuilderCall where
  | header (name value : Bytes)
  | contentType (ct : Bytes)

/-- What a builder call does to the response. -/
def BuilderCall.apply (res : Response) : BuilderCall → Response
  | .header name value => res.header name value
  | .contentType ct => res.contentType ct

/-- A factory followed by builder calls. -/
def buildResponse (factory : Factory) (calls : List BuilderCall) : Response :=
  calls.foldl BuilderCall.apply factory.response

/-- `res` is `built` with its header map visited in some other order. -/
def Reordered (built res : Response) : Prop :=
  res.statusCode = built.statusCode ∧ res.bodyView = built.bodyView ∧
    res.headerEntries.Perm built.headerEntries

theorem statusCode_response (factory : Factory) :
    factory.response.statusCode ∈ factoryStatuses := by
  have hne : factory.response.impl ≠ none := by
    cases factory with
    | jsonValue serialized => cases serialized <;> exact Option.some_ne_none _
    | _ => exact Option.some_ne_none _
  obtain ⟨i, hi⟩ := Option.ne_none_iff_exists'.mp hne
  rw [Response.statusCode, hi]
  exact i.status_mem

theorem statusCode_buildResponse (factory : Factory) (calls : List BuilderCall) :
    (buildResponse factory calls).statusCode ∈ factoryStatuses := by
  rw [buildResponse]
  induction calls using List.reverseRecOn with
  | nil => exact statusCode_response factory
  | append_singleton calls call ih =>
    rw [List.foldl_append, List.foldl_cons, List.foldl_nil]
    cases call with
    | header name value => rwa [BuilderCall.apply, Response.statusCode_header]
    | contentType ct => rwa [BuilderCall.apply, Response.contentType, Response.statusCode_header]

/-- **Framing on the wire.** Whatever the order in which the serializer visits the header map, a
response made by a factory and any builder calls is read back as itself exactly when every header
it ends up holding is framed by its body. -/
theorem serializeResponse_readsBack_iff {factory : Factory} {calls : List BuilderCall}
    {res : Response} (hres : Reordered (buildResponse factory calls) res) :
    ReadsBack res ↔ ∀ h ∈ (buildResponse factory calls).headerEntries,
      FramedHeader (buildResponse factory calls).bodyView.length h := by
  obtain ⟨hcode, hbody, hperm⟩ := hres
  rw [readsBack_iff (hcode ▸ statusCode_buildResponse factory calls), hbody]
  exact forall_congr' fun h ↦ by rw [hperm.mem_iff]

/-- `Response::ok("hi").header("X-Id", "7")`, its two headers visited in the other order. -/
theorem serializeResponse_readsBack_ok :
    ∃ res, Reordered (buildResponse (.ok (ascii "hi")) [.header (ascii "X-Id") (ascii "7")]) res ∧
      ReadsBack res := by
  refine ⟨buildResponse (.ok (ascii "hi")) [.header (ascii "X-Id") (ascii "7")],
    ⟨rfl, rfl, List.Perm.refl _⟩, ?_⟩
  exact (serializeResponse_readsBack_iff ⟨rfl, rfl, List.Perm.refl _⟩).mpr (by decide)

/-- A line break inside a header value splits it into two fields: the message read back has a field
the response does not hold. -/
theorem not_readsBack_of_line_break :
    ¬∀ (factory : Factory) (calls : List BuilderCall) (res : Response),
      Reordered (buildResponse factory calls) res → ReadsBack res := by
  intro h
  have hbad := h (.ok (ascii "hi")) [.header (ascii "X-Id") (ascii "7\r\nSet-Cookie: a=b")] _
    ⟨rfl, rfl, List.Perm.refl _⟩
  rw [readsBack_iff (by decide)] at hbad
  revert hbad
  decide

end Aevox
