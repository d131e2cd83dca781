import Aevox.Library.Json
import Aevox.Library.Utf8
import Aevox.Log.Writer
import Mathlib.Data.List.TakeWhile

/-!
# The text of a record

A record becomes one JSON object or one line of plain text. The JSON text is put together from
constants, from values that are escaped byte by byte, and from numbers. So it is an object with one
member for each part of the record (`formatJson_eq`), and no value can add to it: whatever the bytes
of a message or of a request are, they are read back as they were.

The bytes that are escaped are those that JSON does not allow in a string: quotes, backslashes, and
control characters, which are the ones below `0x20`.
-/

namespace Aevox

/-! ## Numbers and times -/

/-- `digits`, filled up with zeros on the left. -/
def zeroPad (width : ℕ) (digits : Bytes) : Bytes :=
  List.replicate (width - digits.length) 48 ++ digits

/-- `std::format("{}", n)` -/
def formatInt (n : ℤ) : Bytes := if n < 0 then 45 :: decimal n.natAbs else decimal n.natAbs

/-- `std::format` of a number with `0` and a width. The sign counts for the width. -/
def formatPadded (width : ℕ) (n : ℤ) : Bytes :=
  if n < 0 then 45 :: zeroPad (width - 1) (decimal n.natAbs) else zeroPad width (decimal n.natAbs)

/-- `std::format` of a byte as four hexadecimal digits. -/
def formatHex (n : ℕ) : Bytes := zeroPad 4 ((Nat.toDigits 16 n).map fun c ↦ c.toNat.toUInt8)

/-- `std::tm` -/
structure Tm where
  tmYear : ℤ
  tmMon : ℤ
  tmMday : ℤ
  tmHour : ℤ
  tmMin : ℤ
  tmSec : ℤ

abbrev kTmYearOffset : ℤ := 1900

/-- `gmtime_r`: the date in the proleptic Gregorian calendar. Years begin with March here, so that
the day a leap year has more is its last one, and 400 of them are an era. -/
def gmtime (time : ℤ) : Tm :=
  let days := time / 86400 + 719468
  let second := time % 86400
  let era := days / 146097
  let dayOfEra := days % 146097
  let yearOfEra := (dayOfEra - dayOfEra / 1460 + dayOfEra / 36524 - dayOfEra / 146096) / 365
  let dayOfYear := dayOfEra - (365 * yearOfEra + yearOfEra / 4 - yearOfEra / 100)
  let month := (5 * dayOfYear + 2) / 153
  let year := yearOfEra + era * 400
  { tmYear := (if month < 10 then year else year + 1) - kTmYearOffset
    tmMon := if month < 10 then month + 2 else month - 10
    tmMday := dayOfYear - (153 * month + 2) / 5 + 1
    tmHour := second / 3600
    tmMin := second % 3600 / 60
    tmSec := second % 60 }

/-- `format_timestamp`. Conversions to coarser units cut towards zero. -/
def formatTimestamp (timestamp : ℤ) : Bytes :=
  let seconds := timestamp.tdiv 1000000
  let micros := timestamp - seconds * 1000000
  let rawTime := timestamp.tdiv 1000000
  let utc := gmtime rawTime
  formatPadded 4 (utc.tmYear + kTmYearOffset) ++ ascii "-" ++ formatPadded 2 (utc.tmMon + 1) ++
    ascii "-" ++ formatPadded 2 utc.tmMday ++ ascii "T" ++ formatPadded 2 utc.tmHour ++
    ascii ":" ++ formatPadded 2 utc.tmMin ++ ascii ":" ++ formatPadded 2 utc.tmSec ++
    ascii "." ++ formatPadded 6 micros ++ ascii "Z"

/-! ## The two formats -/

inductive LogFormat where
  | json
  | pretty
  deriving DecidableEq

/-- `to_string` -/
def LogLevel.toString : LogLevel → Bytes
  | trace => ascii "TRACE"
  | debug => ascii "DEBUG"
  | info => ascii "INFO"
  | warn => ascii "WARN"
  | error => ascii "ERROR"
  | fatal => ascii "FATAL"

abbrev kJsonControlCharacterLimit : UInt8 := 0x20

/-- What `escape_json` appends for one byte. -/
def escapeByte (ch : UInt8) : Bytes :=
  if ch = 34 then ascii "\\\""
  else if ch = 92 then ascii "\\\\"
  else if ch = 8 then ascii "\\b"
  else if ch = 12 then ascii "\\f"
  else if ch = lf then ascii "\\n"
  else if ch = cr then ascii "\\r"
  else if ch = 9 then ascii "\\t"
  else if ch < kJsonControlCharacterLimit then ascii "\\u" ++ formatHex ch.toNat
  else [ch]

/-- `escape_json` -/
def escapeJson (value : Bytes) : Bytes := value.flatMap escapeByte

/-- `append_json_field` -/
def appendJsonField (out key value : Bytes) : Bytes :=
  out ++ ascii ",\"" ++ key ++ ascii "\":\"" ++ escapeJson value ++ ascii "\""

/-- The part of `format_json` that is about the request. -/
def appendRequest (out : Bytes) (record : LogRecord) (request : LogRequestFields) : Bytes :=
  let out := appendJsonField out (ascii "request_id") request.requestId
  let out := appendJsonField out (ascii "method") request.method
  let out := appendJsonField out (ascii "path") request.path
  let out := match record.statusCode with
    | some statusCode => out ++ ascii ",\"status\":" ++ formatInt statusCode
    | none => out
  let out := match record.duration with
    | some duration => out ++ ascii ",\"duration_us\":" ++ formatInt duration
    | none => out
  let out := if request.traceId ≠ [] then appendJsonField out (ascii "trace_id") request.traceId
    else out
  if request.spanId ≠ [] then appendJsonField out (ascii "span_id") request.spanId else out

/-- `format_json` -/
def formatJson (record : LogRecord) : Bytes :=
  let out := ascii "\x7b\"timestamp\":\"" ++ formatTimestamp record.timestamp ++
    ascii "\",\"level\":\"" ++ record.level.toString ++ ascii "\""
  let out := match record.request with
    | some request => appendRequest out record request
    | none => out
  appendJsonField out (ascii "message") record.message ++ ascii "\x7d"

/-- `format_pretty` -/
def formatPretty (record : LogRecord) : Bytes :=
  let out := formatTimestamp record.timestamp ++ ascii " " ++ record.level.toString
  let out := match record.request with
    | some request =>
      let out := out ++ ascii " req=" ++ request.requestId ++ ascii " " ++ request.method ++
        ascii " " ++ request.path
      let out := match record.statusCode with
        | some statusCode => out ++ ascii " status=" ++ formatInt statusCode
        | none => out
      match record.duration with
        | some duration => out ++ ascii " dur_us=" ++ formatInt duration
        | none => out
    | none => out
  out ++ ascii " " ++ record.message

/-- The text `write_record` gets for a record. -/
def LogFormat.text (format : LogFormat) (record : LogRecord) : Bytes :=
  match format with
  | json => formatJson record
  | pretty => formatPretty record

/-! ## What the pieces consist of -/

theorem decimal_of_lt {n : ℕ} (h : n < 10) : decimal n = [(48 + n).toUInt8] := by
  have hall : ∀ n : Fin 10, n.val.digitChar.toNat.toUInt8 = (48 + n.val).toUInt8 := by decide
  rw [decimal, Nat.toDigits_of_lt_base h, List.map_singleton, hall ⟨n, h⟩]

theorem decimal_of_le {n : ℕ} (h : 10 ≤ n) : decimal n = decimal (n / 10) ++ decimal (n % 10) := by
  rw [decimal, decimal, decimal, Nat.toDigits_of_base_le (by decide) h, List.map_append,
    Nat.toDigits_of_lt_base (Nat.mod_lt n (by decide))]

/-- The digits of a number, of which the first is zero for zero only. -/
theorem decimal_spec (n : ℕ) : (∀ b ∈ decimal n, Json.isDigit b = true) ∧
    ∃ b text, decimal n = b :: text ∧ (n ≠ 0 → b ≠ 48) := by
  have hdigit : ∀ n : Fin 10, Json.isDigit (48 + n.val).toUInt8 = true ∧
      (n.val ≠ 0 → (48 + n.val).toUInt8 ≠ 48) := by decide
  induction n using Nat.strong_induction_on with
  | h n ih =>
    by_cases hn : n < 10
    · have hspec := hdigit ⟨n, hn⟩
      rw [decimal_of_lt hn]
      exact ⟨fun b hb ↦ List.mem_singleton.mp hb ▸ hspec.1, _, [], rfl, hspec.2⟩
    · obtain ⟨hall, b, text, htext, hb⟩ := ih (n / 10) (by omega)
      have hlast := hdigit ⟨n % 10, Nat.mod_lt n (by decide)⟩
      rw [decimal_of_le (by omega), decimal_of_lt (Nat.mod_lt n (by decide))]
      refine ⟨?_, b, text ++ [(48 + n % 10).toUInt8], by rw [htext]; rfl,
        fun _ ↦ hb (by omega)⟩
      exact List.forall_mem_append.mpr ⟨hall, fun b hb ↦ List.mem_singleton.mp hb ▸ hlast.1⟩

theorem integer_decimal (n : ℕ) : Json.integer (decimal n) = some [] := by
  obtain ⟨hall, b, text, htext, hb⟩ := decimal_spec n
  by_cases hn : n = 0
  · rw [hn]
    rfl
  · rw [htext, List.forall_mem_cons] at hall
    rw [htext, Json.integer, if_neg (hb hn), Json.digits, if_pos hall.1,
      List.dropWhile_eq_nil_iff.mpr hall.2]

theorem isNumberByte_of_isDigit {b : UInt8} (h : Json.isDigit b = true) :
    Json.isNumberByte b = true := by
  rw [Json.isNumberByte, h]
  rfl

theorem formatInt_number (n : ℤ) : Json.isNumber (formatInt n) = true ∧
    ∀ b ∈ formatInt n, Json.isNumberByte b = true := by
  have hint := integer_decimal n.natAbs
  obtain ⟨hall, b, text, htext, -⟩ := decimal_spec n.natAbs
  have hbytes : ∀ b ∈ decimal n.natAbs, Json.isNumberByte b = true :=
    fun b hb ↦ isNumberByte_of_isDigit (hall b hb)
  rw [formatInt]
  by_cases hn : n < 0
  · rw [if_pos hn, Json.isNumber, List.head?_cons, if_pos rfl, List.tail_cons, hint]
    exact ⟨rfl, List.forall_mem_cons.mpr ⟨rfl, hbytes⟩⟩
  · have hsign : (decimal n.natAbs).head? ≠ some 45 := by
      intro hhead
      have hmem := hall 45 (List.mem_of_mem_head? hhead)
      exact absurd hmem (by decide)
    rw [if_neg hn, Json.isNumber, if_neg hsign, hint]
    exact ⟨rfl, hbytes⟩

/-- A byte that stands for itself in every format. -/
def IsPlainAscii (b : UInt8) : Prop := Json.IsPlain b ∧ b < 0x80

instance : DecidablePred IsPlainAscii := fun b ↦
  inferInstanceAs (Decidable (Json.IsPlain b ∧ b < 0x80))

theorem isPlainAscii_of_isNumberByte {b : UInt8} (h : Json.isNumberByte b = true) :
    IsPlainAscii b := by
  have hall : ∀ b : UInt8, Json.isNumberByte b = true → IsPlainAscii b :=
    Hex.forall_byte (by decide +kernel)
  exact hall b h

theorem formatInt_plain (n : ℤ) : ∀ b ∈ formatInt n, IsPlainAscii b :=
  fun b hb ↦ isPlainAscii_of_isNumberByte ((formatInt_number n).2 b hb)

theorem zeroPad_plain (width n : ℕ) : ∀ b ∈ zeroPad width (decimal n), IsPlainAscii b :=
  List.forall_mem_append.mpr
    ⟨fun b hb ↦ List.eq_of_mem_replicate hb ▸ by decide,
      fun b hb ↦ isPlainAscii_of_isNumberByte (isNumberByte_of_isDigit ((decimal_spec n).1 b hb))⟩

theorem formatPadded_plain (width : ℕ) (n : ℤ) : ∀ b ∈ formatPadded width n, IsPlainAscii b := by
  rw [formatPadded]
  split
  · exact List.forall_mem_cons.mpr ⟨by decide, zeroPad_plain _ _⟩
  · exact zeroPad_plain _ _

theorem formatTimestamp_plain (timestamp : ℤ) :
    ∀ b ∈ formatTimestamp timestamp, IsPlainAscii b := by
  simp only [formatTimestamp, List.forall_mem_append, and_assoc]
  refine ⟨formatPadded_plain _ _, ?_, formatPadded_plain _ _, ?_, formatPadded_plain _ _, ?_,
    formatPadded_plain _ _, ?_, formatPadded_plain _ _, ?_, formatPadded_plain _ _, ?_,
    formatPadded_plain _ _, ?_⟩ <;> decide +kernel

theorem toString_plain (level : LogLevel) : ∀ b ∈ level.toString, IsPlainAscii b := by
  have hall : (level.toString.all fun b ↦ IsPlainAscii b) = true := by
    rcases level <;> decide +kernel
  exact fun b hb ↦ of_decide_eq_true (List.all_eq_true.mp hall b hb)

/-! ## Escapes -/

/-- **What is written for one byte**: it is read back, and it is the byte itself unless that is an
ASCII character that JSON has to escape. -/
theorem escapeByte_spec (ch : UInt8) : Json.readChar (escapeByte ch) = some ([ch], []) ∧
    (∀ b ∈ escapeByte ch, ¬Json.IsControl b ∧ (ch < 0x80 → b < 0x80)) ∧
    (0x80 ≤ ch ∨ IsPlainAscii ch → escapeByte ch = [ch]) := by
  have hall : ∀ ch : UInt8, Json.readChar (escapeByte ch) = some ([ch], []) ∧
      ((escapeByte ch).all fun b ↦ ¬Json.IsControl b ∧ (ch < 0x80 → b < 0x80)) = true ∧
      (0x80 ≤ ch ∨ IsPlainAscii ch → escapeByte ch = [ch]) :=
    Hex.forall_byte (by decide +kernel)
  obtain ⟨hread, hescaped, hself⟩ := hall ch
  exact ⟨hread, fun b hb ↦ of_decide_eq_true (List.all_eq_true.mp hescaped b hb), hself⟩

theorem escapeJson_of_plain {value : Bytes} (h : ∀ b ∈ value, IsPlainAscii b) :
    escapeJson value = value :=
  Utf8.flatMap_eq_self fun b hb ↦ (escapeByte_spec b).2.2 (Or.inr (h b hb))

theorem isText_escapeJson {value : Bytes} (h : Utf8.IsText value) :
    Utf8.IsText (escapeJson value) :=
  Utf8.isText_flatMap
    (fun ch hch ↦ Utf8.isText_of_ascii fun b hb ↦ ((escapeByte_spec ch).2.1 b hb).2 hch)
    (fun ch hch ↦ (escapeByte_spec ch).2.2 (Or.inl hch)) h

/-! ## Members -/

/-- The keys of the members. -/
inductive JsonKey where
  | timestamp
  | level
  | requestId
  | method
  | path
  | status
  | durationUs
  | traceId
  | spanId
  | message
  deriving DecidableEq

def JsonKey.text : JsonKey → Bytes
  | timestamp => ascii "timestamp"
  | level => ascii "level"
  | requestId => ascii "request_id"
  | method => ascii "method"
  | path => ascii "path"
  | status => ascii "status"
  | durationUs => ascii "duration_us"
  | traceId => ascii "trace_id"
  | spanId => ascii "span_id"
  | message => ascii "message"

/-- The keys, in the order in which they stand in an object. -/
def JsonKey.all : List JsonKey :=
  [timestamp, level, requestId, method, path, status, durationUs, traceId, spanId, message]

theorem JsonKey.mem_all (key : JsonKey) : key ∈ all := by
  rcases key <;> decide

theorem JsonKey.text_plain (key : JsonKey) : ∀ b ∈ key.text, IsPlainAscii b := by
  have hall : ∀ key ∈ all, (key.text.all fun b ↦ IsPlainAscii b) = true := by decide +kernel
  exact fun b hb ↦ of_decide_eq_true (List.all_eq_true.mp (hall key key.mem_all) b hb)

theorem JsonKey.text_injective : Function.Injective text := fun key key' h ↦ by
  have hnodup : (all.map text).Nodup := by decide +kernel
  exact List.inj_on_of_nodup_map hnodup key.mem_all key'.mem_all h

/-- What `append_json_field` appends. -/
def stringMember (key : JsonKey) (value : Bytes) : Json.Member 1 where
  key := key.text
  text := Json.writeString escapeByte value
  value := .string value
  plain := fun b hb ↦ (key.text_plain b hb).1
  reads := Json.reads_writeString fun b _ ↦ (escapeByte_spec b).1

def numberMember (key : JsonKey) (n : ℤ) : Json.Member 1 where
  key := key.text
  text := formatInt n
  value := .number (formatInt n)
  plain := fun b hb ↦ (key.text_plain b hb).1
  reads := Json.reads_number (formatInt_number n).1 (formatInt_number n).2

/-- A member for a value that is not empty. -/
def optionalMember (key : JsonKey) (value : Bytes) : List (Json.Member 1) :=
  if value ≠ [] then [stringMember key value] else []

/-- The members for the request. -/
def requestMembers (record : LogRecord) (request : LogRequestFields) : List (Json.Member 1) :=
  [stringMember .requestId request.requestId] ++ [stringMember .method request.method] ++
  [stringMember .path request.path] ++
  record.statusCode.toList.map (numberMember .status) ++
  record.duration.toList.map (numberMember .durationUs) ++
  optionalMember .traceId request.traceId ++ optionalMember .spanId request.spanId

/-- The members behind the first one. -/
def recordMembers (record : LogRecord) : List (Json.Member 1) :=
  [stringMember .level record.level.toString] ++
  record.request.toList.flatMap (requestMembers record) ++
  [stringMember .message record.message]

/-- The members, as they are written. -/
def writeMembers (ms : List (Json.Member 1)) : Bytes := ms.flatMap fun m ↦ Json.comma :: m.write

theorem writeMembers_append (ms ms' : List (Json.Member 1)) :
    writeMembers (ms ++ ms') = writeMembers ms ++ writeMembers ms' := List.flatMap_append

theorem appendJsonField_eq (out : Bytes) (key : JsonKey) (value : Bytes) :
    appendJsonField out key.text value = out ++ writeMembers [stringMember key value] := by
  have hopen : ascii ",\"" = [44, 34] := by decide +kernel
  have hcolon : ascii "\":\"" = [34, 58, 34] := by decide +kernel
  have hclose : ascii "\"" = [34] := by decide +kernel
  rw [appendJsonField, hopen, hcolon, hclose, writeMembers, List.flatMap_singleton,
    Json.Member.write]
  simp [stringMember, Json.writeString, escapeJson]

theorem writeMembers_number (out : Bytes) (key : JsonKey) (n : ℤ) :
    out ++ (44 :: 34 :: key.text ++ [34, 58]) ++ formatInt n =
      out ++ writeMembers [numberMember key n] := by
  simp [writeMembers, Json.Member.write, numberMember]

theorem appendRequest_eq (out : Bytes) (record : LogRecord) (request : LogRequestFields) :
    appendRequest out record request = out ++ writeMembers (requestMembers record request) := by
  have hstatus (out : Bytes) : (match record.statusCode with
      | some statusCode => out ++ ascii ",\"status\":" ++ formatInt statusCode
      | none => out) =
        out ++ writeMembers (record.statusCode.toList.map (numberMember .status)) := by
    have hmark : ascii ",\"status\":" = 44 :: 34 :: JsonKey.status.text ++ [34, 58] := by
      decide +kernel
    rcases record.statusCode with _ | statusCode
    · exact (List.append_nil _).symm
    · exact hmark ▸ writeMembers_number out .status statusCode
  have hduration (out : Bytes) : (match record.duration with
      | some duration => out ++ ascii ",\"duration_us\":" ++ formatInt duration
      | none => out) =
        out ++ writeMembers (record.duration.toList.map (numberMember .durationUs)) := by
    have hmark : ascii ",\"duration_us\":" = 44 :: 34 :: JsonKey.durationUs.text ++ [34, 58] := by
      decide +kernel
    rcases record.duration with _ | duration
    · exact (List.append_nil _).symm
    · exact hmark ▸ writeMembers_number out .durationUs duration
  have hoptional (out : Bytes) (key : JsonKey) (value : Bytes) :
      (if value ≠ [] then appendJsonField out key.text value else out) =
        out ++ writeMembers (optionalMember key value) := by
    rw [optionalMember]
    split
    · exact appendJsonField_eq out key value
    · exact (List.append_nil _).symm
  simp only [appendRequest, hstatus, hduration]
  rw [requestMembers, writeMembers_append, ← List.append_assoc, ← hoptional, writeMembers_append,
    ← List.append_assoc, ← hoptional, writeMembers_append, writeMembers_append,
    writeMembers_append, writeMembers_append, ← List.append_assoc, ← List.append_assoc,
    ← List.append_assoc, ← List.append_assoc, ← appendJsonField_eq, ← appendJsonField_eq,
    ← appendJsonField_eq]
  rfl

theorem timestamp_level_eq (record : LogRecord) :
    ascii "\x7b\"timestamp\":\"" ++ formatTimestamp record.timestamp ++
        ascii "\",\"level\":\"" ++ record.level.toString ++ ascii "\"" =
      123 :: (stringMember .timestamp (formatTimestamp record.timestamp)).write ++
        writeMembers [stringMember .level record.level.toString] := by
  have hopen : ascii "\x7b\"timestamp\":\"" =
      123 :: 34 :: JsonKey.timestamp.text ++ [34, 58, 34] := by decide +kernel
  have hlevel : ascii "\",\"level\":\"" =
      34 :: 44 :: 34 :: JsonKey.level.text ++ [34, 58, 34] := by decide +kernel
  have hclose : ascii "\"" = [34] := by decide +kernel
  have htime := escapeJson_of_plain (formatTimestamp_plain record.timestamp)
  have htext := escapeJson_of_plain (toString_plain record.level)
  rw [escapeJson] at htime htext
  rw [hopen, hlevel, hclose]
  simp [writeMembers, Json.Member.write, stringMember, Json.writeString, htime, htext]

/-- **The text is an object**, with the time first. -/
theorem formatJson_eq (record : LogRecord) : formatJson record =
    Json.writeObject (stringMember .timestamp (formatTimestamp record.timestamp))
      (recordMembers record) := by
  have hclose : ascii "\x7d" = [125] := by decide +kernel
  have hrequest (out : Bytes) : (match record.request with
      | some request => appendRequest out record request
      | none => out) =
        out ++ writeMembers (record.request.toList.flatMap (requestMembers record)) := by
    rcases record.request with _ | request
    · exact (List.append_nil _).symm
    · rw [Option.toList_some, List.flatMap_singleton]
      exact appendRequest_eq out record request
  have hmessage (out : Bytes) : appendJsonField out (ascii "message") record.message =
      out ++ writeMembers [stringMember .message record.message] :=
    appendJsonField_eq out .message record.message
  rw [formatJson]
  simp only [hrequest, hmessage]
  rw [timestamp_level_eq, hclose]
  change _ = 123 :: _ ++ writeMembers (recordMembers record) ++ [125]
  rw [recordMembers, writeMembers_append, writeMembers_append]
  simp only [List.append_assoc]

/-! ## Reading a record back -/

/-- The members of the object that is written. -/
def jsonEntries (record : LogRecord) : List (JsonKey × Json) :=
  [(JsonKey.timestamp, Json.string (formatTimestamp record.timestamp)),
    (JsonKey.level, Json.string record.level.toString)] ++
  (match record.request with
    | some request =>
      [(JsonKey.requestId, Json.string request.requestId),
        (JsonKey.method, Json.string request.method),
        (JsonKey.path, Json.string request.path)] ++
      record.statusCode.toList.map (fun n ↦ (JsonKey.status, Json.number (formatInt n))) ++
      record.duration.toList.map (fun n ↦ (JsonKey.durationUs, Json.number (formatInt n))) ++
      (if request.traceId ≠ [] then [(JsonKey.traceId, Json.string request.traceId)] else []) ++
      (if request.spanId ≠ [] then [(JsonKey.spanId, Json.string request.spanId)] else [])
    | none => []) ++
  [(JsonKey.message, Json.string record.message)]

/-- The object that is written. -/
def jsonObject (record : LogRecord) : Json :=
  .object ((jsonEntries record).map fun e ↦ (e.1.text, e.2))

theorem parse_formatJson_eq (record : LogRecord) :
    Json.parse (formatJson record) = some (jsonObject record) := by
  rw [formatJson_eq, Json.parse_writeObject, jsonObject]
  congr 2
  rcases hrequest : record.request with _ | request
  · simp [recordMembers, jsonEntries, hrequest, stringMember]
  · simp [recordMembers, jsonEntries, hrequest, stringMember, requestMembers, optionalMember,
      apply_ite (List.map _)]
    rfl

theorem nodup_jsonEntries (record : LogRecord) : ((jsonEntries record).map Prod.fst).Nodup := by
  have htoList (o : Option ℤ) (key : JsonKey) :
      ((o.toList.map fun n ↦ (key, Json.number (formatInt n))).map Prod.fst).Sublist [key] := by
    rcases o with _ | n
    · exact List.nil_sublist _
    · exact List.Sublist.refl _
  have hoptional (key : JsonKey) (value : Bytes) :
      ((if value ≠ [] then [(key, Json.string value)] else []).map Prod.fst).Sublist [key] := by
    split
    · exact List.Sublist.refl _
    · exact List.nil_sublist _
  have hall : JsonKey.all.Nodup := by decide
  refine List.Nodup.sublist ?_ hall
  rcases hrequest : record.request with _ | request
  · rw [jsonEntries, hrequest]
    exact (List.Sublist.refl [JsonKey.timestamp, .level]).append
      ((List.nil_sublist [JsonKey.requestId, .method, .path, .status, .durationUs, .traceId,
        .spanId]).append (List.Sublist.refl [JsonKey.message]))
  · rw [jsonEntries, hrequest]
    simp only [List.map_append]
    exact ((List.Sublist.refl [JsonKey.timestamp, .level]).append
      (((((List.Sublist.refl [JsonKey.requestId, .method, .path]).append
        (htoList _ _)).append (htoList _ _)).append (hoptional _ _)).append
        (hoptional _ _))).append (List.Sublist.refl [JsonKey.message])

/-- The string at a key. -/
def readField (value : Json) (key : JsonKey) : Option Bytes := value.stringOf key.text

theorem readField_eq_some {record : LogRecord} {key : JsonKey} {text : Bytes}
    (h : (key, .string text) ∈ jsonEntries record) :
    readField (jsonObject record) key = some text := by
  refine Json.stringOf_of_mem ?_ (List.mem_map.mpr ⟨(key, .string text), h, rfl⟩)
  rw [List.map_map]
  have hnodup := (nodup_jsonEntries record).map JsonKey.text_injective
  rwa [List.map_map] at hnodup

theorem readField_eq_none {record : LogRecord} {key : JsonKey}
    (h : key ∉ (jsonEntries record).map Prod.fst) : readField (jsonObject record) key = none := by
  refine Json.stringOf_of_not_mem fun hmem ↦ h ?_
  rw [List.map_map] at hmem
  obtain ⟨e, he, hkey⟩ := List.mem_map.mp hmem
  exact List.mem_map.mpr ⟨e, he, JsonKey.text_injective hkey⟩

/-- The fields of the request, as a reader finds them. -/
def readRequest (value : Json) : Option LogRequestFields := do
  let requestId ← readField value .requestId
  let method ← readField value .method
  let path ← readField value .path
  let traceId := (readField value .traceId).getD []
  let spanId := (readField value .spanId).getD []
  some { requestId, method, path, traceId, spanId }

theorem readRequest_eq (record : LogRecord) :
    readRequest (jsonObject record) = record.request := by
  rcases hrequest : record.request with _ | request
  · have hnone : readField (jsonObject record) .requestId = none :=
      readField_eq_none (by simp [jsonEntries, hrequest])
    rw [readRequest, hnone]
    rfl
  · have hrequestId : readField (jsonObject record) .requestId = some request.requestId :=
      readField_eq_some (by simp [jsonEntries, hrequest])
    have hmethod : readField (jsonObject record) .method = some request.method :=
      readField_eq_some (by simp [jsonEntries, hrequest])
    have hpath : readField (jsonObject record) .path = some request.path :=
      readField_eq_some (by simp [jsonEntries, hrequest])
    have htraceId : (readField (jsonObject record) .traceId).getD [] = request.traceId := by
      by_cases hempty : request.traceId = []
      · rw [readField_eq_none (by simp [jsonEntries, hrequest, hempty]), hempty]
        rfl
      · have hsome : readField (jsonObject record) .traceId = some request.traceId :=
          readField_eq_some (by simp [jsonEntries, hrequest, hempty])
        rw [hsome, Option.getD_some]
    have hspanId : (readField (jsonObject record) .spanId).getD [] = request.spanId := by
      by_cases hempty : request.spanId = []
      · rw [readField_eq_none (by simp [jsonEntries, hrequest, hempty]), hempty]
        rfl
      · have hsome : readField (jsonObject record) .spanId = some request.spanId :=
          readField_eq_some (by simp [jsonEntries, hrequest, hempty])
        rw [hsome, Option.getD_some]
    rw [readRequest, hrequestId, hmethod, hpath, htraceId, hspanId]
    rfl

/-- The texts of the record are UTF-8. -/
structure LogRecord.IsText (record : LogRecord) : Prop where
  message : Utf8.IsText record.message
  request : ∀ request ∈ record.request, Utf8.IsText request.requestId ∧
    Utf8.IsText request.method ∧ Utf8.IsText request.path ∧ Utf8.IsText request.traceId ∧
    Utf8.IsText request.spanId

/-! ### The text as a whole -/

section Pieces

variable {P : Bytes → Prop} (happend : ∀ s t, P s → P t → P (s ++ t))
  (hplain : ∀ text, (∀ b ∈ text, 0x20 ≤ b ∧ b < 0x80) → P text)

include hplain

theorem holds_of_plain {text : Bytes} (h : ∀ b ∈ text, IsPlainAscii b) : P text :=
  hplain text fun b hb ↦ ⟨UInt8.not_lt.mp (h b hb).1.2.2, (h b hb).2⟩

theorem holds_mark : ∀ b ∈ [Json.quote, Json.comma, Json.colon, 123, 125], P [b] := by
  have hmark : ∀ b ∈ [Json.quote, Json.comma, Json.colon, 123, 125], 0x20 ≤ b ∧ b < 0x80 := by
    decide +kernel
  exact fun b hb ↦ hplain _ (List.forall_mem_singleton.mpr (hmark b hb))

theorem numberMember_of_pieces {key : JsonKey} {n : ℤ} :
    P (numberMember key n).key ∧ P (numberMember key n).text :=
  ⟨holds_of_plain hplain key.text_plain, holds_of_plain hplain (formatInt_plain n)⟩

include happend

theorem stringMember_of_pieces {key : JsonKey} {value : Bytes} (hvalue : P (escapeJson value)) :
    P (stringMember key value).key ∧ P (stringMember key value).text :=
  ⟨holds_of_plain hplain key.text_plain,
    Json.writeString_of_flatMap happend (holds_mark hplain) hvalue⟩

theorem optionalMember_of_pieces {key : JsonKey} {value : Bytes} (hvalue : P (escapeJson value)) :
    ∀ m ∈ optionalMember key value, P m.key ∧ P m.text := by
  rw [optionalMember]
  split
  · exact List.forall_mem_singleton.mpr (stringMember_of_pieces happend hplain hvalue)
  · exact List.forall_mem_nil _

theorem requestMembers_of_pieces {record : LogRecord} {request : LogRequestFields}
    (hrequestId : P (escapeJson request.requestId)) (hmethod : P (escapeJson request.method))
    (hpath : P (escapeJson request.path)) (htraceId : P (escapeJson request.traceId))
    (hspanId : P (escapeJson request.spanId)) :
    ∀ m ∈ requestMembers record request, P m.key ∧ P m.text := by
  simp only [requestMembers, List.forall_mem_append, List.forall_mem_singleton, List.forall_mem_map]
  exact ⟨⟨⟨⟨⟨⟨stringMember_of_pieces happend hplain hrequestId,
    stringMember_of_pieces happend hplain hmethod⟩, stringMember_of_pieces happend hplain hpath⟩,
    fun n _ ↦ numberMember_of_pieces hplain⟩, fun n _ ↦ numberMember_of_pieces hplain⟩,
    optionalMember_of_pieces happend hplain htraceId⟩,
    optionalMember_of_pieces happend hplain hspanId⟩

/-- **What holds of the escaped values holds of the text**, if it does of plain texts. -/
theorem formatJson_of_pieces {record : LogRecord} (hmessage : P (escapeJson record.message))
    (hrequest : ∀ request ∈ record.request, P (escapeJson request.requestId) ∧
      P (escapeJson request.method) ∧ P (escapeJson request.path) ∧
      P (escapeJson request.traceId) ∧ P (escapeJson request.spanId)) :
    P (formatJson record) := by
  have htext {key : JsonKey} {text : Bytes} (h : ∀ b ∈ text, IsPlainAscii b) :
      P (stringMember key text).key ∧ P (stringMember key text).text := by
    refine stringMember_of_pieces happend hplain ?_
    rw [escapeJson_of_plain h]
    exact holds_of_plain hplain h
  rw [formatJson_eq]
  refine Json.writeObject_of_pieces happend (holds_mark hplain)
    (List.forall_mem_cons.mpr ⟨htext (formatTimestamp_plain _), ?_⟩)
  simp only [recordMembers, List.forall_mem_append, List.forall_mem_singleton]
  refine ⟨⟨htext (toString_plain _), fun m hm ↦ ?_⟩,
    stringMember_of_pieces happend hplain hmessage⟩
  obtain ⟨request, hmem, hm⟩ := List.mem_flatMap.mp hm
  obtain ⟨hrequestId, hmethod, hpath, htraceId, hspanId⟩ :=
    hrequest request (Option.mem_toList.mp hmem)
  exact requestMembers_of_pieces happend hplain hrequestId hmethod hpath htraceId hspanId m hm

end Pieces

/-- No control character is left, whatever the bytes are. -/
theorem formatJson_not_control (record : LogRecord) :
    ∀ b ∈ formatJson record, ¬Json.IsControl b := by
  have hescape (value : Bytes) : ∀ b ∈ escapeJson value, ¬Json.IsControl b := fun b hb ↦ by
    obtain ⟨ch, -, hb⟩ := List.mem_flatMap.mp hb
    exact ((escapeByte_spec ch).2.1 b hb).1
  exact formatJson_of_pieces (P := fun text ↦ ∀ b ∈ text, ¬Json.IsControl b)
    (fun s t hs ht ↦ List.forall_mem_append.mpr ⟨hs, ht⟩)
    (fun text h b hb ↦ UInt8.not_lt.mpr (h b hb).1) (hescape _)
    (fun request _ ↦ ⟨hescape _, hescape _, hescape _, hescape _, hescape _⟩)

theorem isText_formatJson {record : LogRecord} (h : record.IsText) :
    Utf8.IsText (formatJson record) := by
  refine formatJson_of_pieces (P := Utf8.IsText) (fun s t ↦ Utf8.IsText.append)
    (fun text h ↦ Utf8.isText_of_ascii fun b hb ↦ (h b hb).2) (isText_escapeJson h.message)
    fun request hrequest ↦ ?_
  obtain ⟨hrequestId, hmethod, hpath, htraceId, hspanId⟩ := h.request request hrequest
  exact ⟨isText_escapeJson hrequestId, isText_escapeJson hmethod, isText_escapeJson hpath,
    isText_escapeJson htraceId, isText_escapeJson hspanId⟩

/-- **No value can forge a line.** The text has no control characters and is UTF-8, it is one JSON
object with the members of the record, each key once, and its strings are read back as what the
record holds. -/
theorem parse_formatJson {record : LogRecord} (h : record.IsText) :
    (∀ b ∈ formatJson record, ¬Json.IsControl b) ∧ Utf8.IsText (formatJson record) ∧
      Json.parse (formatJson record) = some (jsonObject record) ∧
      ((jsonEntries record).map Prod.fst).Nodup ∧
      readField (jsonObject record) .timestamp = some (formatTimestamp record.timestamp) ∧
      readField (jsonObject record) .level = some record.level.toString ∧
      readField (jsonObject record) .message = some record.message ∧
      readRequest (jsonObject record) = record.request :=
  ⟨formatJson_not_control record, isText_formatJson h, parse_formatJson_eq record,
    nodup_jsonEntries record, readField_eq_some (by simp [jsonEntries]),
    readField_eq_some (by simp [jsonEntries]), readField_eq_some (by simp [jsonEntries]),
    readRequest_eq record⟩

theorem parse_formatJson_quote :
    Json.parse (formatJson { message := ascii "\",\"level\":\"FATAL\n" }) =
      some (jsonObject { message := ascii "\",\"level\":\"FATAL\n" }) :=
  (parse_formatJson ⟨Utf8.isText_of_ascii (by decide +kernel),
    fun _ hmem ↦ by cases hmem⟩).2.2.1

example : formatJson { message := ascii "a\"\n" } =
    ascii "\x7b\"timestamp\":\"1970-01-01T00:00:00.000000Z\",\"level\":\"INFO\"" ++
      ascii ",\"message\":\"a\\\"\\n\"\x7d" := by
  decide +kernel

end Aevox
