import Aevox.Library.Lines
import Aevox.Log.Format

/-!
# One line for each record

`write_record` writes the text of a record and a newline. JSON texts have no newline, so they are
one line each. `format_pretty` writes the message and the fields of the request as they are, and a
newline in one of them begins another line: the records stand one to a line exactly when none of
these has one (`lines_write_iff`).
-/

namespace Aevox

/-- `write_record`, with the text of the stream, if there is one. -/
def LogFormat.writeRecord (format : LogFormat) (output : Option Bytes) (record : LogRecord) :
    Option Bytes :=
  match output with
  | none => none
  | some output => some (output ++ format.text record ++ [lf])

/-- What a new stream holds after the records. -/
def LogFormat.written (format : LogFormat) (records : List LogRecord) : Option Bytes :=
  records.foldl format.writeRecord (some [])

/-- What `format_pretty` takes over has no newline. -/
structure LogRecord.OneLine (record : LogRecord) : Prop where
  message : lf ∉ record.message
  request : ∀ request ∈ record.request, lf ∉ request.requestId ∧ lf ∉ request.method ∧
    lf ∉ request.path

namespace LogFormat

variable {format : LogFormat} {record : LogRecord}

theorem foldl_writeRecord (records : List LogRecord) (output : Bytes) :
    records.foldl format.writeRecord (some output) =
      some (output ++ Lines.write lf (records.map format.text)) := by
  induction records generalizing output with
  | nil => rw [List.map_nil]; exact (congrArg some (List.append_nil output)).symm
  | cons record records ih =>
    rw [List.foldl_cons, writeRecord, ih, List.map_cons, Lines.write_cons, List.append_assoc,
      List.append_assoc]
    rfl

theorem written_eq (records : List LogRecord) :
    format.written records = some (Lines.write lf (records.map format.text)) :=
  foldl_writeRecord records []

theorem lf_not_mem_of_plain {text : Bytes} (h : ∀ b ∈ text, IsPlainAscii b) : lf ∉ text :=
  fun hmem ↦ absurd (h lf hmem) (by decide)

theorem lf_not_mem_formatJson (record : LogRecord) : lf ∉ formatJson record :=
  fun hmem ↦ formatJson_not_control record lf hmem (by decide)

/-- **Plain text has the newlines of what it takes over.** -/
theorem lf_not_mem_formatPretty_iff : lf ∉ formatPretty record ↔ record.OneLine := by
  have htime := lf_not_mem_of_plain (formatTimestamp_plain record.timestamp)
  have hlevel := lf_not_mem_of_plain (toString_plain record.level)
  have hint (n : ℤ) := lf_not_mem_of_plain (formatInt_plain n)
  rcases hrequest : record.request with _ | request
  · have hpretty : lf ∉ formatPretty record ↔ lf ∉ record.message := by
      simp +decide [formatPretty, hrequest, htime, hlevel]
    rw [hpretty]
    exact ⟨fun h ↦ ⟨h, fun request hmem ↦ by rw [hrequest] at hmem; cases hmem⟩, fun h ↦ h.message⟩
  · have hpretty : lf ∉ formatPretty record ↔ lf ∉ request.requestId ∧ lf ∉ request.method ∧
        lf ∉ request.path ∧ lf ∉ record.message := by
      rcases hstatus : record.statusCode with _ | statusCode <;>
        rcases hduration : record.duration with _ | duration <;>
        simp +decide [formatPretty, hrequest, hstatus, hduration, htime, hlevel, hint]
    rw [hpretty]
    constructor
    · rintro ⟨hrequestId, hmethod, hpath, hmessage⟩
      refine ⟨hmessage, fun request' hmem ↦ ?_⟩
      obtain rfl : request = request' := Option.some.inj (hrequest.symm.trans hmem)
      exact ⟨hrequestId, hmethod, hpath⟩
    · intro h
      obtain ⟨hrequestId, hmethod, hpath⟩ := h.request request hrequest
      exact ⟨hrequestId, hmethod, hpath, h.message⟩

/-- The text of a record is one line in JSON, and in plain text if nothing in it has a newline. -/
theorem lf_not_mem_text_iff : lf ∉ format.text record ↔ format = json ∨ record.OneLine := by
  rcases format with _ | _
  · exact iff_of_true (lf_not_mem_formatJson record) (Or.inl rfl)
  · rw [text, lf_not_mem_formatPretty_iff]
    exact ⟨Or.inr, fun h ↦ h.resolve_left (by decide)⟩

/-- **Records stand one to a line** in JSON, and in plain text if none of them takes over a newline,
and only then. -/
theorem lines_written_iff (format : LogFormat) (records : List LogRecord) :
    (format.written records).map (Lines.lines lf) = some (records.map format.text) ↔
      format = json ∨ ∀ record ∈ records, record.OneLine := by
  rw [written_eq, Option.map_some, Option.some.injEq, Lines.lines_write_iff, List.forall_mem_map]
  simp only [lf_not_mem_text_iff]
  constructor
  · intro h
    by_cases hjson : format = json
    · exact Or.inl hjson
    · exact Or.inr fun record hmem ↦ (h record hmem).resolve_left hjson
  · rintro (hjson | h) record hmem
    · exact Or.inl hjson
    · exact Or.inr (h record hmem)

/-- A message with a newline is two lines. -/
theorem lines_written_newline :
    (pretty.written [{ message := ascii "a\nb" }]).map (Lines.lines lf) ≠
      some ([{ message := ascii "a\nb" }].map pretty.text) := by
  decide +kernel

end LogFormat

end Aevox
