import Aevox.App.Dispatch
import Aevox.Http.Replay
import Aevox.Http.Wire

/-!
# Answers to HEAD requests

What answers a HEAD request must end with the blank line of its header section. Nothing in the
connection handler knows about that: it serializes whatever comes out of the pipeline, body
included, for every method alike. So the bytes it writes in answer to a request are free of a body
exactly when every response the pipeline can end with already is, and the 400 response to a request
that cannot be parsed never is.

The statement about an answer does not mention the method, because the code does not; for HEAD it
says when the connection stays framed.
-/

namespace Aevox

open Coroutine Delimited

/-! ## Responses without a body -/

/-- No byte follows the blank line that ends the header section. -/
def BodyFree (bytes : Bytes) : Prop := ∃ lines, headLines cr lf [] bytes = some (lines, [])

/-- A header whose line does not contain an empty line. -/
def OneBlock (header : Bytes × Bytes) : Prop :=
  [] ∉ splitLines cr lf (header.1 ++ ascii ": " ++ header.2)

instance (header : Bytes × Bytes) : Decidable (OneBlock header) :=
  inferInstanceAs (Decidable (¬_))

private theorem statusLineText_clean : ∀ code ∈ 0 :: factoryStatuses,
    statusLineText code ≠ [] ∧ cr ∉ statusLineText code := by
  decide

theorem oneBlock_of_wellFormed {f : Bytes × Bytes} (hf : FieldWellFormed f) : OneBlock f := by
  obtain ⟨hne, hcr⟩ := fieldText_spec hf
  rw [OneBlock, splitLines_of_not_mem hcr, List.mem_singleton]
  exact hne.symm

/-- The generated field is harmless. -/
theorem forall_wireFields_oneBlock_iff {res : Response} :
    (∀ f ∈ res.wireFields, OneBlock f) ↔ ∀ h ∈ res.headerEntries, OneBlock h := by
  rcases res with ⟨_ | impl⟩
  · refine iff_of_true (fun f hf ↦ ?_) fun h hh ↦ absurd hh List.not_mem_nil
    rw [List.mem_singleton.mp hf]
    exact oneBlock_of_wellFormed (framedHeader_contentLengthField _).1
  · rw [Response.wireFields, List.forall_mem_append]
    refine and_iff_right fun f hf ↦ ?_
    rw [mem_generatedFields hf]
    exact oneBlock_of_wellFormed (framedHeader_contentLengthField _).1

/-- **A serialized response is free of a body** exactly when it has none and no header ends the
header section early. -/
theorem bodyFree_serializeResponse_iff {res : Response} :
    BodyFree (serializeResponse res) ↔ res.bodyView = [] ∧ ∀ h ∈ res.headerEntries, OneBlock h := by
  have hwire : serializeResponse res
      = (statusLineText res.statusCode ::
            res.wireFields.map fun f ↦ f.1 ++ ascii ": " ++ f.2).flatMap (· ++ [cr, lf])
          ++ [cr, lf] ++ res.bodyView := by
    rw [serializeResponse, responseHead, List.flatMap_cons, List.flatMap_map]
    rfl
  obtain ⟨hne, hcr⟩ := statusLineText_clean res.statusCode
    (List.mem_cons.mpr res.statusCode_mem)
  have hstatus : [] ∉ splitLines cr lf (statusLineText res.statusCode) := by
    rw [splitLines_of_not_mem hcr, List.mem_singleton]
    exact hne.symm
  rw [BodyFree, hwire, headLines_texts_iff (by decide), List.forall_mem_cons, List.forall_mem_map,
    ← forall_wireFields_oneBlock_iff]
  exact and_congr_right fun _ ↦ and_iff_right hstatus

namespace Conn

variable {σ : Type} (L : Llhttp σ) (app : App) (config : AppConfig)

/-! ## Answers -/

/-- Whatever is written from the arrival of `data` until the next read is free of a body. -/
def AnswersBodyFree (c : Conn σ) (data : Bytes) : Prop :=
  ∀ es c', (∀ e ∈ es, e.isReply) → run L app config c (.readDone (some data) :: es) = some c' →
    ∀ bytes, .write bytes ∈ c'.log.drop c.log.length → BodyFree bytes

variable {L app config}

/-- The handler does not write the outcome, or what it writes is free of a body. -/
def bodiless (_ : Bool) (r : Except Exn Response) : Prop :=
  ∀ res, r = .ok res →
    res.statusCode = kStatusSwitchingProtocols ∨ BodyFree (serializeResponse res)

/-- What has been written since the log had `n` entries is free of a body. -/
def WrittenBodyFree (n : ℕ) (c : Conn σ) : Prop :=
  ∀ bytes, .write bytes ∈ c.log.drop n → BodyFree bytes

theorem mem_drop_concat {n : ℕ} {log : List Entry} {e x : Entry} (h : x ∈ (log ++ [e]).drop n) :
    x ∈ log.drop n ∨ x = e := by
  rw [List.drop_append] at h
  exact (List.mem_append.mp h).imp_right fun h ↦ List.mem_singleton.mp (List.mem_of_mem_drop h)

theorem WrittenBodyFree.record {n : ℕ} {c : Conn σ} (hc : c.WrittenBodyFree n) {e : Entry}
    (he : ∀ bytes, e = .write bytes → BodyFree bytes) : (c.record e).WrittenBodyFree n :=
  fun bytes hmem ↦ (mem_drop_concat hmem).elim (hc bytes) fun h ↦ he bytes h.symm

theorem preserved_writtenBodyFree (n : ℕ) : Preserved (WrittenBodyFree (σ := σ) n) where
  phase _ hc := hc
  enter _ hc := hc.record fun _ h ↦ Entry.noConfusion h
  upgrade _ _ hc := hc.record fun _ h ↦ Entry.noConfusion h
  handOver _ hc := WrittenBodyFree.record hc fun _ h ↦ Entry.noConfusion h

/-- Everything written so far is free of a body, and so will be what the dispatch leads to. -/
def Answering (n : ℕ) (c : Conn σ) : Prop :=
  c.WrittenBodyFree n ∧
    match c.phase with
    | .awaiting _ k => ∀ answer, (k answer).wp streamContract bodiless c.streamRef
    | .upgrading _ k => ∀ success, (k success).wp streamContract bodiless c.streamRef
    | _ => True

theorem answering_advance {n : ℕ} {keepAlive : Bool} {task : Task Response} {c : Conn σ}
    (hc : c.WrittenBodyFree n) (hwp : task.wp streamContract bodiless c.streamRef) :
    (c.advance keepAlive task).Answering n := by
  have hsettled : Settled (WrittenBodyFree n) bodiless keepAlive (c.advance keepAlive task) :=
    settled_advance (preserved_writtenBodyFree n) hc hwp
  generalize c.advance keepAlive task = c' at hsettled ⊢
  rcases hsettled with ⟨hphase, hP, hk⟩ | ⟨hphase, hP, hk⟩ | ⟨hP, hQ⟩ | ⟨hphase, hP⟩
  · rw [Answering, hphase]
    exact ⟨hP, hk⟩
  · rw [Answering, hphase]
    exact ⟨hP, hk⟩
  · rename_i r
    rcases r with e | res
    · exact ⟨hP, trivial⟩
    · rw [conclude]
      split
      · exact ⟨hP, trivial⟩
      · rename_i hcode
        refine ⟨WrittenBodyFree.record hP fun bytes h ↦ ?_, trivial⟩
        rw [← Entry.write.inj h]
        exact (hQ res rfl).resolve_left hcode
  · rw [Answering, hphase]
    exact ⟨hP, trivial⟩

/-- Replies lead from an answer under way to an answer under way, or to the next read. -/
theorem answering_of_moves {n : ℕ} {c c' : Conn σ} {e : Event} (he : e.isReply)
    (hc : c.Answering n) (h : Moves L app config c e c') : c'.Answering n := by
  obtain ⟨hwritten, hphase'⟩ := hc
  rcases h with _ | _ | _ | _ | hphase | hphase | _ | _ | _
  case close => exact he.elim
  case more => exact he.elim
  case reject => exact he.elim
  case dispatch => exact he.elim
  case resume =>
    rw [hphase] at hphase'
    exact answering_advance hwritten (hphase' _)
  case upgrade =>
    rw [hphase] at hphase'
    exact answering_advance hwritten (hphase' _)
  case next => exact ⟨WrittenBodyFree.record hwritten fun _ h ↦ Entry.noConfusion h, trivial⟩
  case hangUp => exact ⟨hwritten, trivial⟩
  case refused => exact ⟨hwritten, trivial⟩

theorem preserved_length (n : ℕ) : Preserved fun c : Conn σ ↦ n ≤ c.log.length where
  phase _ hc := hc
  enter _ hc := hc.trans (List.prefix_append _ _).length_le
  upgrade _ _ hc := hc.trans (List.prefix_append _ _).length_le
  handOver _ hc := hc.trans (List.prefix_append _ _).length_le

theorem run_readDone_cons {c : Conn σ} (hphase : c.phase = .reading) {data : Bytes}
    (hdata : data ≠ []) (es : List Event) :
    run L app config c (.readDone (some data) :: es)
      = run L app config (c.receive L app config data) es := by
  rw [run, Machine.run, step_readDone hphase hdata, Option.bind_some]
  rfl

/-- What cannot be parsed is answered with 400, which has a body. -/
theorem not_answersBodyFree_of_error {c : Conn σ} (hphase : c.phase = .reading) {data : Bytes}
    (hdata : data ≠ []) {e : ParseError} {p : HttpParser σ}
    (hfeed : c.parser.feed L data = (.error e, p)) (he : e ≠ .incomplete) :
    ¬c.AnswersBodyFree L app config data := by
  intro h
  simp only [AnswersBodyFree, run_readDone_cons hphase hdata, receive_of_error hfeed he] at h
  have hbody := h [] _ (fun _ h ↦ absurd h List.not_mem_nil) rfl
    (serializeResponse (.badRequest (ascii "Bad Request"))) ?_
  · exact absurd (bodyFree_serializeResponse_iff.mp hbody).1 (by decide)
  · change _ ∈ (c.log ++ [_]).drop c.log.length
    rw [List.drop_left]
    exact List.mem_cons_self

/-- **The answer to a request is free of a body** exactly when the request can be parsed and every
response its pipeline can end with is 101 or has no body and no header with an empty line in it. -/
theorem answersBodyFree_iff {c : Conn σ} (hphase : c.phase = .reading) {data : Bytes}
    (hdata : data ≠ []) {answer : Except ParseError (ParsedRequest HeaderView)} {p : HttpParser σ}
    (hfeed : c.parser.feed L data = (answer, p)) (hcomplete : answer ≠ .error .incomplete) :
    c.AnswersBodyFree L app config data
      ↔ ∃ parsed, answer = .ok parsed ∧ ∀ present res,
          (app.dispatchWithPipeline (requestOf app config { c with parser := p } parsed)).Ends
            streamContract true present (.ok res) →
          res.statusCode = kStatusSwitchingProtocols ∨
            res.bodyView = [] ∧ ∀ h ∈ res.headerEntries, OneBlock h := by
  rcases answer with e | parsed
  · have he : e ≠ .incomplete := fun h ↦ hcomplete (congrArg Except.error h)
    refine iff_of_false (not_answersBodyFree_of_error hphase hdata hfeed he) fun h ↦ ?_
    obtain ⟨_, hparsed, -⟩ := h
    exact Except.noConfusion rfl rfl (heq_of_eq hparsed)
  · simp only [AnswersBodyFree, run_readDone_cons hphase hdata, receive_of_ok hfeed,
      ← bodyFree_serializeResponse_iff]
    set req := requestOf app config { c with parser := p } parsed with hreq
    constructor
    · -- every ending of the pipeline is the ending of a run
      intro h
      refine ⟨parsed, rfl, fun present res hend ↦ ?_⟩
      obtain ⟨es, c₁, hrun, hlen, -, hes⟩ :=
        exists_run_of_ends (c := accept { c with parser := p } req) (preserved_length c.log.length)
          (List.prefix_append _ _).length_le (App.keeps_dispatchWithPipeline req true) hend
      by_contra hnot
      rw [not_or] at hnot
      refine hnot.2 (h es _ hes hrun _ ?_)
      rw [conclude, if_neg hnot.1]
      change _ ∈ (c₁.log ++ [_]).drop c.log.length
      rw [List.drop_append_of_le_length hlen]
      exact List.mem_append_right _ List.mem_cons_self
    · -- a condition on the endings is a postcondition of the pipeline, which runs preserve
      rintro ⟨_, hparsed, hends⟩ es c' hes hrun
      cases hparsed
      have hwritten : (accept { c with parser := p } req).WrittenBodyFree c.log.length := by
        intro bytes hmem
        change _ ∈ (c.log ++ [_]).drop c.log.length at hmem
        rw [List.drop_left, List.mem_singleton] at hmem
        exact Entry.noConfusion hmem
      have hwp : (app.dispatchWithPipeline req).wp streamContract bodiless true := by
        refine (App.keeps_dispatchWithPipeline req).wp_iff.mpr fun present r hend res hr ↦ ?_
        subst hr
        exact hends present res hend
      exact (Machine.run_invariant_on (fun c e c' he hc hstep ↦
        answering_of_moves he hc (step_eq_some_iff.mp hstep)) hes
        (answering_advance hwritten hwp) hrun).1

end Conn

/-- `HEAD /` -/
def headScript : Llhttp.Script := .request "HEAD" "/" [] {}

private theorem exists_feed_head : ∃ parsed p,
    (HttpParser.create (Llhttp.replay headScript) (AppConfig.parserConfig {})).feed
        (Llhttp.replay headScript) headScript.wire
      = (.ok parsed, p) ∧ parsed.method = ascii "HEAD" := by
  have hmethod : ((HttpParser.create (Llhttp.replay headScript) (AppConfig.parserConfig {})).feed
      (Llhttp.replay headScript) headScript.wire).1.toOption.map (·.method)
      = some (ascii "HEAD") := by
    decide +kernel
  rcases hfeed : (HttpParser.create (Llhttp.replay headScript) (AppConfig.parserConfig {})).feed
    (Llhttp.replay headScript) headScript.wire with ⟨e | parsed, p⟩
  · rw [hfeed] at hmethod
    cases hmethod
  · rw [hfeed] at hmethod
    exact ⟨parsed, p, rfl, Option.some.inj hmethod⟩

/-- A middleware that answers with an empty body keeps the connection framed. -/
theorem answersBodyFree_of_empty :
    Conn.AnswersBodyFree (Llhttp.replay headScript)
      (middlewareApp [⟨some fun _ ↦ ret (.ok [])⟩]) {}
      (Conn.start (Llhttp.replay headScript) (middlewareApp [⟨some fun _ ↦ ret (.ok [])⟩]) {})
      headScript.wire := by
  obtain ⟨parsed, p, hfeed, -⟩ := exists_feed_head
  refine (Conn.answersBodyFree_iff rfl (by decide) hfeed (by simp)).mpr
    ⟨parsed, rfl, fun present res hend ↦ Or.inr ?_⟩
  cases hend with
  | call hx hend =>
    cases hend
    decide

/-- The 404 response to `HEAD /` has a body. -/
theorem not_answersBodyFree_of_notFound :
    ¬∀ (σ : Type) (L : Llhttp σ) (app : App) (config : AppConfig) (c : Conn σ) (data : Bytes)
      (parsed : ParsedRequest HeaderView) (p : HttpParser σ), c.phase = .reading → data ≠ [] →
      c.parser.feed L data = (.ok parsed, p) → parsed.method = ascii "HEAD" →
      c.AnswersBodyFree L app config data := by
  intro h
  obtain ⟨parsed, p, hfeed, hmethod⟩ := exists_feed_head
  have hanswers := h _ _ (middlewareApp []) {}
    (Conn.start (Llhttp.replay headScript) (middlewareApp []) {}) _ parsed p rfl (by decide) hfeed
    hmethod
  have hlast : (Conn.run (Llhttp.replay headScript) (middlewareApp []) {}
      (Conn.start (Llhttp.replay headScript) (middlewareApp []) {})
      [.readDone (some headScript.wire)]).map
        (fun c ↦ (c.log.drop 1).getLast?)
      = some (some (.write (serializeResponse (.notFound (ascii "404 Not Found"))))) := by
    decide +kernel
  obtain ⟨c, hrun, hlog⟩ := Option.map_eq_some_iff.mp hlast
  have hfree := hanswers [] c (fun _ h ↦ absurd h List.not_mem_nil) hrun _
    (List.mem_of_getLast? hlog)
  exact absurd (bodyFree_serializeResponse_iff.mp hfree).1 (by decide)

end Aevox
