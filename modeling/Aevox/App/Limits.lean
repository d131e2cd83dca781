import Aevox.App.Dispatch
import Aevox.Http.Replay
import Aevox.Http.Wire

/-!
# Requests beyond the limits

The parser notices a request with too many header fields or too long a body in a callback, however
the request is cut into reads, and gives the reason. The connection handler answers every reason but
`Incomplete` with the same 400 response and closes the connection, so a request beyond a limit is
kept from the application and answered once, but never with the status code that names the limit.
-/

namespace Aevox

open Coroutine Delimited

/-! ## Limits -/

/-- The limits of `AppConfig`. -/
inductive Limit where
  | bodySize
  | headerCount
  deriving DecidableEq

/-- The status code that names the limit. -/
def Limit.status : Limit → ℕ
  | .bodySize => kStatusPayloadTooLarge
  | .headerCount => 431

/-- The callbacks begin, however they are cut, with a header section of too many fields, or with a
header section and too long a part of a body. -/
def Exceeds (config : ParserConfig) (t : List Callback) : Limit → Prop
  | .headerCount => ∃ (m : Message) (u v : List Callback), t = u ++ v ∧
      pieces.coalesce u = pieces.coalesce m.headTrace ∧ config.maxHeaderCount < m.fields.length
  | .bodySize => ∃ (m : Message) (body : Bytes) (u v : List Callback), t = u ++ v ∧
      pieces.coalesce u = pieces.coalesce (m.headTrace ++ [.onBody body]) ∧
      m.fields.length ≤ config.maxHeaderCount ∧ config.maxBodyBytes < body.length

theorem HttpParser.Impl.deliver_exceeds {s : Impl} (hs : s.Blank) {t : List Callback}
    {limit : Limit} (h : Exceeds s.config t limit) :
    ∃ e, s.deliver t = .error e ∧ e.lastError ≠ .incomplete := by
  -- how the callbacks are cut does not matter, and what follows the error is not delivered
  rcases limit with _ | _
  · obtain ⟨m, body, u, v, rfl, hu, hfields, hbody⟩ := h
    have hlong : (s.withHead m).config.maxBodyBytes
        < (s.withHead m).bodyByteCount + body.length := by
      change s.config.maxBodyBytes < s.bodyByteCount + body.length
      rw [hs.bodyByteCount, Nat.zero_add]
      exact hbody
    obtain ⟨e, he, hcause⟩ := deliver_onBody_error hlong
    have htrace : s.deliver (m.headTrace ++ [.onBody body]) = .error e := by
      rw [deliver_append_of_ok (deliver_headTrace hs hfields), he]
    obtain ⟨e', he', hsame⟩ := deliver_eq_error_of_coalesce hu htrace
    refine ⟨e', deliver_append_of_error he' v, ?_⟩
    rw [hsame, hcause]
    exact ParseError.noConfusion
  · obtain ⟨m, u, v, rfl, hu, hfields⟩ := h
    obtain ⟨e, he, hcause⟩ := deliver_headTrace_error hs hfields
    obtain ⟨e', he', hsame⟩ := deliver_eq_error_of_coalesce hu he
    refine ⟨e', deliver_append_of_error he' v, ?_⟩
    rw [hsame, hcause]
    exact ParseError.noConfusion

/-! ## Refusals -/

/-- The bytes of a response. -/
def Entry.response? : Entry → Option Bytes
  | .write bytes => some bytes
  | _ => none

/-- The status code on the first line of a response. -/
def statusOf (bytes : Bytes) : Option ℕ :=
  (headLines cr lf [] bytes).bind fun p ↦ p.1.head?.bind parseStatusLine

namespace Conn

variable {σ : Type} (L : Llhttp σ) (app : App) (config : AppConfig)

/-- A connection that receives `reads` refuses: no request gets to a handler or a middleware, the
client is sent one response, with the status `code`, and the connection closes. -/
structure Refuses (c : Conn σ) (reads : List Bytes) (code : ℕ) : Prop where
  untouched : ∀ es c', Delivers es reads → run L app config c es = some c' →
    ∀ e ∈ c'.log.drop c.log.length, e = .read ∨ ∃ bytes, e = .write bytes
  answered : ∀ es c', Delivers es reads → run L app config c es = some c' → c'.phase ≠ .reading →
    ∃ bytes, (c'.log.drop c.log.length).filterMap Entry.response? = [bytes] ∧
      statusOf bytes = some code
  closes : ∀ es c', Delivers es reads → run L app config c es = some c' →
    c'.phase = .reading ∨ c'.phase = .refusing ∨ c'.phase = .finished (.ok ())
  noticed : ∀ es c', es.filterMap Event.data? = reads.map some →
    run L app config c es = some c' → c'.phase ≠ .reading
  happens : ∃ es c', Delivers es reads ∧ run L app config c es = some c' ∧
    c'.phase = .finished (.ok ())

variable {L app config}

/-- The 400 response. -/
def refusal : Bytes := serializeResponse (.badRequest (ascii "Bad Request"))

theorem statusOf_refusal : statusOf refusal = some kStatusBadRequest := by
  decide +kernel

/-- Since the log had `n` entries, the connection has only read. -/
def OnlyRead (n : ℕ) (c : Conn σ) : Prop :=
  c.phase = .reading ∧ n ≤ c.log.length ∧ ∃ k, c.log.drop n = List.replicate k .read

/-- It has only read, and has then written the 400 response. -/
def Refused (n : ℕ) (c : Conn σ) : Prop :=
  (c.phase = .refusing ∨ c.phase = .finished (.ok ())) ∧
    ∃ k, c.log.drop n = List.replicate k .read ++ [.write refusal]

theorem refused_of_moves {n : ℕ} {c c' : Conn σ} {e : Event} (hc : c.Refused n)
    (h : Moves L app config c e c') : c'.Refused n := by
  obtain ⟨hphase', hlog⟩ := hc
  rcases h with ⟨hphase, _⟩ | ⟨hphase, _, _⟩ | ⟨hphase, _, _, _⟩ | ⟨hphase, _, _, _⟩ | hphase |
    hphase | hphase | ⟨hphase, _⟩ | hphase
  case refused => exact ⟨Or.inr rfl, hlog⟩
  all_goals
    rw [hphase] at hphase'
    rcases hphase' with h | h <;> exact Phase.noConfusion h

theorem refused_refuse {n : ℕ} {c : Conn σ} (hc : c.OnlyRead n) (p : HttpParser σ) :
    (refuse { c with parser := p }).Refused n := by
  obtain ⟨-, hn, k, hk⟩ := hc
  refine ⟨Or.inl rfl, k, ?_⟩
  change (c.log ++ [_]).drop n = _
  rw [List.drop_append_of_le_length hn, hk]
  rfl

theorem onlyRead_read {n : ℕ} {c : Conn σ} (hc : c.OnlyRead n) (p : HttpParser σ) :
    (read { c with parser := p }).OnlyRead n := by
  obtain ⟨-, hn, k, hk⟩ := hc
  refine ⟨rfl, hn.trans (List.prefix_append _ _).length_le, k + 1, ?_⟩
  change (c.log ++ [_]).drop n = _
  rw [List.drop_append_of_le_length hn, hk, List.replicate_succ']

/-- While the reads of a message the parser will refuse come in, the connection either only reads,
and has not seen all of them, or has refused. -/
theorem run_of_feedReads_error {n : ℕ} {e : ParseError} (he : e ≠ .incomplete) {es : List Event} :
    ∀ {c c' : Conn σ} {reads rest : List Bytes} {p : HttpParser σ}, c.OnlyRead n →
    (∀ r ∈ reads, r ≠ []) → c.parser.feedReads L reads = (.error e, p, rest) →
    Delivers es reads → run L app config c es = some c' →
    c'.Refused n ∨ c'.OnlyRead n ∧ es.filterMap Event.data? ≠ reads.map some := by
  induction es with
  | nil =>
    intro c c' reads rest p hc _ hfeed _ hrun
    rw [← Option.some.inj hrun]
    refine Or.inr ⟨hc, fun hall ↦ ?_⟩
    rw [List.filterMap_nil, eq_comm, List.map_eq_nil_iff] at hall
    subst hall
    exact he (Except.error.inj (congrArg Prod.fst hfeed)).symm
  | cons ev es ih =>
    intro c c' reads rest p hc hreads hfeed hdel hrun
    obtain ⟨c₁, hstep, hrun₁⟩ := Machine.run_cons_eq_some_iff.mp hrun
    -- a reading connection waits for a read, which brings the next of the reads
    rcases step_eq_some_iff.mp hstep with ⟨hphase, hdata⟩ | ⟨_, _, hmore⟩ | ⟨_, _, hrej, hne⟩ |
      ⟨_, _, hok, _⟩ | hphase | hphase | hphase | ⟨hphase, _⟩ | hphase
    case close data =>
      obtain ⟨r, reads, rfl, hr, -⟩ := delivers_readDone hdel
      refine absurd hr.symm fun h ↦ hreads r List.mem_cons_self ?_
      rcases hdata with rfl | rfl
      · exact absurd h (Option.some_ne_none r)
      · exact Option.some.inj h
    case more data p₁ _ _ =>
      obtain ⟨r, reads, rfl, hr, hdel'⟩ := delivers_readDone hdel
      obtain rfl : data = r := Option.some.inj hr
      rw [HttpParser.feedReads, hmore] at hfeed
      rcases ih (onlyRead_read hc p₁) (fun r hr ↦ hreads r (List.mem_cons_of_mem _ hr)) hfeed hdel'
        hrun₁ with h | ⟨h, hpart⟩
      · exact Or.inl h
      · exact Or.inr ⟨h, fun hall ↦ hpart (List.cons.inj hall).2⟩
    case reject data p₁ _ _ _ =>
      exact Or.inl (Machine.run_invariant
        (fun c e c' hc hstep ↦ refused_of_moves hc (step_eq_some_iff.mp hstep))
        (refused_refuse hc p₁) hrun₁)
    case dispatch data parsed p₁ req _ _ _ =>
      obtain ⟨r, reads, rfl, hr, -⟩ := delivers_readDone hdel
      obtain rfl : data = r := Option.some.inj hr
      rw [HttpParser.feedReads, hok] at hfeed
      exact absurd (Prod.mk.inj hfeed).1 (by simp)
    all_goals exact Phase.noConfusion (hc.1.symm.trans hphase)

theorem exists_run_of_feedReads_error {e : ParseError} (he : e ≠ .incomplete) {reads : List Bytes} :
    ∀ {c : Conn σ} {rest : List Bytes} {p : HttpParser σ}, c.phase = .reading →
    (∀ r ∈ reads, r ≠ []) → c.parser.feedReads L reads = (.error e, p, rest) →
    ∃ es c', Delivers es reads ∧ run L app config c es = some c' ∧
      c'.phase = .finished (.ok ()) := by
  induction reads with
  | nil =>
    intro c rest p _ _ hfeed
    exact absurd (Except.error.inj (congrArg Prod.fst hfeed)).symm he
  | cons data reads ih =>
    intro c rest p hphase hreads hfeed
    obtain ⟨hdata, hreads⟩ := List.forall_mem_cons.mp hreads
    have hstep : step L app config c (.readDone (some data)) = some (c.receive L app config data) :=
      step_readDone hphase hdata
    rcases hread : c.parser.feed L data with ⟨e' | parsed, p₁⟩
    · by_cases he' : e' = .incomplete
      · -- the parser has not noticed yet
        subst he'
        rw [HttpParser.feedReads, hread] at hfeed
        obtain ⟨es, c', hdel, hrun, hdone⟩ :=
          ih (c := read { c with parser := p₁ }) rfl hreads hfeed
        rw [receive_of_incomplete hread] at hstep
        exact ⟨.readDone (some data) :: es, c', List.cons_prefix_cons.mpr ⟨rfl, hdel⟩,
          Machine.run_cons_eq_some_iff.mpr ⟨_, hstep, hrun⟩, hdone⟩
      · rw [receive_of_error hread he'] at hstep
        refine ⟨[.readDone (some data), .writeDone true], _, List.prefix_append [some data] _,
          Machine.run_cons_eq_some_iff.mpr ⟨_, hstep, rfl⟩, rfl⟩
    · rw [HttpParser.feedReads, hread] at hfeed
      exact absurd (Prod.mk.inj hfeed).1 (by simp)

/-- What the parser will refuse is refused, with the status 400. -/
theorem refuses_of_feedReads_error {e : ParseError} (he : e ≠ .incomplete) {c : Conn σ}
    {reads rest : List Bytes} {p : HttpParser σ} (hphase : c.phase = .reading)
    (hreads : ∀ r ∈ reads, r ≠ []) (hfeed : c.parser.feedReads L reads = (.error e, p, rest)) :
    c.Refuses L app config reads kStatusBadRequest := by
  have honly : c.OnlyRead c.log.length := ⟨hphase, le_refl _, 0, List.drop_length⟩
  have hmem : ∀ {k : ℕ} {x : Entry}, x ∈ List.replicate k .read → x = .read :=
    fun h ↦ List.eq_of_mem_replicate h
  refine ⟨fun es c' hdel hrun x hx ↦ ?_, fun es c' hdel hrun hnot ↦ ?_, fun es c' hdel hrun ↦ ?_,
    fun es c' hall hrun hreading ↦ ?_, exists_run_of_feedReads_error he hphase hreads hfeed⟩
  · rcases run_of_feedReads_error he honly hreads hfeed hdel hrun with
      ⟨-, k, hlog⟩ | ⟨⟨-, -, k, hlog⟩, -⟩
    · rw [hlog, List.mem_append, List.mem_singleton] at hx
      exact hx.imp hmem fun h ↦ ⟨refusal, h⟩
    · exact Or.inl (hmem (hlog ▸ hx))
  · rcases run_of_feedReads_error he honly hreads hfeed hdel hrun with
      ⟨-, k, hlog⟩ | ⟨⟨hreading, -⟩, -⟩
    · refine ⟨refusal, ?_, statusOf_refusal⟩
      rw [hlog, List.filterMap_append, List.filterMap_replicate_of_none rfl]
      rfl
    · exact absurd hreading hnot
  · rcases run_of_feedReads_error he honly hreads hfeed hdel hrun with
      ⟨hdone, -⟩ | ⟨⟨hreading, -⟩, -⟩
    · exact Or.inr hdone
    · exact Or.inl hreading
  · rcases run_of_feedReads_error he honly hreads hfeed (delivers_of_eq hall) hrun with
      ⟨hdone, -⟩ | ⟨-, hpart⟩
    · rw [hreading] at hdone
      rcases hdone with h | h <;> exact Phase.noConfusion h
    · exact hpart hall

theorem Refuses.code_eq {c : Conn σ} {reads : List Bytes} {code code' : ℕ}
    (h : c.Refuses L app config reads code) (h' : c.Refuses L app config reads code') :
    code = code' := by
  obtain ⟨es, c', hdel, hrun, hdone⟩ := h.happens
  have hnot : c'.phase ≠ .reading := by
    rw [hdone]
    exact Phase.noConfusion
  obtain ⟨bytes, hbytes, hcode⟩ := h.answered es c' hdel hrun hnot
  obtain ⟨bytes', hbytes', hcode'⟩ := h'.answered es c' hdel hrun hnot
  rw [hbytes, List.cons.injEq] at hbytes'
  rw [← hbytes'.1, hcode] at hcode'
  exact Option.some.inj hcode'

/-- **Requests beyond a limit** are refused on every connection that waits for a request, however
they are cut into reads; but with the status 400, never with the one that names the limit. -/
theorem exceeds_refuses {es : List Event} {c : Conn σ}
    (hrun : run L app config (start L app config) es = some c) (hphase : c.phase = .reading)
    (hfresh : c.parser.Fresh L) {reads : List Bytes} (hreads : ∀ r ∈ reads, r ≠ [])
    {t : List Callback} (ht : L.Runs L.init reads t) {limit : Limit}
    (hlimit : Exceeds config.parserConfig t limit) :
    c.Refuses L app config reads kStatusBadRequest ∧
      ¬c.Refuses L app config reads limit.status := by
  rw [← config_of_run hrun] at hlimit
  obtain ⟨e, he, hcause⟩ := HttpParser.Impl.deliver_exceeds hfresh.blank hlimit
  obtain ⟨p, rest, hfeed⟩ :=
    HttpParser.feedReads_of_error ht hfresh.parser hfresh.blank.hasError he hcause
  have hrefuses : c.Refuses L app config reads kStatusBadRequest :=
    refuses_of_feedReads_error hcause hphase hreads hfeed
  refine ⟨hrefuses, fun h ↦ ?_⟩
  have hcode := hrefuses.code_eq h
  rcases limit with _ | _ <;> exact absurd hcode (by decide)

end Conn

/-- A request with two header fields. -/
def twoFieldsScript : Llhttp.Script := .request "GET" "/" [("A", "1"), ("B", "2")] {}

/-- The same as a message. -/
def twoFields : Message where
  method := ascii "GET"
  target := ascii "/"
  fields := [(ascii "A", ascii "1"), (ascii "B", ascii "2")]
  info := {}
  body := []
  trailers := []
  names_ne_nil := by decide

private theorem runs_twoFields : (Llhttp.replay twoFieldsScript).Runs
    (Llhttp.replay twoFieldsScript).init [twoFieldsScript.wire]
    (pieces.coalesce twoFieldsScript.callbacks) := by
  refine .last (Prod.ext ?_ rfl)
  decide +kernel

private theorem exceeds_twoFields : Exceeds (AppConfig.parserConfig { maxHeaderCount := 1 })
    (pieces.coalesce twoFieldsScript.callbacks) .headerCount :=
  ⟨twoFields, (pieces.coalesce twoFieldsScript.callbacks).take 7, _,
    (List.take_append_drop 7 _).symm, by decide +kernel, by decide⟩

/-- Two header fields where one is allowed. -/
theorem refuses_twoFields :
    (Conn.start (Llhttp.replay twoFieldsScript) (middlewareApp [])
        { maxHeaderCount := 1 }).Refuses
        (Llhttp.replay twoFieldsScript) (middlewareApp []) { maxHeaderCount := 1 }
        [twoFieldsScript.wire] 400 ∧
      ¬(Conn.start (Llhttp.replay twoFieldsScript) (middlewareApp [])
        { maxHeaderCount := 1 }).Refuses
        (Llhttp.replay twoFieldsScript) (middlewareApp []) { maxHeaderCount := 1 }
        [twoFieldsScript.wire] Limit.headerCount.status :=
  @Conn.exceeds_refuses _ _ _ _ [] _ rfl rfl (HttpParser.fresh_create _ _ _) _ (by decide) _
    runs_twoFields _ exceeds_twoFields

/-- The two header fields are not answered with 431. -/
theorem not_refuses_with_limit_status :
    ¬∀ (σ : Type) (L : Llhttp σ) (app : App) (config : AppConfig) (reads : List Bytes)
      (t : List Callback) (limit : Limit), (∀ r ∈ reads, r ≠ []) → L.Runs L.init reads t →
      Exceeds config.parserConfig t limit →
      (Conn.start L app config).Refuses L app config reads limit.status := by
  intro h
  have hrefuses := h _ _ (middlewareApp []) { maxHeaderCount := 1 } _ _ _ (by decide) runs_twoFields
    exceeds_twoFields
  have hresponses : (Conn.run (Llhttp.replay twoFieldsScript) (middlewareApp [])
      { maxHeaderCount := 1 }
      (Conn.start (Llhttp.replay twoFieldsScript) (middlewareApp []) { maxHeaderCount := 1 })
      [.readDone (some twoFieldsScript.wire), .writeDone true]).map
        (fun c ↦ ((c.log.drop 1).filterMap Entry.response?).map statusOf) = some [some 400] := by
    decide +kernel
  obtain ⟨c, hrun, hlog⟩ := Option.map_eq_some_iff.mp hresponses
  obtain ⟨bytes, hbytes, hcode⟩ :=
    hrefuses.answered _ c (delivers_of_eq rfl) hrun (hrefuses.noticed _ c rfl hrun)
  have hsame : [statusOf bytes] = [some 400] := by
    rw [← hlog]
    exact (congrArg (List.map statusOf) hbytes).symm
  rw [hcode] at hsame
  exact absurd hsame (by decide)

end Aevox
