import Aevox.App.Dispatch
import Aevox.Http.Replay

/-!
# Pipelined requests

A keep-alive connection serves one request after another. Between two of them the handler resets the
parser and reads on, and it keeps nothing of the read that completed the request: llhttp has stopped
behind the request's last byte and what the read brought beyond it is gone. So the handler serves
every sequence of requests as it should as long as no read brings bytes of two of them
(`serves_of_aligned`), whatever else the split looks like, and it can never dispatch more requests
than it has made reads (`dispatches_le_reads`).

The invariant `Serving` relates the connection to what has been served, what is still to come and
the reads that will bring it; a request under way is described by what the parser makes of the reads
that are still missing.
-/

namespace Aevox

open Coroutine HttpParser

/-! ## Requests on the wire -/

/-- A message with its bytes. -/
structure WireRequest where
  message : Message
  wire : Bytes

variable {σ : Type} (L : Llhttp σ) (app : App) (config : AppConfig)

/-- The request a message is for the application. -/
def WireRequest.request (w : WireRequest) : Request where
  parsed := w.message.parsed w.message.fields
  maxPayload := config.maxBodySize

/-- A well-formed keep-alive request within the limits, which llhttp reads as it should. -/
structure WireRequest.WellFormed (w : WireRequest) : Prop where
  nonempty : w.wire ≠ []
  parses : L.Parses w.wire w.message
  within : w.message.Within config.parserConfig
  keepAlive : w.message.info.shouldKeepAlive = true

/-- The split of each request into reads of its own. -/
abbrev Aligned (splits : List (List Bytes)) (ws : List WireRequest) : Prop :=
  List.Forall₂ (fun reads w ↦ reads.flatten = w.wire ∧ ∀ r ∈ reads, r ≠ []) splits ws

/-- The pipeline answers a request: it ends in a response that is written, and it keeps the
stream. -/
structure Answers (task : Task Response) : Prop where
  defined : task.Avoids (· = .callEmpty)
  ends : ∀ present r, task.Ends streamContract true present r →
    present = true ∧ ∃ res, r = .ok res ∧ res.statusCode ≠ kStatusSwitchingProtocols

/-! ## The log -/

/-- Entering the pipeline and writing a response. -/
def Entry.isExchange : Entry → Bool
  | .dispatch _ => true
  | .write _ => true
  | _ => false

/-- What the log says about requests and responses. -/
def exchanges (log : List Entry) : List Entry := log.filter Entry.isExchange

/-- Each request followed by its response. -/
def served (done : List (Request × Response)) : List Entry :=
  done.flatMap fun x ↦ [.dispatch x.1, .write (serializeResponse x.2)]

theorem exchanges_concat (log : List Entry) (e : Entry) :
    exchanges (log ++ [e]) = exchanges log ++ if e.isExchange then [e] else [] := by
  rw [exchanges, List.filter_append]
  rcases h : e.isExchange with _ | _ <;> simp [exchanges, h]

theorem served_concat (done : List (Request × Response)) (x : Request × Response) :
    served (done ++ [x]) = served done ++ [.dispatch x.1, .write (serializeResponse x.2)] := by
  rw [served, List.flatMap_append, List.flatMap_singleton, ← served]

variable {L app config}

namespace Conn

/-! ## Dispatches that never reach an empty function object -/

/-- The rest of the dispatch does not call an empty function object, and none has been called. -/
def Phase.Defined : Phase → Prop
  | .awaiting _ k => ∀ answer, (k answer).Avoids (· = .callEmpty)
  | .upgrading _ k => ∀ success, (k success).Avoids (· = .callEmpty)
  | .undefined => False
  | _ => True

theorem defined_advance {keepAlive : Bool} {task : Task Response} : ∀ {c : Conn σ},
    task.Avoids (· = .callEmpty) → Phase.Defined (c.advance keepAlive task).phase := by
  have hconclude : ∀ {c : Conn σ} (r : Except Exn Response),
      Phase.Defined (c.conclude keepAlive r).phase := by
    intro c r
    rcases r with e | res
    · trivial
    · rw [conclude]
      split <;> trivial
  induction task with
  | ret res => exact fun _ ↦ hconclude _
  | raise e => exact fun _ ↦ hconclude _
  | call op k ih =>
    rintro c ⟨hop, hk⟩
    rcases op with _ | stage | _ | bytes | _ | _
    · exact hk
    · exact ih () (hk ())
    · exact ih c.streamRef (hk c.streamRef)
    · exact hk
    · exact ih () (hk ())
    · exact absurd rfl hop

/-! ## The invariant -/

/-- The outcome is written. -/
def answered (present : Bool) (r : Except Exn Response) : Prop :=
  present = true ∧ ∃ res, r = .ok res ∧ res.statusCode ≠ kStatusSwitchingProtocols

/-- A connection that has served `done`, has the requests `ws` to come, and the reads `reads` to
bring them. -/
inductive Serving (L : Llhttp σ) (app : App) (config : AppConfig) (c : Conn σ) :
    List (Request × Response) → List WireRequest → List Bytes → Prop
  /-- Nothing is to come. -/
  | idle {done} (hphase : c.phase = .reading) (hlog : exchanges c.log = served done) :
      Serving L app config c done [] []
  /-- The reads of the next request come in; the parser will have it after the last of them. -/
  | reading {done w ws cur splits views p} (hphase : c.phase = .reading)
      (hlog : exchanges c.log = served done) (hcur : ∀ r ∈ cur, r ≠ [])
      (hfeed : c.parser.feedReads L cur = (.ok (w.message.parsed views), p, []))
      (hviews : views.map p.impl.headerStorage.lookup = w.message.fields.map some)
      (halign : Aligned splits ws) : Serving L app config c done (w :: ws) (cur ++ splits.flatten)
  /-- The next request is in the pipeline. -/
  | dispatching {done w ws splits}
      (hlog : exchanges c.log = served done ++ [.dispatch (w.request config)])
      (hphase : (∃ k, c.phase = .awaiting true k ∧
          ∀ answer, (k answer).wp streamContract answered c.streamRef) ∨
        ∃ k, c.phase = .upgrading true k ∧
          ∀ success, (k success).wp streamContract answered c.streamRef)
      (hdefined : Phase.Defined c.phase) (halign : Aligned splits ws) :
      Serving L app config c done (w :: ws) splits.flatten
  /-- The response to the last request in `done` is being written. -/
  | responding {done ws splits} (hphase : c.phase = .responding true)
      (hlog : exchanges c.log = served done) (halign : Aligned splits ws) :
      Serving L app config c done ws splits.flatten

theorem map_getD_of_map_eq {α β : Type} {f : α → Option β} (g : α → β) {l : List α} :
    ∀ {bs : List β}, l.map f = bs.map some → l.map (fun a ↦ (f a).getD (g a)) = bs := by
  induction l with
  | nil =>
    intro bs h
    exact (List.map_eq_nil_iff.mp h.symm).symm
  | cons a l ih =>
    intro bs h
    rcases bs with _ | ⟨b, bs⟩
    · exact absurd h (List.cons_ne_nil _ _)
    · obtain ⟨ha, hl⟩ := List.cons.inj h
      rw [List.map_cons, ih hl, ha, Option.getD_some]

/-- A request whose views show its header fields is the message's request. -/
theorem requestOf_parsed {c : Conn σ} {w : WireRequest} {views : List HeaderView}
    (hviews : views.map c.parser.impl.headerStorage.lookup = w.message.fields.map some) :
    c.requestOf app config (w.message.parsed views) = w.request config := by
  have hheaders := map_getD_of_map_eq app.platform.stale hviews
  exact congrArg (fun headers ↦ ({
    parsed := w.message.parsed headers
    maxPayload := config.maxBodySize } : Request)) hheaders

theorem serving_ready {c : Conn σ} (hphase : c.phase = .reading) (hfresh : c.parser.Fresh L)
    (hconfig : c.parser.impl.config = config.parserConfig) {done : List (Request × Response)}
    (hlog : exchanges c.log = served done) {ws : List WireRequest} {splits : List (List Bytes)}
    (hws : ∀ w ∈ ws, w.WellFormed L config) (htrailers : ∀ w ∈ ws, w.message.trailers.length ≤ 1)
    (halign : Aligned splits ws) : Serving L app config c done ws splits.flatten := by
  rcases halign with _ | ⟨⟨hcur, hne⟩, hrest⟩
  · exact .idle hphase hlog
  · rename_i cur w splits ws
    obtain ⟨hw, -⟩ := List.forall_mem_cons.mp hws
    have htail : w.message.trailers.dropLast = [] := by
      rw [List.eq_nil_iff_length_eq_zero, List.length_dropLast]
      have := htrailers w List.mem_cons_self
      omega
    rcases List.eq_nil_or_concat' cur with rfl | ⟨reads, last, rfl⟩
    · exact absurd hcur.symm hw.nonempty
    · obtain ⟨t, hrun, ht⟩ := hw.parses reads last []
        (fun r hr ↦ hne r (List.mem_append_left _ hr)) (hne last (by simp)) hcur
      rw [List.append_nil] at hrun
      obtain ⟨p, hfeed, hstorage, -⟩ := feedReads_message hfresh (hconfig ▸ hw.within) hrun ht
      refine .reading hphase hlog hne hfeed ?_ hrest
      rw [hstorage, htail, GrowingVector.append_nil, GrowingVector.lookup_refs,
        GrowingVector.entries_append, hfresh.blank.storage, List.nil_append]

/-! ## One step -/

/-- The connection goes on serving: what it has served and what is still to come make up the same
requests as before, and of the reads only those in `data` have been used up. -/
def GoesOn (L : Llhttp σ) (app : App) (config : AppConfig) (done : List (Request × Response))
    (ws : List WireRequest) (reads : List Bytes) (data : List (Option Bytes)) (c : Conn σ) : Prop :=
  ∃ done' ws' reads', Serving L app config c done' ws' reads' ∧
    done'.map Prod.fst ++ ws'.map (·.request config)
      = done.map Prod.fst ++ ws.map (·.request config) ∧
    ws' <:+ ws ∧ reads.map some = data ++ reads'.map some

/-- A dispatch leads on to a dispatch that is suspended, or to a response. -/
theorem goesOn_advance {c : Conn σ} {done : List (Request × Response)} {w : WireRequest}
    {ws : List WireRequest} {splits : List (List Bytes)} {task : Task Response}
    (hlog : exchanges c.log = served done ++ [.dispatch (w.request config)])
    (hwp : task.wp streamContract answered c.streamRef) (havoids : task.Avoids (· = .callEmpty))
    (halign : Aligned splits ws) :
    GoesOn L app config done (w :: ws) splits.flatten [] (c.advance true task) := by
  have hpreserved : Preserved fun c : Conn σ ↦
      exchanges c.log = served done ++ [.dispatch (w.request config)] := by
    refine ⟨fun _ h ↦ h, fun stage h ↦ ?_, fun bytes _ h ↦ ?_, fun _ h ↦ ?_⟩
    all_goals
      change exchanges (_ ++ [_]) = _
      rw [exchanges_concat, h]
      exact List.append_nil _
  have hsettled : Settled _ answered true (c.advance true task) :=
    settled_advance hpreserved hlog hwp
  have hdefined : Phase.Defined (c.advance true task).phase := defined_advance havoids
  generalize c.advance true task = c' at hsettled hdefined ⊢
  rcases hsettled with ⟨hphase, hP, hk⟩ | ⟨hphase, hP, hk⟩ | ⟨hP, -, res, rfl, hcode⟩ | ⟨hphase, -⟩
  · exact ⟨done, w :: ws, _, .dispatching hP (Or.inl ⟨_, hphase, hk⟩) hdefined halign, rfl,
      List.suffix_refl _, rfl⟩
  · exact ⟨done, w :: ws, _, .dispatching hP (Or.inr ⟨_, hphase, hk⟩) hdefined halign, rfl,
      List.suffix_refl _, rfl⟩
  · -- the response is written, and the request counts as served
    refine ⟨done ++ [(w.request config, res)], ws, splits.flatten, ?_, by simp,
      List.suffix_cons w ws, rfl⟩
    rw [conclude, if_neg hcode]
    refine .responding rfl ?_ halign
    change exchanges (_ ++ [_]) = _
    rw [exchanges_concat, hP, served_concat, List.append_assoc]
    rfl
  · rw [hphase] at hdefined
    exact hdefined.elim

theorem goesOn_of_reading {c c' : Conn σ} {e : Event} {es : List Event}
    {done : List (Request × Response)} {w : WireRequest} {ws : List WireRequest}
    {cur : List Bytes} {splits : List (List Bytes)} {views : List HeaderView} {p : HttpParser σ}
    (hphase : c.phase = .reading) (hlog : exchanges c.log = served done)
    (hcur : ∀ r ∈ cur, r ≠ [])
    (hfeed : c.parser.feedReads L cur = (.ok (w.message.parsed views), p, []))
    (hviews : views.map p.impl.headerStorage.lookup = w.message.fields.map some)
    (halign : Aligned splits ws) (hw : w.WellFormed L config)
    (hanswers : Answers (app.dispatchWithPipeline (w.request config)))
    (hdel : Delivers (e :: es) (cur ++ splits.flatten)) (h : Moves L app config c e c') :
    GoesOn L app config done (w :: ws) (cur ++ splits.flatten) e.data?.toList c' := by
  -- the parser has not got the request yet, so a read is missing
  rcases cur with _ | ⟨data, cur⟩
  · exact absurd (congrArg Prod.fst hfeed) (by simp [feedReads])
  rcases h with ⟨_, hempty⟩ | ⟨_, _, hmore⟩ | ⟨_, _, hrej, hne⟩ | ⟨_, _, hok, hreq⟩ | h | h | h |
    ⟨h, _⟩ | h
  case resume | upgrade | next | hangUp | refused => exact Phase.noConfusion (hphase.symm.trans h)
  all_goals
    obtain ⟨r, reads', hreads, hdata, -⟩ := delivers_readDone hdel
    obtain ⟨rfl, rfl⟩ := List.cons.inj hreads
  case close =>
    subst hdata
    exact absurd (hempty.resolve_left (Option.some_ne_none data)) fun h ↦
      hcur data List.mem_cons_self (Option.some.inj h)
  case more data' p₁ _ _ =>
    obtain rfl : data' = data := Option.some.inj hdata
    rw [feedReads, hmore] at hfeed
    have hlog' : exchanges (c.log ++ [.read]) = served done := by
      rw [exchanges_concat, hlog]
      exact List.append_nil _
    exact ⟨done, w :: ws, cur ++ splits.flatten,
      .reading (c := read { c with parser := p₁ }) rfl hlog'
        (fun r hr ↦ hcur r (List.mem_cons_of_mem _ hr)) hfeed hviews halign,
      rfl, List.suffix_refl _, rfl⟩
  case reject data' p₁ e _ _ =>
    -- the parser accepts the request, so it refuses none of its reads
    obtain rfl : data' = data := Option.some.inj hdata
    rw [feedReads, hrej] at hfeed
    rcases e with _ | _ | _ | _ | _
    · exact absurd rfl hne
    all_goals exact absurd (congrArg Prod.fst hfeed) (by simp)
  case dispatch data' parsed p₁ req _ _ =>
    obtain rfl : data' = data := Option.some.inj hdata
    rw [feedReads, hok] at hfeed
    obtain ⟨rfl, rfl, rfl⟩ : parsed = w.message.parsed views ∧ p₁ = p ∧ cur = [] := by
      simpa using hfeed
    rw [requestOf_parsed hviews] at hreq
    subst hreq
    have hlog' : exchanges (c.log ++ [.dispatch (w.request config)])
        = served done ++ [.dispatch (w.request config)] := by
      rw [exchanges_concat, hlog]
      rfl
    have hkeep : (w.message.parsed views).keepAlive = true := hw.keepAlive
    rw [hkeep]
    obtain ⟨done', ws', reads', hserving, hsame, hsuffix, hreads'⟩ := @goesOn_advance _ L app _
      (accept { c with parser := p₁ } (w.request config)) _ _ _ _ _ hlog'
      ((App.keeps_dispatchWithPipeline _).wp_iff.mpr hanswers.ends) hanswers.defined halign
    exact ⟨done', ws', reads', hserving, hsame, hsuffix, congrArg (some data' :: ·) hreads'⟩

theorem goesOn_of_dispatching {c c' : Conn σ} {e : Event} {done : List (Request × Response)}
    {w : WireRequest} {ws : List WireRequest} {splits : List (List Bytes)}
    (hlog : exchanges c.log = served done ++ [.dispatch (w.request config)])
    (hphase : (∃ k, c.phase = .awaiting true k ∧
        ∀ answer, (k answer).wp streamContract answered c.streamRef) ∨
      ∃ k, c.phase = .upgrading true k ∧
        ∀ success, (k success).wp streamContract answered c.streamRef)
    (hdefined : Phase.Defined c.phase) (halign : Aligned splits ws)
    (h : Moves L app config c e c') :
    GoesOn L app config done (w :: ws) splits.flatten e.data?.toList c' := by
  rcases hphase with ⟨k, hphase, hk⟩ | ⟨k, hphase, hk⟩
  all_goals
    rw [hphase] at hdefined
    rcases h with ⟨h, _⟩ | ⟨h, _, _⟩ | ⟨h, _, _, _⟩ | ⟨h, _, _, _⟩ | h | h | h | ⟨h, _⟩ | h
  case inl.resume =>
    obtain ⟨rfl, rfl⟩ := Phase.awaiting.inj (hphase.symm.trans h)
    exact goesOn_advance hlog (hk _) (hdefined _) halign
  case inr.upgrade =>
    obtain ⟨rfl, rfl⟩ := Phase.upgrading.inj (hphase.symm.trans h)
    exact goesOn_advance hlog (hk _) (hdefined _) halign
  all_goals exact Phase.noConfusion (hphase.symm.trans h)

/-- The response is out, and the parser is made ready for the next request. -/
theorem goesOn_of_responding {c c' : Conn σ} {e : Event} {done : List (Request × Response)}
    {ws : List WireRequest} {splits : List (List Bytes)} (hphase : c.phase = .responding true)
    (hlog : exchanges c.log = served done) (halign : Aligned splits ws)
    (hconfig : c.parser.impl.config = config.parserConfig) (hws : ∀ w ∈ ws, w.WellFormed L config)
    (htrailers : ∀ w ∈ ws, w.message.trailers.length ≤ 1) (hwrite : e ≠ .writeDone false)
    (h : Moves L app config c e c') :
    GoesOn L app config done ws splits.flatten e.data?.toList c' := by
  rcases h with ⟨h, _⟩ | ⟨h, _, _⟩ | ⟨h, _, _, _⟩ | ⟨h, _, _, _⟩ | h | h | h | ⟨h, hlast⟩ | h
  case next =>
    have hlog' : exchanges (c.log ++ [.read]) = served done := by
      rw [exchanges_concat, hlog]
      exact List.append_nil _
    exact ⟨done, ws, splits.flatten,
      serving_ready (c := read { c with parser := c.parser.reset L }) rfl
        (fresh_reset L c.parser) hconfig hlog' hws htrailers halign,
      rfl, List.suffix_refl ws, rfl⟩
  case hangUp keepAlive success =>
    rw [hphase, Phase.responding.injEq] at h
    rw [← h, Bool.and_true] at hlast
    exact absurd (congrArg Event.writeDone hlast) hwrite
  all_goals exact Phase.noConfusion (hphase.symm.trans h)

theorem goesOn_of_moves {c c' : Conn σ} {e : Event} {es : List Event}
    {done : List (Request × Response)} {ws : List WireRequest} {reads : List Bytes}
    (hc : Serving L app config c done ws reads)
    (hconfig : c.parser.impl.config = config.parserConfig) (hws : ∀ w ∈ ws, w.WellFormed L config)
    (htrailers : ∀ w ∈ ws, w.message.trailers.length ≤ 1)
    (hanswers : ∀ w ∈ ws, Answers (app.dispatchWithPipeline (w.request config)))
    (hdel : Delivers (e :: es) reads) (hwrite : e ≠ .writeDone false)
    (h : Moves L app config c e c') :
    GoesOn L app config done ws reads e.data?.toList c' := by
  rcases hc with ⟨hphase, hlog⟩ | ⟨hphase, hlog, hcur, hfeed, hviews, halign⟩ |
    ⟨hlog, hphase, hdefined, halign⟩ | ⟨hphase, hlog, halign⟩
  case idle =>
    -- it waits for a read, but there is none left to come
    rcases h with ⟨_, _⟩ | ⟨_, _, _⟩ | ⟨_, _, _, _⟩ | ⟨_, _, _, _⟩ | h | h | h | ⟨h, _⟩ | h
    case resume | upgrade | next | hangUp | refused => exact Phase.noConfusion (hphase.symm.trans h)
    all_goals
      obtain ⟨r, reads', hreads, -⟩ := delivers_readDone hdel
      exact absurd hreads.symm (List.cons_ne_nil _ _)
  case reading w ws cur splits views p =>
    exact goesOn_of_reading hphase hlog hcur hfeed hviews halign (hws w List.mem_cons_self)
      (hanswers w List.mem_cons_self) hdel h
  case dispatching => exact goesOn_of_dispatching hlog hphase hdefined halign h
  case responding => exact goesOn_of_responding hphase hlog halign hconfig hws htrailers hwrite h

/-! ## Runs -/

theorem serving_of_run {es : List Event} : ∀ {c c' : Conn σ} {done : List (Request × Response)}
    {ws : List WireRequest} {reads : List Bytes}, Serving L app config c done ws reads →
    c.parser.impl.config = config.parserConfig → (∀ w ∈ ws, w.WellFormed L config) →
    (∀ w ∈ ws, w.message.trailers.length ≤ 1) →
    (∀ w ∈ ws, Answers (app.dispatchWithPipeline (w.request config))) →
    Delivers es reads → .writeDone false ∉ es → run L app config c es = some c' →
    ∃ done' ws' reads', Serving L app config c' done' ws' reads' ∧
      done'.map Prod.fst ++ ws'.map (·.request config)
        = done.map Prod.fst ++ ws.map (·.request config) ∧
      reads.map some = es.filterMap Event.data? ++ reads'.map some := by
  -- each step hands what is still to come on to the rest of the run
  induction es with
  | nil =>
    intro c c' done ws reads hc _ _ _ _ _ _ hrun
    rw [← Option.some.inj hrun]
    exact ⟨done, ws, reads, hc, rfl, rfl⟩
  | cons e es ih =>
    intro c c' done ws reads hc hconfig hws htrailers hanswers hdel hwrites hrun
    obtain ⟨hwrite, hwrites⟩ := not_or.mp (List.mem_cons.not.mp hwrites)
    obtain ⟨c₁, hstep, hrun₁⟩ := Machine.run_cons_eq_some_iff.mp hrun
    have hmoves := step_eq_some_iff.mp hstep
    obtain ⟨done₁, ws₁, reads₁, hc₁, hsame₁, hsuffix, hreads₁⟩ :=
      goesOn_of_moves hc hconfig hws htrailers hanswers hdel (Ne.symm hwrite) hmoves
    have hsplit : (e :: es).filterMap Event.data? = e.data?.toList ++ es.filterMap Event.data? := by
      rcases h : e.data? with _ | data <;> simp [h]
    have hdel₁ : Delivers es reads₁ := by
      rw [Delivers, hsplit, hreads₁] at hdel
      exact (List.prefix_append_right_inj _).mp hdel
    obtain ⟨done', ws', reads', hc', hsame', hreads'⟩ := ih hc₁
      ((config_of_moves hmoves).trans hconfig) (fun w hw ↦ hws w (hsuffix.mem hw))
      (fun w hw ↦ htrailers w (hsuffix.mem hw)) (fun w hw ↦ hanswers w (hsuffix.mem hw)) hdel₁
      hwrites hrun₁
    refine ⟨done', ws', reads', hc', hsame'.trans hsame₁, ?_⟩
    rw [hreads₁, hreads', hsplit, List.append_assoc]

/-! ## What a client sees -/

/-- The connection is still open. -/
def Phase.IsOpen : Phase → Prop
  | .refusing => False
  | .finished _ => False
  | .undefined => False
  | _ => True

/-- An open connection that has dispatched the first of `reqs`, once each and in order, and written
one response to each before the next; all of them, if it waits for a read after all bytes have been
`brought`. -/
structure Serves (reqs : List Request) (brought : Prop) (c : Conn σ) : Prop where
  isOpen : Phase.IsOpen c.phase
  inOrder : ∃ responses : List Response, responses.length = reqs.length ∧
    exchanges c.log <+: served (reqs.zip responses) ∧
    (brought → c.phase = .reading → exchanges c.log = served (reqs.zip responses))

theorem Serving.isOpen {c : Conn σ} {done : List (Request × Response)} {ws : List WireRequest}
    {reads : List Bytes} (hc : Serving L app config c done ws reads) : Phase.IsOpen c.phase := by
  rcases hc with ⟨hphase, _⟩ | ⟨hphase, _, _, _, _, _⟩ |
    ⟨_, ⟨k, hphase, _⟩ | ⟨k, hphase, _⟩, _, _⟩ | ⟨hphase, _, _⟩
  all_goals
    rw [hphase]
    trivial

/-- What has been served is what the log says, and possibly one more request that has entered the
pipeline. -/
theorem Serving.exchanges_eq {c : Conn σ} {done : List (Request × Response)} {ws : List WireRequest}
    {reads : List Bytes} (hc : Serving L app config c done ws reads) :
    exchanges c.log = served done ∧ (reads = [] → c.phase = .reading → ws = []) ∨
      c.phase ≠ .reading ∧ ∃ w ws', ws = w :: ws' ∧
        exchanges c.log = served done ++ [.dispatch (w.request config)] := by
  rcases hc with ⟨hphase, hlog⟩ | ⟨hphase, hlog, hcur, hfeed, hviews, halign⟩ |
    ⟨hlog, hphase, hdefined, halign⟩ | ⟨hphase, hlog, halign⟩
  case idle => exact Or.inl ⟨hlog, fun _ _ ↦ rfl⟩
  case reading =>
    refine Or.inl ⟨hlog, fun hnil _ ↦ ?_⟩
    rw [(List.append_eq_nil_iff.mp hnil).1] at hfeed
    exact absurd (congrArg Prod.fst hfeed) (by simp [feedReads])
  case dispatching =>
    refine Or.inr ⟨fun h ↦ ?_, _, _, rfl, hlog⟩
    rcases hphase with ⟨k, hphase, -⟩ | ⟨k, hphase, -⟩ <;>
      exact Phase.noConfusion (h.symm.trans hphase)
  case responding =>
    exact Or.inl ⟨hlog, fun _ h ↦ Phase.noConfusion (h.symm.trans hphase)⟩

theorem served_zip_append (done : List (Request × Response)) {reqs : List Request}
    {responses : List Response} :
    served ((done.map Prod.fst ++ reqs).zip (done.map Prod.snd ++ responses))
      = served done ++ served (reqs.zip responses) := by
  rw [List.zip_append (by simp), ← List.zip_of_prod rfl rfl, served, List.flatMap_append]
  rfl

/-- **Requests that come in reads of their own are served**, once each and in order, in every state
of every run: however each is split, whatever the application awaits, as long as it answers. -/
theorem serves_of_aligned {ws : List WireRequest} {splits : List (List Bytes)} {es : List Event}
    {c : Conn σ} (hws : ∀ w ∈ ws, w.WellFormed L config)
    (htrailers : ∀ w ∈ ws, w.message.trailers.length ≤ 1)
    (hanswers : ∀ w ∈ ws, Answers (app.dispatchWithPipeline (w.request config)))
    (halign : Aligned splits ws) (hdel : Delivers es splits.flatten)
    (hwrites : .writeDone false ∉ es) (hrun : run L app config (start L app config) es = some c) :
    c.Serves (ws.map (·.request config)) (es.filterMap Event.data? = splits.flatten.map some) := by
  have hstart : Serving L app config (start L app config) [] ws splits.flatten :=
    serving_ready rfl (fresh_create L _ _) rfl rfl hws htrailers halign
  obtain ⟨done, ws', reads, hc, hsame, hreads⟩ :=
    serving_of_run hstart rfl hws htrailers hanswers hdel hwrites hrun
  -- when all reads have arrived, none is left to come
  have hlast : es.filterMap Event.data? = splits.flatten.map some → reads = [] := by
    intro hall
    rw [← hall, List.self_eq_append_right, List.map_eq_nil_iff] at hreads
    exact hreads
  rw [List.map_nil, List.nil_append] at hsame
  refine ⟨hc.isOpen, done.map Prod.snd ++ List.replicate ws'.length (.ok []), ?_, ?_, ?_⟩
  · rw [← hsame]
    simp
  · rw [← hsame, served_zip_append]
    rcases hc.exchanges_eq with ⟨hlog, -⟩ | ⟨-, w, ws'', rfl, hlog⟩
    · rw [hlog]
      exact List.prefix_append _ _
    · rw [hlog]
      exact (List.prefix_append_right_inj _).mpr (List.prefix_append [_] _)
  · intro hall hphase
    rw [← hsame, served_zip_append]
    rcases hc.exchanges_eq with ⟨hlog, hnone⟩ | ⟨hbusy, -⟩
    · rw [hlog, hnone (hlast hall) hphase]
      exact (List.append_nil _).symm
    · exact absurd hphase hbusy

/-! ## Reads bound requests -/

/-- Requests that have entered the pipeline. -/
def dispatches (log : List Entry) : ℕ := log.countP fun e ↦ e matches .dispatch _

theorem dispatches_concat (log : List Entry) (e : Entry) :
    dispatches (log ++ [e]) = dispatches log + if e matches .dispatch _ then 1 else 0 := by
  rw [dispatches, List.countP_append, List.countP_singleton, ← dispatches]

theorem dispatches_advance (keepAlive : Bool) (task : Task Response) (c : Conn σ) :
    dispatches (c.advance keepAlive task).log = dispatches c.log := by
  obtain ⟨entries, hlog, hall⟩ := log_advance keepAlive task c
  rw [dispatches, dispatches, hlog, List.countP_append, Nat.add_eq_left, List.countP_eq_zero]
  intro e he
  have := hall e he
  rcases e with _ | _ | _ | _ | _ | _
  case dispatch => exact this.elim
  all_goals exact Bool.false_ne_true

theorem dispatches_of_moves {c c' : Conn σ} {e : Event} (h : Moves L app config c e c') :
    dispatches c'.log ≤ dispatches c.log + e.data?.toList.length := by
  rcases h with _ | _ | _ | _ | _ | _ | _ | _ | _
  case dispatch =>
    rw [dispatches_advance]
    exact (dispatches_concat c.log _).le
  case resume => exact (dispatches_advance _ _ c).le
  case upgrade => exact (dispatches_advance _ _ c).le
  case more => exact (dispatches_concat c.log .read).le.trans (Nat.le_succ _)
  case reject => exact (dispatches_concat c.log (.write _)).le.trans (Nat.le_succ _)
  case next => exact (dispatches_concat c.log .read).le
  case close => exact Nat.le_succ _
  case hangUp => exact le_refl _
  case refused => exact le_refl _

/-- **No read brings two requests**: a connection has dispatched at most as many requests as it has
made reads. -/
theorem dispatches_le_reads {es : List Event} {c : Conn σ}
    (hrun : run L app config (start L app config) es = some c) :
    dispatches c.log ≤ (es.filterMap Event.data?).length := by
  induction es using List.reverseRecOn generalizing c with
  | nil =>
    rw [← Option.some.inj hrun]
    exact le_refl _
  | append_singleton es e ih =>
    rw [run, Machine.run_append, Option.bind_eq_some_iff] at hrun
    obtain ⟨c₁, hrun₁, hstep⟩ := hrun
    obtain ⟨c₂, hc₂, heq⟩ := Machine.run_cons_eq_some_iff.mp hstep
    rw [Machine.run_nil, Option.some.injEq] at heq
    subst heq
    have hle := dispatches_of_moves (step_eq_some_iff.mp hc₂)
    have hprev := ih hrun₁
    have hlast : (([e] : List Event).filterMap Event.data?).length = e.data?.toList.length := by
      rcases h : e.data? with _ | data <;> simp [h]
    rw [List.filterMap_append, List.length_append, hlast]
    omega

end Conn

/-! ## Two requests -/

/-- The connection waits for a read. -/
def Phase.isReading : Phase → Bool
  | .reading => true
  | _ => false

theorem Phase.isReading_iff {phase : Phase} : phase.isReading = true ↔ phase = .reading := by
  rcases phase <;> simp [isReading]

/-- `GET /` as llhttp reads it. -/
def getScript : Llhttp.Script := .request "GET" "/" [] {}

/-- `GET /` -/
def getRequest : WireRequest where
  message :=
    { method := ascii "GET"
      target := ascii "/"
      fields := []
      info := {}
      body := []
      trailers := []
      names_ne_nil := by decide }
  wire := getScript.wire

private theorem wellFormed_getRequest : getRequest.WellFormed (Llhttp.replay getScript) {} where
  nonempty := by decide
  parses := Llhttp.replay_parses (by decide)
  within := by decide
  keepAlive := rfl

private theorem answers_getRequest :
    Answers ((middlewareApp []).dispatchWithPipeline (getRequest.request {})) := by
  have hpipeline : (middlewareApp []).dispatchWithPipeline (getRequest.request {})
      = call (.enter .router) fun _ ↦ ret (.notFound (ascii "404 Not Found")) := rfl
  rw [hpipeline]
  refine ⟨⟨TaskOp.noConfusion, fun _ ↦ trivial⟩, fun present r hend ↦ ?_⟩
  cases hend with
  | call hx hend =>
    cases hend
    exact ⟨hx, _, rfl, by decide⟩

private theorem forall_getRequest {P : WireRequest → Prop} (h : P getRequest) :
    ∀ w ∈ [getRequest, getRequest], P w := by
  intro w hw
  rcases List.mem_cons.mp hw with rfl | hw
  · exact h
  · rw [List.mem_singleton.mp hw]
    exact h

/-- Two requests in reads of their own are served. -/
theorem serves_two_gets :
    ∃ c, Conn.run (Llhttp.replay getScript) (middlewareApp []) {}
        (.start (Llhttp.replay getScript) (middlewareApp []) {})
        [.readDone (some getRequest.wire), .writeDone true, .readDone (some getRequest.wire),
          .writeDone true] = some c ∧
      c.Serves [getRequest.request {}, getRequest.request {}]
        ([some getRequest.wire, some getRequest.wire]
          = [some getRequest.wire, some getRequest.wire]) := by
  have hruns : (Conn.run (Llhttp.replay getScript) (middlewareApp []) {}
      (.start (Llhttp.replay getScript) (middlewareApp []) {})
      [.readDone (some getRequest.wire), .writeDone true, .readDone (some getRequest.wire),
        .writeDone true]).isSome = true := by
    decide +kernel
  obtain ⟨c, hrun⟩ := Option.isSome_iff_exists.mp hruns
  have hread : [getRequest.wire].flatten = getRequest.wire ∧ ∀ r ∈ [getRequest.wire], r ≠ [] := by
    decide
  exact ⟨c, hrun, Conn.serves_of_aligned (forall_getRequest wellFormed_getRequest)
    (forall_getRequest (Nat.zero_le _)) (forall_getRequest answers_getRequest)
    (.cons hread (.cons hread .nil)) (delivers_of_eq rfl) (by decide) hrun⟩

/-- Of two requests in one read the second is lost. -/
theorem not_serves_of_one_read :
    ¬∀ (σ : Type) (L : Llhttp σ) (app : App) (config : AppConfig) (ws : List WireRequest)
      (reads : List Bytes) (es : List Event) (c : Conn σ), (∀ w ∈ ws, w.WellFormed L config) →
      (∀ w ∈ ws, Answers (app.dispatchWithPipeline (w.request config))) →
      (∀ r ∈ reads, r ≠ []) → reads.flatten = (ws.map WireRequest.wire).flatten →
      Delivers es reads → .writeDone false ∉ es →
      Conn.run L app config (.start L app config) es = some c →
      c.Serves (ws.map (·.request config)) (es.filterMap Event.data? = reads.map some) := by
  intro h
  have hone : (Conn.run (Llhttp.replay getScript) (middlewareApp []) {}
      (.start (Llhttp.replay getScript) (middlewareApp []) {})
      [.readDone (some (getRequest.wire ++ getRequest.wire)), .writeDone true]).map
        (fun c ↦ ((exchanges c.log).length, c.phase.isReading)) = some (2, true) := by
    decide +kernel
  obtain ⟨c, hrun, hend⟩ := Option.map_eq_some_iff.mp hone
  obtain ⟨hlen, hreading⟩ := Prod.mk.inj hend
  have hphase : c.phase = .reading := Phase.isReading_iff.mp hreading
  have hserves := h _ _ _ _ [getRequest, getRequest] [getRequest.wire ++ getRequest.wire] _ c
    (forall_getRequest wellFormed_getRequest) (forall_getRequest answers_getRequest) (by decide)
    (by simp) (delivers_of_eq rfl) (by decide) hrun
  obtain ⟨responses, hcount, -, hall⟩ := hserves.inOrder
  rw [hall rfl hphase] at hlen
  rcases responses with _ | ⟨r, _ | ⟨r', _ | _⟩⟩
  all_goals simp [served] at hcount hlen

end Aevox
